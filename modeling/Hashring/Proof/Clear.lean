import Hashring.Proof.Invariant
import Hashring.Proof.RoundTrip

/-!
# Collision loops that meet no collision

When neither collision loop meets a position owned by another node, the bound never moves and
both loops visit the same positions: each call's positions up to the bound test, call after call
until the replica index reaches the bound (`visitedPositions`). Which positions those are depends
on the node and the bound only, not on the table, and every one is derived below the bound
(`derivedBelow_of_mem_visitedPositions`):

* `addLoop_clear`: the placement loop over distinct free visited positions gives them all to
  its node, and fetches only positions derived below the bound (`addLoopPositions_derivedBelow`).
* `removeLoop_clear`: the removal loop over visited positions owned by its node, or free, erases
  them all; so a removal batch that meets no other node's position erases the positions its nodes
  visit, in any order of the batch (`foldlM_removeNoWeightNode_clear`,
  `removeNoWeightNodes_perm`).
* `visitedPositions_congr`: any two fuels with which the loop stops visit the same positions;
  `chainStops_of_le`: how much fuel is enough when every call below the bound derives a position.
-/
namespace Hashring

variable {Node : Type} (c : Config Node)

/-- `p` is a position `node` derives at a replica index below `I`. -/
def DerivedBelow (I : Nat) (node : Node) (p : UInt32) : Prop :=
  ∃ i < I, p ∈ c.getIterateHashKeyForNode node i

/-- The positions both collision loops visit when they meet no position owned by another node:
each call's positions up to the bound test, while the replica index is below the bound. -/
def visitedPositions (a : Node) : Nat → Nat → Nat → List UInt32
  | 0, _, _ => []
  | fuel + 1, i, R =>
    if i < R then
      (c.getIterateHashKeyForNode a i).take (R + 1 - i) ++
        visitedPositions a fuel (i + (c.getIterateHashKeyForNode a i).length) R
    else []

/-- Whether the replica index of a loop that keeps its bound reaches it within `fuel` turns. -/
def chainStops (a : Node) : Nat → Nat → Nat → Bool
  | 0, _, _ => false
  | fuel + 1, i, R =>
    if i < R then chainStops a fuel (i + (c.getIterateHashKeyForNode a i).length) R else true

/-- The table with the positions of `l` erased one after the other. -/
def eraseAll (l : List UInt32) (t : Table Node) : Table Node := l.foldl (fun t p => t.erase p) t

@[simp] theorem lookup_eraseAll (l : List UInt32) (t : Table Node) (p : UInt32) :
    (eraseAll l t).lookup p = if p ∈ l then none else t.lookup p := by
  induction l generalizing t with
  | nil => rfl
  | cons q l ih =>
    rw [eraseAll, List.foldl_cons, ← eraseAll, ih]
    by_cases hpq : p = q
    · subst hpq
      simp
    · simp [hpq, Finmap.lookup_erase_ne hpq]

/-- The table with each position of `l` given to `a`. -/
def insertAll (a : Node) (l : List UInt32) (t : Table Node) : Table Node :=
  l.foldl (fun t p => t.insert p a) t

@[simp] theorem lookup_insertAll (a : Node) (l : List UInt32) (t : Table Node) (p : UInt32) :
    (insertAll a l t).lookup p = if p ∈ l then some a else t.lookup p := by
  induction l generalizing t with
  | nil => rfl
  | cons q l ih =>
    rw [insertAll, List.foldl_cons, ← insertAll, ih]
    by_cases hpq : p = q
    · subst hpq
      simp
    · simp [hpq, Finmap.lookup_insert_of_ne _ hpq]

theorem derivedBelow_of_mem_visitedPositions {a : Node} {R : Nat} :
    ∀ {fuel i p}, p ∈ visitedPositions c a fuel i R → DerivedBelow c R a p
  | 0, _, _, h => absurd h (List.not_mem_nil _)
  | fuel + 1, i, p, h => by
    simp only [visitedPositions] at h
    split at h
    · rcases List.mem_append.1 h with h | h
      · exact ⟨i, ‹_›, List.mem_of_mem_take h⟩
      · exact derivedBelow_of_mem_visitedPositions h
    · exact absurd h (List.not_mem_nil _)

/-- **A removal loop that meets no other node's position** keeps its bound and erases exactly
the positions it visits, when every call derives a position. -/
theorem removeLoop_clear {a : Node} {R : Nat} (hne : ∀ i < R, c.getIterateHashKeyForNode a i ≠ []) :
    ∀ (fuel i : Nat) (u : Table Node),
      (∀ p ∈ visitedPositions c a fuel i R, u.lookup p = some a ∨ u.lookup p = none) →
      removeLoop c a fuel i R u =
        if chainStops c a fuel i R then some (R, eraseAll (visitedPositions c a fuel i R) u) else none
  | 0, _, _, _ => rfl
  | fuel + 1, i, u, hu => by
    by_cases hi : i < R
    · have h0 : (c.getIterateHashKeyForNode a i).length ≠ 0 := mt List.length_eq_zero.1 (hne i hi)
      simp only [removeLoop, visitedPositions, chainStops, hi, h0, if_true, if_false] at hu ⊢
      obtain ⟨hR, hlook⟩ := scan_deleteAt_own c (a := a) (i := i) (R := R)
        (c.getIterateHashKeyForNode a i) 0 u fun p hp => hu p (List.mem_append_left _ hp)
      simp only [Nat.add_zero] at hlook
      rw [hR, removeLoop_clear hne fuel _ _ fun p hp => ?_]
      · -- Erasing what the first scan left and then the rest is erasing both.
        congr 3
        refine Finmap.ext_lookup fun p => ?_
        simp only [lookup_eraseAll, hlook, List.mem_append]
        by_cases h1 : p ∈ (c.getIterateHashKeyForNode a i).take (R + 1 - i) <;> simp [h1]
      · rw [hlook]
        split_ifs
        · exact .inr rfl
        · exact hu p (List.mem_append_right _ hp)
    · simp [removeLoop, visitedPositions, chainStops, hi, eraseAll]

/-- One call of a placement loop over distinct free visited positions: the scan keeps the bound,
gives its node the positions up to the bound test, and leaves the positions still to visit free. -/
theorem scan_placeAt_free_rest {a : Node} {i R : Nat} {t : Table Node} {rest : List UInt32}
    (hnd : ((c.getIterateHashKeyForNode a i).take (R + 1 - i) ++ rest).Nodup)
    (hfree : ∀ p ∈ (c.getIterateHashKeyForNode a i).take (R + 1 - i) ++ rest, p ∉ t) :
    (scan (placeAt a) i 0 (c.getIterateHashKeyForNode a i) R t).1 = R ∧
      (∀ p, (scan (placeAt a) i 0 (c.getIterateHashKeyForNode a i) R t).2.lookup p =
        if p ∈ (c.getIterateHashKeyForNode a i).take (R + 1 - i) then some a else t.lookup p) ∧
      rest.Nodup ∧ ∀ p ∈ rest, p ∉ (scan (placeAt a) i 0 (c.getIterateHashKeyForNode a i) R t).2 := by
  obtain ⟨hndt, hndrest, hdisj⟩ := List.nodup_append.1 hnd
  obtain ⟨hR, hlook⟩ := scan_placeAt_free (a := a) (i := i) (R := R)
    (c.getIterateHashKeyForNode a i) 0 t hndt fun p hp => hfree p (List.mem_append_left _ hp)
  simp only [Nat.add_zero] at hlook
  refine ⟨hR, hlook, hndrest, fun p hp => Finmap.lookup_eq_none.1 ?_⟩
  rw [hlook, if_neg fun hv => hdisj hv hp]
  exact Finmap.lookup_eq_none.2 (hfree p (List.mem_append_right _ hp))

/-- **A placement loop that meets no taken position** keeps its bound and gives its node
exactly the positions it visits, when every call derives a position and they are distinct. -/
theorem addLoop_clear {a : Node} {R : Nat} (hne : ∀ i < R, c.getIterateHashKeyForNode a i ≠ []) :
    ∀ (fuel i : Nat) (t : Table Node), (visitedPositions c a fuel i R).Nodup →
      (∀ p ∈ visitedPositions c a fuel i R, p ∉ t) →
      addLoop c a fuel i R t =
        if chainStops c a fuel i R then some (insertAll a (visitedPositions c a fuel i R) t)
        else none
  | 0, _, _, _, _ => rfl
  | fuel + 1, i, t, hnd, hfree => by
    by_cases hi : i < R
    · have h0 : (c.getIterateHashKeyForNode a i).length ≠ 0 := mt List.length_eq_zero.1 (hne i hi)
      simp only [addLoop, visitedPositions, chainStops, hi, h0, if_true, if_false] at hnd hfree ⊢
      obtain ⟨hR, hlook, hndrest, hfree'⟩ := scan_placeAt_free_rest c hnd hfree
      rw [hR, addLoop_clear hne fuel _ _ hndrest hfree']
      -- Giving away what the first scan took and then the rest is giving away both.
      congr 2
      refine Finmap.ext_lookup fun p => ?_
      simp only [lookup_insertAll, hlook, List.mem_append]
      by_cases h1 : p ∈ (c.getIterateHashKeyForNode a i).take (R + 1 - i) <;> simp [h1]
    · simp [addLoop, visitedPositions, chainStops, hi, insertAll]

/-- A loop that stops within `fuel` turns stops within any more, having visited the same
positions. -/
theorem visitedPositions_mono {a : Node} :
    ∀ {fuel fuel' i R : Nat}, chainStops c a fuel i R → fuel ≤ fuel' →
      chainStops c a fuel' i R ∧ visitedPositions c a fuel' i R = visitedPositions c a fuel i R
  | 0, _, _, _, h, _ => by simp [chainStops] at h
  | _ + 1, 0, _, _, _, hle => absurd hle (by omega)
  | fuel + 1, fuel' + 1, i, R, h, hle => by
    by_cases hi : i < R
    · simp only [chainStops, visitedPositions, hi, if_true] at h ⊢
      obtain ⟨h1, h2⟩ := visitedPositions_mono h (Nat.le_of_succ_le_succ hle)
      exact ⟨h1, by rw [h2]⟩
    · simp [chainStops, visitedPositions, hi]

/-- With less fuel a loop visits a prefix of what it visits with more. -/
theorem visitedPositions_isPrefix_of_le {a : Node} :
    ∀ {fuel fuel' i R : Nat}, fuel ≤ fuel' →
      List.IsPrefix (visitedPositions c a fuel i R) (visitedPositions c a fuel' i R)
  | 0, _, _, _, _ => List.nil_prefix
  | _ + 1, 0, _, _, hle => absurd hle (by omega)
  | fuel + 1, fuel' + 1, i, R, hle => by
    simp only [visitedPositions]
    split
    · exact (List.prefix_append_right_inj _).2
        (visitedPositions_isPrefix_of_le (Nat.le_of_succ_le_succ hle))
    · exact List.prefix_refl _

/-- Any two fuels with which a loop stops visit the same positions. -/
theorem visitedPositions_congr {a : Node} {fuel fuel' i R : Nat} (h : chainStops c a fuel i R)
    (h' : chainStops c a fuel' i R) :
    visitedPositions c a fuel i R = visitedPositions c a fuel' i R := by
  rcases le_total fuel fuel' with hle | hle
  · exact (visitedPositions_mono c h hle).2.symm
  · exact (visitedPositions_mono c h' hle).2

/-- When every call derives a position, one turn more than the bound is ahead is enough. -/
theorem chainStops_of_le {a : Node} {R : Nat} (hne : ∀ i < R, c.getIterateHashKeyForNode a i ≠ []) :
    ∀ (k i : Nat), R ≤ k + i → chainStops c a (k + 1) i R
  | 0, i, h => by simp [chainStops, show ¬i < R by omega]
  | k + 1, i, h => by
    rw [chainStops]
    split
    · exact chainStops_of_le hne k _ (by have := List.length_pos.2 (hne i ‹_›); omega)
    · rfl

/-- When every call below the bound derives one position, a loop that meets nothing visits one
position per replica index below it. -/
theorem visitedPositions_length_single {a : Node} {R : Nat}
    (hone : ∀ i < R, (c.getIterateHashKeyForNode a i).length = 1) :
    ∀ (fuel i : Nat), R ≤ fuel + i → (visitedPositions c a fuel i R).length = R - i
  | 0, i, h => by simp only [visitedPositions, List.length_nil]; omega
  | fuel + 1, i, h => by
    rw [visitedPositions]
    split
    · rw [List.length_append, List.length_take, hone i ‹_›,
        visitedPositions_length_single hone fuel _ (by omega)]
      omega
    · simp only [List.length_nil]
      omega

/-- So a loop from replica index `0` with more fuel than its bound stops. -/
theorem chainStops_of_lt {a : Node} {R : Nat} (hne : ∀ i < R, c.getIterateHashKeyForNode a i ≠ [])
    {fuel : Nat} (hfuel : R < fuel) : chainStops c a fuel 0 R := by
  obtain ⟨k, rfl⟩ := Nat.exists_eq_add_of_lt hfuel
  exact chainStops_of_le c hne (R + k) 0 (by omega)

variable [DecidableEq Node] {fuel : Nat} {s : HashRing Node}

/-- **A removal batch that meets no other node's position** erases every position some node of
the batch visits and drops the batch from the members, keeping the shared bound. -/
theorem foldlM_removeNoWeightNode_clear {R : Nat} :
    ∀ (nodes : List Node) (s : HashRing Node), (∀ x ∈ nodes, ∀ i < R, c.getIterateHashKeyForNode x i ≠ []) →
      (∀ x ∈ nodes, ∀ p ∈ visitedPositions c x fuel 0 R,
        s.nodeByKey.lookup p = some x ∨ s.nodeByKey.lookup p = none) →
      nodes.foldlM (removeNoWeightNode c fuel) (R, s) =
        if nodes.all (chainStops c · fuel 0 R) then
          some (R, { s with
            nodeByKey := eraseAll (nodes.flatMap (visitedPositions c · fuel 0 R)) s.nodeByKey
            allNodes := s.allNodes \ nodes.toFinset })
        else none
  | [], s, _, _ => by
    cases s
    simp [eraseAll]
  | x :: nodes, s, hne, hs => by
    have hx := removeLoop_clear c (hne x (List.mem_cons_self _ _)) fuel 0 s.nodeByKey
      (hs x (List.mem_cons_self _ _))
    simp only [List.foldlM_cons, removeNoWeightNode, hx, List.all_cons]
    by_cases hcx : chainStops c x fuel 0 R
    · simp only [hcx, if_true, Option.map_some', Option.bind_eq_bind, Option.some_bind,
        Bool.true_and]
      rw [foldlM_removeNoWeightNode_clear nodes _ (fun y hy => hne y (List.mem_cons_of_mem _ hy))
        fun y hy p hp => ?_]
      · have hall : (s.allNodes.erase x) \ nodes.toFinset = s.allNodes \ insert x nodes.toFinset := by
          ext y
          simp only [Finset.mem_sdiff, Finset.mem_erase, Finset.mem_insert]
          tauto
        simp only [List.flatMap_cons, eraseAll, List.foldl_append, List.toFinset_cons, hall]
      · rw [lookup_eraseAll]
        split_ifs
        · exact .inr rfl
        · exact hs y (List.mem_cons_of_mem _ hy) p hp
    · simp [hcx]

end Hashring
