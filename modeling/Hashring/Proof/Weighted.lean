import Hashring.Proof.Members
import Hashring.Proof.Termination

/-!
# Weighted placement

`setWeightNodes` places its nodes one after another with `addNodeWithoutSort`, in the order it
is given: `AddNodes` and `RemoveNodes` hand it `getAllNodes()`, in Go's map order. The first
node placed wins a position two nodes fetch, so the ring depends on that order
(`placeNodes_order_differs`). It does not when different nodes fetch disjoint positions
(`placement_order_free`): each node's loop reads and writes only the positions it fetches
(`addLoop_outside_fetched`, `addLoop_congr`), so two such placements commute
(`addNodeWithoutSort_comm`), placing one node leaves the positions the others fetch as they were
(`FetchedApart.tail`), and a permutation of the nodes gives the same ring (`placeNodes_perm`).
-/

namespace Hashring

variable {Node : Type} (c : Config Node)

/-- `p` is a position `node` derives at some replica index. -/
def Derived (node : Node) (p : UInt32) : Prop := ∃ i, p ∈ c.getIterateHashKeyForNode node i

/-- Two tables with the same entry at every position satisfying `D`. -/
def AgreeOn (D : UInt32 → Prop) (t₁ t₂ : Table Node) : Prop := ∀ p, D p → t₁.lookup p = t₂.lookup p

section Frame

variable {D : UInt32 → Prop} {a : Node} {i : Nat}

theorem placeAt_eq_some {pos : UInt32} {t t' : Table Node} (h : placeAt a pos t = some t') :
    t' = t.insert pos a := by
  simp only [placeAt] at h; split at h <;> simp_all

/-- A scan over positions in `D` leaves every other position as it was. -/
theorem scan_placeAt_outside :
    ∀ {j positions numReps} {t : Table Node}, (∀ p ∈ positions, D p) →
      ∀ p, ¬D p → (scan (placeAt a) i j positions numReps t).2.lookup p = t.lookup p
  | _, [], _, _, _, _, _ => rfl
  | j, pos :: positions, numReps, t, hD, p, hp => by
    have hD' : ∀ q ∈ positions, D q := fun q hq => hD q (List.mem_cons_of_mem _ hq)
    simp only [scan]
    split
    · rfl
    · split
      · exact scan_placeAt_outside hD' p hp
      · rename_i h
        rw [scan_placeAt_outside hD' p hp, placeAt_eq_some h,
          Finmap.lookup_insert_of_ne _ fun (he : p = pos) => hp (he ▸ hD pos (List.mem_cons_self _ _))]

theorem AgreeOn.mem_iff {t₁ t₂ : Table Node} (h : AgreeOn D t₁ t₂) {p : UInt32} (hp : D p) :
    p ∈ t₁ ↔ p ∈ t₂ := by
  rw [← Finmap.lookup_isSome, ← Finmap.lookup_isSome, h p hp]

theorem AgreeOn.insert {t₁ t₂ : Table Node} (h : AgreeOn D t₁ t₂) (pos : UInt32) (a : Node) :
    AgreeOn D (t₁.insert pos a) (t₂.insert pos a) := fun p hp => by
  by_cases hpp : p = pos
  · subst hpp; rw [Finmap.lookup_insert, Finmap.lookup_insert]
  · rw [Finmap.lookup_insert_of_ne _ hpp, Finmap.lookup_insert_of_ne _ hpp, h p hp]

/-- A scan over positions in `D` takes the same steps on two tables that agree on `D`. -/
theorem scan_placeAt_congr :
    ∀ {j positions numReps} {t₁ t₂ : Table Node}, (∀ p ∈ positions, D p) → AgreeOn D t₁ t₂ →
      (scan (placeAt a) i j positions numReps t₁).1 = (scan (placeAt a) i j positions numReps t₂).1 ∧
        AgreeOn D (scan (placeAt a) i j positions numReps t₁).2
          (scan (placeAt a) i j positions numReps t₂).2
  | _, [], _, _, _, _, hag => ⟨rfl, hag⟩
  | j, pos :: positions, numReps, t₁, t₂, hD, hag => by
    have hD' : ∀ q ∈ positions, D q := fun q hq => hD q (List.mem_cons_of_mem _ hq)
    have hmem := hag.mem_iff (hD pos (List.mem_cons_self _ _))
    simp only [scan]
    split
    · exact ⟨rfl, hag⟩
    · by_cases h₁ : pos ∈ t₁
      · simp only [placeAt, h₁, hmem.1 h₁, if_true]
        exact scan_placeAt_congr hD' hag
      · simp only [placeAt, h₁, mt hmem.2 h₁, if_false]
        exact scan_placeAt_congr hD' (hag.insert pos a)

/-- **A node's placement loop changes only positions it derives.** -/
theorem addLoop_outside :
    ∀ {fuel i numReps} {t t' : Table Node}, addLoop c a fuel i numReps t = some t' →
      ∀ p, ¬Derived c a p → t'.lookup p = t.lookup p
  | 0, _, _, _, _, h => by cases h
  | fuel + 1, i, numReps, t, t', h => by
    intro p hp
    simp only [addLoop] at h
    split at h
    · split at h
      · cases h; rfl
      · rw [addLoop_outside h p hp]
        exact scan_placeAt_outside (fun q hq => ⟨i, hq⟩) p hp
    · cases h; rfl

/-- A placement loop changes only the positions it fetches. -/
theorem addLoop_outside_fetched :
    ∀ {fuel i numReps} {t t' : Table Node}, addLoop c a fuel i numReps t = some t' →
      ∀ p ∉ addLoopPositions c a fuel i numReps t, t'.lookup p = t.lookup p
  | 0, _, _, _, _, h, _, _ => by cases h
  | fuel + 1, i, numReps, t, t', h, p, hp => by
    by_cases hi : i < numReps
    · by_cases h0 : (c.getIterateHashKeyForNode a i).length = 0
      · simp only [addLoop, hi, h0, if_true] at h
        cases h
        rfl
      · simp only [addLoop, addLoopPositions, hi, h0, if_true, if_false, List.mem_append,
          not_or] at h hp
        rw [addLoop_outside_fetched h p hp.2,
          scan_placeAt_outside (D := (· ∈ c.getIterateHashKeyForNode a i)) (fun _ => id) p hp.1]
    · simp only [addLoop, hi, if_false] at h
      cases h
      rfl

/-- **A node's placement loop reads only the positions it fetches**: on a table that agrees with
`t₁` on a set `D` holding every position the loop fetches from `t₁`, it fetches the same
positions, and it returns on both tables or on neither, with results that agree on `D`. -/
theorem addLoop_congr :
    ∀ {fuel i numReps} {t₁ t₂ : Table Node},
      (∀ p ∈ addLoopPositions c a fuel i numReps t₁, D p) → AgreeOn D t₁ t₂ →
      addLoopPositions c a fuel i numReps t₂ = addLoopPositions c a fuel i numReps t₁ ∧
        Option.Rel (AgreeOn D) (addLoop c a fuel i numReps t₁) (addLoop c a fuel i numReps t₂)
  | 0, _, _, _, _, _, _ => ⟨rfl, .none⟩
  | fuel + 1, i, numReps, t₁, t₂, hD, hag => by
    by_cases hi : i < numReps
    · by_cases h0 : (c.getIterateHashKeyForNode a i).length = 0
      · simp only [addLoop, addLoopPositions, hi, h0, if_true, true_and]
        exact .some hag
      · simp only [addLoop, addLoopPositions, hi, h0, if_true, if_false, List.mem_append] at hD ⊢
        obtain ⟨hR, hag'⟩ := scan_placeAt_congr (j := 0) (fun q hq => hD q (.inl hq)) hag
        obtain ⟨hpos, hrel⟩ := addLoop_congr (fun q hq => hD q (.inr hq)) hag'
        rw [← hR, hpos]
        exact ⟨rfl, hrel⟩
    · simp only [addLoop, addLoopPositions, hi, if_false, true_and]
      exact .some hag

theorem eq_none_of_rel_none {R : α → β → Prop} {o : Option β} (h : Option.Rel R none o) :
    o = none := by
  cases h; rfl

theorem exists_of_some_rel {R : α → β → Prop} {a : α} {o : Option β} (h : Option.Rel R (some a) o) :
    ∃ b, o = some b ∧ R a b := by
  cases h; exact ⟨_, rfl, ‹_›⟩

end Frame

section Commute

variable {a b : Node} (fuel : Nat) {m n : Nat}

/-- A loop for `a` runs alike after a loop for `b` that fetches none of the positions `a`'s loop
fetches: it fetches the same positions, and its results agree there. -/
theorem addLoop_congr_after {fuel' i' n' : Nat} {t t' : Table Node}
    (h : addLoop c b fuel' i' n' t = some t')
    (hab : ∀ p ∈ addLoopPositions c a fuel 0 m t, p ∉ addLoopPositions c b fuel' i' n' t) :
    addLoopPositions c a fuel 0 m t' = addLoopPositions c a fuel 0 m t ∧
      Option.Rel (AgreeOn (· ∈ addLoopPositions c a fuel 0 m t)) (addLoop c a fuel 0 m t)
        (addLoop c a fuel 0 m t') :=
  addLoop_congr c (fun _ => id) fun p hp => (addLoop_outside_fetched c h p (hab p hp)).symm

/-- **Two placement loops that fetch disjoint positions commute.** -/
theorem addLoop_comm {t : Table Node}
    (hab : ∀ p ∈ addLoopPositions c a fuel 0 m t, p ∉ addLoopPositions c b fuel 0 n t) :
    (addLoop c a fuel 0 m t).bind (addLoop c b fuel 0 n) =
      (addLoop c b fuel 0 n t).bind (addLoop c a fuel 0 m) := by
  have hba : ∀ p ∈ addLoopPositions c b fuel 0 n t, p ∉ addLoopPositions c a fuel 0 m t :=
    fun p hb ha => hab p ha hb
  rcases hA : addLoop c a fuel 0 m t with _ | t₁ <;> rcases hB : addLoop c b fuel 0 n t with _ | t₂
  · rfl
  · have h := (addLoop_congr_after c fuel hB hab).2
    rw [hA] at h
    simp [eq_none_of_rel_none h]
  · have h := (addLoop_congr_after c fuel hA hba).2
    rw [hB] at h
    simp [eq_none_of_rel_none h]
  · obtain ⟨hF₁, h₁⟩ := addLoop_congr_after c fuel hA hba
    obtain ⟨hF₂, h₂⟩ := addLoop_congr_after c fuel hB hab
    rw [hB] at h₁
    rw [hA] at h₂
    obtain ⟨t₁₂, h₁₂, ag₁₂⟩ := exists_of_some_rel h₁
    obtain ⟨t₂₁, h₂₁, ag₂₁⟩ := exists_of_some_rel h₂
    have out₁₂ := addLoop_outside_fetched c h₁₂
    have out₂₁ := addLoop_outside_fetched c h₂₁
    rw [hF₁] at out₁₂
    rw [hF₂] at out₂₁
    simp only [Option.some_bind, h₁₂, h₂₁, Option.some.injEq]
    refine Finmap.ext_lookup fun p => ?_
    by_cases hpa : p ∈ addLoopPositions c a fuel 0 m t
    · rw [out₁₂ p (hab p hpa), ag₂₁ p hpa]
    by_cases hpb : p ∈ addLoopPositions c b fuel 0 n t
    · rw [out₂₁ p (hba p hpb), ag₁₂ p hpb]
    rw [out₁₂ p hpb, out₂₁ p hpa, addLoop_outside_fetched c hA p hpa,
      addLoop_outside_fetched c hB p hpb]

variable [DecidableEq Node]

/-- Two `addNodeWithoutSort` calls whose loops fetch disjoint positions commute. -/
theorem addNodeWithoutSort_comm (s : HashRing Node)
    (hab : ∀ p ∈ addLoopPositions c a fuel 0 m s.nodeByKey,
      p ∉ addLoopPositions c b fuel 0 n s.nodeByKey) :
    (addNodeWithoutSort c fuel s a m).bind (addNodeWithoutSort c fuel · b n) =
      (addNodeWithoutSort c fuel s b n).bind (addNodeWithoutSort c fuel · a m) := by
  have h := congrArg (Option.map fun t =>
    ({ s with nodeByKey := t, allNodes := insert b (insert a s.allNodes) } : HashRing Node))
    (addLoop_comm c fuel hab)
  simp only [addNodeWithoutSort, Option.map_bind, Option.bind_map, Function.comp_def] at h ⊢
  rwa [Finset.Insert.comm a b]

end Commute

section Order

theorem IsMapOrder.perm {enum enum' : Finset Node → List Node} (he : IsMapOrder enum)
    (he' : IsMapOrder enum') (S : Finset Node) : (enum S).Perm (enum' S) :=
  Multiset.coe_eq_coe.1 ((he S).trans (he' S).symm)

/-- The positions that `k` placements of `a` one after another, each with target `m`, fetch
from the table `t`: each placement's loop, from the table the one before it left. -/
def fetchedRun (a : Node) (m fuel : Nat) : Nat → Table Node → List UInt32
  | 0, _ => []
  | k + 1, t => addLoopPositions c a fuel 0 m t ++
      ((addLoop c a fuel 0 m t).map (fetchedRun a m fuel k)).getD []

variable {a : Node} {m fuel : Nat}

theorem fetchedRun_succ_of_some {k : Nat} {t t' : Table Node} (h : addLoop c a fuel 0 m t = some t') :
    fetchedRun c a m fuel (k + 1) t = addLoopPositions c a fuel 0 m t ++ fetchedRun c a m fuel k t' := by
  simp only [fetchedRun, h, Option.map_some', Option.getD_some]

theorem mem_fetchedRun {k : Nat} (hk : k ≠ 0) {t : Table Node} {p : UInt32}
    (hp : p ∈ addLoopPositions c a fuel 0 m t) : p ∈ fetchedRun c a m fuel k t := by
  obtain ⟨k, rfl⟩ := Nat.exists_eq_succ_of_ne_zero hk
  exact List.mem_append_left _ hp

/-- Placements with target `0` fetch nothing: the loop's bound is already reached. -/
theorem fetchedRun_zero : ∀ {k} {t : Table Node}, fetchedRun c a 0 fuel k t = []
  | 0, _ => rfl
  | k + 1, t => by
    have hpos : addLoopPositions c a fuel 0 0 t = [] := by cases fuel <;> rfl
    rw [fetchedRun, hpos, List.nil_append]
    cases addLoop c a fuel 0 0 t with
    | none => rfl
    | some t' => exact fetchedRun_zero

/-- A run of placements fetches the same positions from two tables that agree on every position
it fetches from the first. -/
theorem fetchedRun_congr {D : UInt32 → Prop} :
    ∀ {k} {t₁ t₂ : Table Node}, (∀ p ∈ fetchedRun c a m fuel k t₁, D p) → AgreeOn D t₁ t₂ →
      fetchedRun c a m fuel k t₂ = fetchedRun c a m fuel k t₁
  | 0, _, _, _, _ => rfl
  | k + 1, t₁, t₂, hD, hag => by
    simp only [fetchedRun, List.mem_append] at hD ⊢
    obtain ⟨hpos, hrel⟩ := addLoop_congr c (fun p hp => hD p (.inl hp)) hag
    rw [hpos]
    generalize addLoop c a fuel 0 m t₁ = o₁ at hD hrel ⊢
    generalize addLoop c a fuel 0 m t₂ = o₂ at hrel ⊢
    cases hrel with
    | none => rfl
    | some hag' =>
      simp only [Option.map_some', Option.getD_some] at hD ⊢
      rw [fetchedRun_congr (fun p hp => hD p (.inr hp)) hag']

variable [DecidableEq Node]

/-- The `addNodeWithoutSort` calls of `setWeightNodes`, node after node, each with the target
`count node`. -/
def placeNodes (count : Node → Nat) (fuel : Nat) (s : HashRing Node) (nodes : List Node) :
    Option (HashRing Node) :=
  nodes.foldlM (fun s node => addNodeWithoutSort c fuel s node (count node)) s

/-- Different nodes of `ns` fetch disjoint positions from `t`, when each is placed, as many
times as it occurs in `ns`, one placement after another with the target `count`. -/
def FetchedApart (count : Node → Nat) (fuel : Nat) (t : Table Node) (ns : List Node) : Prop :=
  ∀ a ∈ ns, ∀ b ∈ ns, a ≠ b → ∀ p ∈ fetchedRun c a (count a) fuel (ns.count a) t,
    p ∉ fetchedRun c b (count b) fuel (ns.count b) t

instance FetchedApart.decidable (count : Node → Nat) (fuel : Nat) (t : Table Node)
    (ns : List Node) : Decidable (FetchedApart c count fuel t ns) :=
  inferInstanceAs (Decidable (∀ a ∈ ns, ∀ b ∈ ns, a ≠ b →
    ∀ p ∈ fetchedRun c a (count a) fuel (ns.count a) t,
      p ∉ fetchedRun c b (count b) fuel (ns.count b) t))

variable {count : Node → Nat} {t : Table Node}

theorem FetchedApart.perm {ns ns' : List Node} (hp : ns.Perm ns')
    (h : FetchedApart c count fuel t ns) : FetchedApart c count fuel t ns' := by
  intro a ha b hb hab
  rw [← hp.count_eq a, ← hp.count_eq b]
  exact h a (hp.mem_iff.2 ha) b (hp.mem_iff.2 hb) hab

/-- **The nodes after the first still fetch disjoint positions once the first is placed**: the
first node's loop changes only positions it fetches, which no other node fetches, so each other
node fetches what it did before; and the first node's later placements fetch part of what its
placements did. -/
theorem FetchedApart.tail {x : Node} {l : List Node} {t' : Table Node}
    (h : FetchedApart c count fuel t (x :: l)) (hx : addLoop c x fuel 0 (count x) t = some t') :
    FetchedApart c count fuel t' l := by
  have hsub : ∀ y ∈ l, ∀ p ∈ fetchedRun c y (count y) fuel (l.count y) t',
      p ∈ fetchedRun c y (count y) fuel ((x :: l).count y) t := by
    intro y hy p hp
    by_cases hyx : y = x
    · subst hyx
      rw [List.count_cons_self, fetchedRun_succ_of_some c hx]
      exact List.mem_append_right _ hp
    · rw [List.count_cons_of_ne hyx]
      have hagree : AgreeOn (· ∈ fetchedRun c y (count y) fuel (l.count y) t) t t' := fun q hq =>
        (addLoop_outside_fetched c hx q fun hqx => h x (List.mem_cons_self _ _) y
          (List.mem_cons_of_mem _ hy) (Ne.symm hyx) q
          (mem_fetchedRun c (List.count_pos_iff.2 (List.mem_cons_self _ _)).ne' hqx)
          (by rwa [List.count_cons_of_ne hyx])).symm
      rwa [← fetchedRun_congr c (fun _ => id) hagree]
  intro a ha b hb hab p hpa hpb
  exact h a (List.mem_cons_of_mem _ ha) b (List.mem_cons_of_mem _ hb) hab p (hsub a ha p hpa)
    (hsub b hb p hpb)

@[simp] theorem placeNodes_cons (s : HashRing Node) (a : Node) (ns : List Node) :
    placeNodes c count fuel s (a :: ns) =
      (addNodeWithoutSort c fuel s a (count a)).bind (placeNodes c count fuel · ns) := rfl

/-- **Placing a permutation of nodes that fetch disjoint positions gives the same ring.** -/
theorem placeNodes_perm {ns ns' : List Node} (hp : ns.Perm ns') :
    ∀ s, FetchedApart c count fuel s.nodeByKey ns →
      placeNodes c count fuel s ns = placeNodes c count fuel s ns' := by
  induction hp with
  | nil => exact fun _ _ => rfl
  | cons x _ ih =>
    intro s hF
    simp only [placeNodes_cons]
    cases hx : addNodeWithoutSort c fuel s x (count x) with
    | none => rfl
    | some s₁ =>
      obtain ⟨t₁, ht₁, rfl⟩ := Option.map_eq_some'.1 hx
      exact ih _ (hF.tail c ht₁)
  | swap x y l =>
    intro s hF
    by_cases hxy : y = x
    · rw [hxy]
    · have hpos : ∀ {z : Node}, z ∈ y :: x :: l → (y :: x :: l).count z ≠ 0 :=
        fun hz => (List.count_pos_iff.2 hz).ne'
      simp only [placeNodes_cons, ← Option.bind_assoc]
      rw [addNodeWithoutSort_comm c fuel s fun p hpy hpx => hF y (by simp) x (by simp) hxy p
        (mem_fetchedRun c (hpos (by simp)) hpy) (mem_fetchedRun c (hpos (by simp)) hpx)]
  | trans h₁ _ ih₁ ih₂ =>
    intro s hF
    rw [ih₁ s hF, ih₂ s (hF.perm c h₁)]

/-- `pointerPerServer` reads the node list only through its weight sum and its length. -/
theorem pointerPerServer_perm {ns ns' : List Node} (hp : ns.Perm ns') (node : Node) :
    pointerPerServer c ns node = pointerPerServer c ns' node := by
  simp only [pointerPerServer, (hp.map c.weight).sum_eq, hp.length_eq]

theorem setWeightNodes_perm {ns ns' : List Node} (hp : ns.Perm ns')
    (hF : FetchedApart c (fun node => (pointerPerServer c ns node).toNat) fuel ∅ ns)
    (s : HashRing Node) : setWeightNodes c fuel s ns = setWeightNodes c fuel s ns' := by
  have hc : (fun node => (pointerPerServer c ns node).toNat) =
      fun node => (pointerPerServer c ns' node).toNat :=
    funext fun node => by rw [pointerPerServer_perm c hp]
  change (placeNodes c _ fuel _ ns).map _ = (placeNodes c _ fuel _ ns').map _
  rw [← hc, placeNodes_perm c hp (removeAllNodes s) hF]

theorem foldl_erase_eq_sdiff :
    ∀ (ns : List Node) (S : Finset Node), ns.foldl (fun a node => a.erase node) S = S \ ns.toFinset
  | [], S => (Finset.sdiff_empty).symm
  | n :: ns, S => by
    rw [List.foldl_cons, foldl_erase_eq_sdiff ns, List.toFinset_cons]
    ext x
    simp only [Finset.mem_sdiff, Finset.mem_erase, Finset.mem_insert, not_or]
    tauto

end Order

end Hashring
