import Hashring.Proof.Sorted
import Hashring.Proof.Termination
import Hashring.Proof.Weighted

/-!
# Removal undoes an insertion that met no collision

`RemoveNodes` does not retrace `AddNodes` in general (`Proof/Removal.lean`): a collision raises
the bound of one loop and not of the other. When the positions the placement loop fetches are
pairwise distinct and all free, nothing collides, and the two loops walk the same calls up to the
same bound test:

* `scan_placeAt_free`: a placement scan over distinct free positions takes each of them up to the
  bound test and leaves the bound as it is.
* `scan_deleteAt_own`: a deletion scan over positions owned by its node, or free, erases each of
  them up to the bound test and leaves the bound as it is.
* `removeLoop_after_addLoop`: over any table that agrees with what the placement loop returned on
  the positions it fetched, the removal loop erases exactly those positions.
* `addNodes_removeNodes_restores`: so `RemoveNodes(n)` after such an `AddNodes(n)` returns to the
  state `AddNodes(n)` started from.
-/

namespace Hashring

variable {Node : Type} (c : Config Node) {a : Node} {i R : Nat}

/-- **A placement scan over distinct free positions** takes each of them up to the bound test
and leaves the bound as it is; the positions past the test are not read. -/
theorem scan_placeAt_free :
    ∀ (positions : List UInt32) (j : Nat) (t : Table Node),
      (positions.take (R + 1 - (i + j))).Nodup → (∀ p ∈ positions.take (R + 1 - (i + j)), p ∉ t) →
      (scan (placeAt a) i j positions R t).1 = R ∧
        ∀ p, (scan (placeAt a) i j positions R t).2.lookup p =
          if p ∈ positions.take (R + 1 - (i + j)) then some a else t.lookup p
  | [], _, _, _, _ => ⟨rfl, fun p => by rw [List.take_nil, if_neg (List.not_mem_nil p)]; rfl⟩
  | pos :: positions, j, t, hnd, hfree => by
    simp only [scan]
    split
    · exact ⟨rfl, fun p => by rw [show R + 1 - (i + j) = 0 by omega, List.take_zero,
        if_neg (List.not_mem_nil p)]⟩
    · have hm : R + 1 - (i + j) = R + 1 - (i + (j + 1)) + 1 := by omega
      rw [hm, List.take_succ_cons] at hnd hfree ⊢
      obtain ⟨hpos, hnd⟩ := List.nodup_cons.1 hnd
      have hfree' : ∀ p ∈ positions.take (R + 1 - (i + (j + 1))), p ∉ t.insert pos a :=
        fun p hp hpt => (Finmap.mem_insert.1 hpt).elim (fun he => hpos (he ▸ hp))
          (hfree p (List.mem_cons_of_mem _ hp))
      rw [placeAt, if_neg (hfree pos (List.mem_cons_self _ _))]
      obtain ⟨hR, hlook⟩ := scan_placeAt_free positions (j + 1) (t.insert pos a) hnd hfree'
      refine ⟨hR, fun p => ?_⟩
      rw [hlook]
      by_cases hp : p = pos
      · rw [hp, if_pos (List.mem_cons_self _ _), Finmap.lookup_insert, ite_self]
      · simp only [List.mem_cons, hp, false_or, Finmap.lookup_insert_of_ne _ hp]

/-- Deleting a position owned by the node itself, or free, succeeds and frees it. -/
theorem deleteAt_own {pos : UInt32} {u : Table Node} (h : u.lookup pos = some a ∨ u.lookup pos = none) :
    ∃ u', deleteAt c a pos u = some u' ∧ ∀ p, u'.lookup p = if p = pos then none else u.lookup p := by
  rcases h with h | h
  · refine ⟨u.erase pos, by simp [deleteAt, h], fun p => ?_⟩
    split_ifs with hp
    · rw [hp, Finmap.lookup_erase]
    · exact Finmap.lookup_erase_ne hp
  · refine ⟨u, by simp [deleteAt, h], fun p => ?_⟩
    split_ifs with hp
    · rw [hp, h]
    · rfl

/-- **A deletion scan over positions owned by its node, or free,** erases each of them up to the
bound test and leaves the bound as it is. -/
theorem scan_deleteAt_own :
    ∀ (positions : List UInt32) (j : Nat) (u : Table Node),
      (∀ p ∈ positions.take (R + 1 - (i + j)), u.lookup p = some a ∨ u.lookup p = none) →
      (scan (deleteAt c a) i j positions R u).1 = R ∧
        ∀ p, (scan (deleteAt c a) i j positions R u).2.lookup p =
          if p ∈ positions.take (R + 1 - (i + j)) then none else u.lookup p
  | [], _, _, _ => ⟨rfl, fun p => by rw [List.take_nil, if_neg (List.not_mem_nil p)]; rfl⟩
  | pos :: positions, j, u, hown => by
    simp only [scan]
    split
    · exact ⟨rfl, fun p => by rw [show R + 1 - (i + j) = 0 by omega, List.take_zero,
        if_neg (List.not_mem_nil p)]⟩
    · have hm : R + 1 - (i + j) = R + 1 - (i + (j + 1)) + 1 := by omega
      rw [hm, List.take_succ_cons] at hown ⊢
      obtain ⟨u', hdel, hu'⟩ := deleteAt_own c (hown pos (List.mem_cons_self _ _))
      obtain ⟨hR, hlook⟩ := scan_deleteAt_own positions (j + 1) u' fun p hp => by
        rw [hu']
        split_ifs
        · exact .inr rfl
        · exact hown p (List.mem_cons_of_mem _ hp)
      rw [hdel]
      refine ⟨hR, fun p => ?_⟩
      rw [hlook, hu']
      by_cases hp : p = pos
      · subst hp
        rw [if_pos rfl, if_pos (List.mem_cons_self _ _), ite_self]
      · simp only [List.mem_cons, hp, false_or, if_false]

/-- **The removal loop erases what the placement loop fetched**, when every call derives a
position and the fetched positions are distinct and were free: over any table that agrees with
the placement loop's result on those positions, the removal loop returns with its bound unchanged
and exactly those positions erased. -/
theorem removeLoop_after_addLoop (hne : ∀ i, c.getIterateHashKeyForNode a i ≠ []) :
    ∀ {fuel i R} {t t' u : Table Node}, addLoop c a fuel i R t = some t' →
      (addLoopPositions c a fuel i R t).Nodup → (∀ p ∈ addLoopPositions c a fuel i R t, p ∉ t) →
      (∀ p ∈ addLoopPositions c a fuel i R t, u.lookup p = t'.lookup p) →
      ∃ u', removeLoop c a fuel i R u = some (R, u') ∧
        ∀ p, u'.lookup p = if p ∈ addLoopPositions c a fuel i R t then none else u.lookup p
  | 0, _, _, _, _, _, h, _, _, _ => by cases h
  | fuel + 1, i, R, t, t', u, h, hnd, hfree, hu => by
    by_cases hi : i < R
    · have h0 : (c.getIterateHashKeyForNode a i).length ≠ 0 := mt List.length_eq_zero.1 (hne i)
      simp only [addLoop, addLoopPositions, removeLoop, hi, h0, if_true, if_false] at h hnd hfree hu ⊢
      generalize c.getIterateHashKeyForNode a i = ps at h hnd hfree hu ⊢
      obtain ⟨hndps, hndrest, hdisj⟩ := List.nodup_append.1 hnd
      clear hnd
      obtain ⟨hR, hlook⟩ := scan_placeAt_free (a := a) (i := i) (R := R) ps 0 t
        (hndps.sublist (List.take_sublist _ _)) fun p hp =>
          hfree p (List.mem_append_left _ (List.mem_of_mem_take hp))
      simp only [Nat.add_zero] at hlook
      generalize scan (placeAt a) i 0 ps R t = r at h hndrest hdisj hfree hu hR hlook
      obtain ⟨R₁, t₁⟩ := r
      dsimp only at h hndrest hdisj hfree hu hR hlook
      subst hR
      -- The removal scan finds each position the placement scan took owned by `a`.
      obtain ⟨hR', hlook'⟩ := scan_deleteAt_own c (a := a) (i := i) (R := R₁) ps 0 u fun p hp =>
        .inl ((hu p (List.mem_append_left _ (List.mem_of_mem_take hp))).trans
          ((addLoop_grows c h).lookup_eq (by rw [hlook]; exact if_pos hp)))
      generalize scan (deleteAt c a) i 0 ps R₁ u = r at hR' hlook' ⊢
      obtain ⟨R₂, u₁⟩ := r
      dsimp only at hR' hlook' ⊢
      subst hR'
      simp only [Nat.add_zero] at hlook'
      have hfree₁ : ∀ p ∈ addLoopPositions c a fuel (i + ps.length) R₂ t₁, p ∉ t₁ := fun p hp => by
        refine Finmap.lookup_eq_none.1 ?_
        rw [hlook, if_neg fun hv => hdisj (List.mem_of_mem_take hv) hp]
        exact Finmap.lookup_eq_none.2 (hfree p (List.mem_append_right _ hp))
      obtain ⟨u', hrem, hu'⟩ := removeLoop_after_addLoop hne h hndrest hfree₁ fun p hp => by
        rw [hlook', if_neg fun hv => hdisj (List.mem_of_mem_take hv) hp]
        exact hu p (List.mem_append_right _ hp)
      refine ⟨u', hrem, fun p => ?_⟩
      rw [hu' p, hlook' p]
      by_cases hr : p ∈ addLoopPositions c a fuel (i + ps.length) R₂ t₁
      · rw [if_pos hr, if_pos (List.mem_append_right _ hr)]
      by_cases hv : p ∈ ps.take (R₂ + 1 - i)
      · rw [if_neg hr, if_pos hv, if_pos (List.mem_append_left _ (List.mem_of_mem_take hv))]
      by_cases hp : p ∈ ps
      · -- Fetched after the bound test: the placement loop left it free.
        rw [if_neg hr, if_neg hv, if_pos (List.mem_append_left _ hp), hu p (List.mem_append_left _ hp),
          addLoop_outside_fetched c h p hr, hlook, if_neg hv]
        exact Finmap.lookup_eq_none.2 (hfree p (List.mem_append_left _ hp))
      · rw [if_neg hr, if_neg hv, if_neg fun h => (List.mem_append.1 h).elim hp hr]
    · simp only [addLoop, addLoopPositions, removeLoop, hi, if_false] at h ⊢
      exact ⟨u, rfl, fun p => by simp⟩

variable [DecidableEq Node] {fuel : Nat} {enum enum' : Finset Node → List Node}
  {s s₁ : HashRing Node}

/-- **`RemoveNodes` undoes an `AddNodes` that met no collision.** In unweighted mode, from every
state satisfying the representation invariant, for a node that is not a member and whose every
call derives a position: when the positions the placement loop of `AddNodes([n])` fetches are
pairwise distinct and all free, `RemoveNodes([n])` after it, with the same fuel, returns exactly
the state `AddNodes([n])` started from. -/
theorem addNodes_removeNodes_restores (hw : c.isWeighted = false) (hr : RepInv s) {n : Node}
    (hn : n ∉ s.allNodes) (hne : ∀ i, c.getIterateHashKeyForNode n i ≠ [])
    (hnd : (addLoopPositions c n fuel 0 c.numReps s.nodeByKey).Nodup)
    (hfree : ∀ p ∈ addLoopPositions c n fuel 0 c.numReps s.nodeByKey, p ∉ s.nodeByKey)
    (h : addNodes c fuel enum s [n] = some s₁) : removeNodes c fuel enum' s₁ [n] = some s := by
  simp only [addNodes, hw, Bool.false_eq_true, if_false, addNoWeightNodes] at h
  obtain ⟨s₂, h₂, rfl⟩ := Option.map_eq_some'.1 h
  simp only [List.foldlM_cons, List.foldlM_nil, Option.bind_eq_bind] at h₂
  obtain ⟨s₃, h₃, hs⟩ := Option.bind_eq_some.1 h₂
  cases hs
  obtain ⟨t', ht, rfl⟩ := Option.map_eq_some'.1 h₃
  obtain ⟨u', hrem, hu'⟩ := removeLoop_after_addLoop c hne ht hnd hfree fun _ _ => rfl
  have hu : u' = s.nodeByKey := Finmap.ext_lookup fun p => by
    rw [hu' p]
    split_ifs with hp
    · exact (Finmap.lookup_eq_none.2 (hfree p hp)).symm
    · exact addLoop_outside_fetched c ht p hp
  simp only [removeNodes, hw, Bool.false_eq_true, if_false, removeNoWeightNodes, List.foldlM_cons,
    List.foldlM_nil, Option.bind_eq_bind, removeNoWeightNode, updateSortedNodes_nodeByKey,
    updateSortedNodes_allNodes, hrem, Option.map_some', Option.some_bind]
  exact congrArg some ((updateSortedNodes_repInv _).ext hr hu (Finset.erase_insert hn))

theorem addNodes_removeNodes_restores_plainRing :
    removeNodes (Config.plain 2) 4 ascending
        ((addNodes (Config.plain 2) 4 ascending plainRing [3]).getD .empty) [3] = some plainRing :=
  addNodes_removeNodes_restores (Config.plain 2) rfl (updateSortedNodes_repInv _) (by decide)
    (fun _ => List.cons_ne_nil _ _) (by decide) (by decide)
    (show addNodes (Config.plain 2) 4 ascending plainRing [3] = some _ from rfl)

/-- **Removing strangers changes nothing.** In unweighted mode, from every state satisfying the
representation invariant, `RemoveNodes(nodes)` for nodes that are not members and are the same as
no owner of a position returns the state it was given. -/
theorem removeNodes_strangers (hw : c.isWeighted = false) (hr : RepInv s) {nodes : List Node}
    (hn : ∀ x ∈ nodes, x ∉ s.allNodes)
    (hown : ∀ m ∈ s.nodeByKey.entries.map Sigma.snd, ∀ x ∈ nodes, c.isSameNode m x = false)
    (h : removeNodes c fuel enum s nodes = some s₁) : s₁ = s := by
  simp only [removeNodes, hw, Bool.false_eq_true, if_false] at h
  obtain ⟨hsh, hall⟩ := removeNoWeightNodes_spec c h
  refine (removeNoWeightNodes_repInv c h).ext hr (Finmap.ext_lookup fun p => ?_) ?_
  · -- No position is owned by a node the same as one removed.
    rcases hsh p with e | ⟨-, m, hm, x, hx, hmx⟩
    · exact e
    · have hm' := Multiset.mem_map_of_mem Sigma.snd (Finmap.lookup_eq_some_iff.1 hm)
      rw [hown m hm' x hx] at hmx
      cases hmx
  · rw [hall]
    exact Finset.sdiff_eq_self_of_disjoint
      (Finset.disjoint_right.2 fun x hx => hn x (List.mem_toFinset.1 hx))

theorem removeNodes_strangers_plainRing :
    (removeNodes (Config.plain 2) 4 ascending plainRing [3, 4]).getD .empty = plainRing :=
  removeNodes_strangers (Config.plain 2) rfl (updateSortedNodes_repInv _) (by decide) (by decide)
    (show removeNodes (Config.plain 2) 4 ascending plainRing [3, 4] = some _ from rfl)

end Hashring
