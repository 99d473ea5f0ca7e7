import Hashring.Proof.Churn
import Hashring.Proof.Members

/-!
# `SetNodes` again, and what it moves

`SetNodes(ns)` leaves members with exactly the keys of `ns` (`setNodes_nodeKeys`). Called again
with the same list it finds nothing to remove and nothing to add, so it returns the ring it is
given (`setNodes_idempotent`), in either mode, for every non-empty `ns`. An empty `ns` is
excluded: the first call may leave positions of removed nodes behind (`Proof/Removal.lean`),
which the second, finding no member, clears.

On its member-by-member branch `SetNodes` is a removal followed by an addition, and each moves a
key only from a node it removes or to a node it adds (`get_of_shrinks`, `get_of_grows`). So a key
whose node is kept stays with it or moves to a node `SetNodes` added (`setNodes_churn`). The other
branch clears the ring first, and there a kept node can lose keys (`setNodes_moves_kept_node`).
-/

namespace Hashring

variable {Node : Type} [DecidableEq Node] (c : Config Node) {fuel : Nat}
  {enum enum' : Finset Node → List Node} {s s₁ s' : HashRing Node} {ns : List Node}

theorem removeNoWeightNodes_nil (hr : RepInv s) : removeNoWeightNodes c fuel s [] = some s := by
  simp [removeNoWeightNodes, hr.updateSortedNodes_eq]

theorem addNoWeightNodes_nil (hr : RepInv s) : addNoWeightNodes c fuel s [] = some s := by
  simp [addNoWeightNodes, hr.updateSortedNodes_eq]

/-- On a ring whose members have exactly the keys of a non-empty `ns`, the unweighted
`SetNodes(ns)` finds nothing to remove and nothing to add. -/
theorem setNoWeightNodes_of_nodeKeys (he : IsMapOrder enum) (hr : RepInv s) (hns : ns ≠ [])
    (hk : s.allNodes.image c.nodeKey = ns.toFinset.image c.nodeKey) :
    setNoWeightNodes c fuel enum s ns = some s := by
  have hsame : ∀ k ∈ s.allNodes, ∃ v ∈ ns, c.isSameNode k v := fun k hkS => by
    obtain ⟨v, hv, hvk⟩ := Finset.mem_image.1 (hk ▸ Finset.mem_image_of_mem c.nodeKey hkS)
    exact ⟨v, List.mem_toFinset.1 hv, (c.isSameNode_iff).2 hvk.symm⟩
  have hrem : ((enum s.allNodes).filter fun k => !ns.any (c.isSameNode k)) = [] := by
    refine List.filter_eq_nil_iff.2 fun k hk' => ?_
    obtain ⟨v, hv, hkv⟩ := hsame k (he.mem_iff.1 hk')
    simpa using ⟨v, hv, hkv⟩
  have hadd : (ns.filter fun k => !decide (∃ v ∈ s.allNodes, c.isSameNode k v)) = [] := by
    refine List.filter_eq_nil_iff.2 fun k hk' => ?_
    obtain ⟨m, hm, hmk⟩ := Finset.mem_image.1
      (hk.symm ▸ Finset.mem_image_of_mem c.nodeKey (List.mem_toFinset.2 hk'))
    simpa using ⟨m, hm, (c.isSameNode_iff).2 hmk.symm⟩
  have hlen : ([] : List Node).length ≠ ns.length := fun h0 => hns (List.length_eq_zero.1 h0.symm)
  simp only [setNoWeightNodes, hrem, hlen, if_false, removeNoWeightNodes_nil c hr, Option.bind_eq_bind,
    Option.some_bind, hadd, addNoWeightNodes_nil c hr]

/-- **`SetNodes` twice is `SetNodes` once.** From every state, in either mode, for every non-empty
`ns`: calling `SetNodes(ns)` on the ring `SetNodes(ns)` returned, with the same fuel and any map
order, returns that ring unchanged. -/
theorem setNodes_idempotent (he : IsMapOrder enum) (he' : IsMapOrder enum') (hns : ns ≠ [])
    (h : setNodes c fuel enum s ns = some s₁) : setNodes c fuel enum' s₁ ns = some s₁ := by
  have hk := setNodes_nodeKeys c he h
  simp only [setNodes] at h ⊢
  split at h
  · -- The weighted call rebuilds from an empty ring, whatever ring it is given.
    rw [if_pos ‹_›]
    exact h
  · rw [if_neg ‹_›]
    exact setNoWeightNodes_of_nodeKeys c he' (setNoWeightNodes_repInv c h) hns hk

theorem setNodes_idempotent_plainRing :
    setNodes (Config.plain 2) 4 descending
        ((setNodes (Config.plain 2) 4 ascending plainRing [1, 3]).getD .empty) [1, 3] =
      some ((setNodes (Config.plain 2) 4 ascending plainRing [1, 3]).getD .empty) :=
  setNodes_idempotent (Config.plain 2) isMapOrder_ascending isMapOrder_descending
    (List.cons_ne_nil _ _) (show setNodes (Config.plain 2) 4 ascending plainRing [1, 3] = some _ from rfl)

/-- **A kept node keeps its keys or hands them to an added node.** In unweighted mode, from every
state satisfying the representation invariant, when `SetNodes(ns)` removes members one by one: a
key `Get` resolved to a node the same as an element of `ns` resolves to that node afterwards, or
to an element of `ns` the same as no node that was a member. -/
theorem setNodes_churn [Inhabited Node] (hw : c.isWeighted = false) (hr : RepInv s)
    (hbranch : ((enum s.allNodes).filter fun k => !ns.any (c.isSameNode k)).length ≠ ns.length)
    (h : setNodes c fuel enum s ns = some s') {key : String} {K : Node}
    (hget : get c s key = some (K, true)) (hkept : ∃ v ∈ ns, c.isSameNode K v) :
    get c s' key = some (K, true) ∨
      ∃ n ∈ ns, (∀ m ∈ s.allNodes, c.isSameNode n m = false) ∧ get c s' key = some (n, true) := by
  simp only [setNodes, hw, Bool.false_eq_true, if_false, setNoWeightNodes, hbranch] at h
  obtain ⟨s₁, h₁, h⟩ := Option.bind_eq_some.1 h
  obtain ⟨hsh, hall⟩ := removeNoWeightNodes_spec c h₁
  have hr₁ := removeNoWeightNodes_repInv c h₁
  -- The removal keeps the key with `K`; the addition keeps it there or moves it to a node added.
  have hmid := get_of_shrinks c hr hr₁ hsh hget (.inl (not_sameAs_removed c hkept))
  rcases get_of_grows c hr₁ (addNoWeightNodes_repInv c h) (addNoWeightNodes_spec c h).1 key with
    e | ⟨n, hn, e⟩
  · exact .inl (e.trans hmid)
  · simp only [List.mem_filter, Bool.not_eq_true', decide_eq_false_iff_not, not_exists, not_and] at hn
    refine .inr ⟨n, hn.1, fun m hm => Bool.eq_false_iff.2 fun hnm => ?_, e⟩
    -- A member the same as `n` is the same as an element of `ns`, so it was kept.
    have hkeep : ¬∃ k ∈ (enum s.allNodes).filter fun k => !ns.any (c.isSameNode k),
        c.isSameNode m k := not_sameAs_removed c ⟨n, hn.1, c.isSameNode_symm hnm⟩
    refine hn.2 m ?_ hnm
    rw [hall, Finset.mem_sdiff, List.mem_toFinset]
    exact ⟨hm, fun hmT => hkeep ⟨m, hmT, c.isSameNode_self m⟩⟩

theorem setNodes_churn_plainRing :
    get (Config.plain 2) ((setNodes (Config.plain 2) 4 ascending plainRing [1, 3]).getD .empty) "k" =
        some (1, true) ∨
      ∃ n ∈ [1, 3], (∀ m ∈ plainRing.allNodes, (Config.plain 2).isSameNode n m = false) ∧
        get (Config.plain 2) ((setNodes (Config.plain 2) 4 ascending plainRing [1, 3]).getD .empty) "k" =
          some (n, true) :=
  setNodes_churn (Config.plain 2) rfl (updateSortedNodes_repInv _) (by decide)
    (show setNodes (Config.plain 2) 4 ascending plainRing [1, 3] = some _ from rfl)
    (get_of_isSuccessor (Config.plain 2) (updateSortedNodes_repInv _) (p := 100)
      (by unfold IsSuccessor; decide) (by decide))
    ⟨1, by decide, by decide⟩

end Hashring
