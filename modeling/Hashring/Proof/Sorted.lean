import Hashring.Spec.Run
import Hashring.Spec.Search

/-!
# `sortedKeys` indexes `nodeByKey`

The representation invariant `RepInv`: `sortedKeys` is strictly ascending and lists exactly the
positions of `nodeByKey`. Every public operation ends in `updateSortedNodes` or
`RemoveAllNodes`, and both establish it whatever the state before, so it holds in every
reachable state, weighted or not (`reachable_sortedKeys`). The index the lookups hand to
`getNodeByHashKeyIndex` is then in range.
-/

namespace Hashring

variable {Node : Type}

/-- The representation invariant. -/
structure RepInv (s : HashRing Node) : Prop where
  sorted : s.sortedKeys.Sorted (· < ·)
  mem_iff : ∀ p, p ∈ s.sortedKeys ↔ p ∈ s.nodeByKey

theorem updateSortedNodes_repInv (s : HashRing Node) : RepInv (updateSortedNodes s) :=
  ⟨Finset.sort_sorted_lt _, fun p => by simp [updateSortedNodes, Finmap.mem_keys]⟩

/-- Under the invariant, rebuilding `sortedKeys` changes nothing. -/
theorem RepInv.updateSortedNodes_eq {s : HashRing Node} (h : RepInv s) : updateSortedNodes s = s := by
  obtain ⟨sk, t, a⟩ := s
  simp only [updateSortedNodes, HashRing.mk.injEq, and_true]
  refine List.eq_of_perm_of_sorted ?_ (Finset.sort_sorted _ _) (h.sorted.imp le_of_lt)
  rw [List.perm_ext_iff_of_nodup (Finset.sort_nodup _ _) h.sorted.nodup]
  intro p
  rw [Finset.mem_sort, Finmap.mem_keys, h.mem_iff]

theorem updateSortedNodes_nodeByKey (s : HashRing Node) :
    (updateSortedNodes s).nodeByKey = s.nodeByKey := rfl

theorem updateSortedNodes_allNodes (s : HashRing Node) :
    (updateSortedNodes s).allNodes = s.allNodes := rfl

/-- Under the invariant a state is determined by its table and its members. -/
theorem RepInv.ext {s s' : HashRing Node} (h : RepInv s) (h' : RepInv s')
    (ht : s.nodeByKey = s'.nodeByKey) (ha : s.allNodes = s'.allNodes) : s = s' := by
  rw [← h.updateSortedNodes_eq, ← h'.updateSortedNodes_eq]
  obtain ⟨_, t, a⟩ := s
  obtain ⟨_, t', a'⟩ := s'
  cases ht
  cases ha
  rfl

theorem empty_repInv : RepInv (HashRing.empty : HashRing Node) :=
  ⟨List.sorted_nil, fun p => by simp [HashRing.empty, Finmap.not_mem_empty]⟩

/-- Under the invariant, `sortedKeys` has one entry per position of `nodeByKey`. -/
theorem RepInv.length_eq {s : HashRing Node} (h : RepInv s) :
    s.sortedKeys.length = s.nodeByKey.keys.card := by
  rw [← List.toFinset_card_of_nodup h.sorted.nodup]
  congr 1
  ext p
  simp [h.mem_iff, Finmap.mem_keys]

theorem RepInv.length_pos {s : HashRing Node} (h : RepInv s) (hne : s.nodeByKey ≠ ∅) : 0 < s.sortedKeys.length := by
  obtain ⟨p, hp⟩ : ∃ p, p ∈ s.nodeByKey := by
    by_contra hno
    push_neg at hno
    exact hne (Finmap.ext_lookup fun p => by simp [Finmap.lookup_eq_none.2 (hno p)])
  exact List.length_pos_of_mem ((h.mem_iff p).2 hp)

/-- The index `firstKeyIndex` picks is in range whenever `sortedKeys` is not empty: a found
index is below the length, and the fallback is `0`. -/
theorem firstKeyIndex_lt {s : HashRing Node} (hash : UInt32) (h : 0 < s.sortedKeys.length) :
    firstKeyIndex s hash < s.sortedKeys.length := by
  dsimp only [firstKeyIndex]
  split
  · rename_i hf
    simp only [tailSearch, binarySearchFunc, Bool.and_eq_true, decide_eq_true_eq] at hf
    exact hf.1
  · exact h

/-- A result that went through `updateSortedNodes` last. -/
theorem repInv_of_map {α : Type} {x : Option α} {f : α → HashRing Node} {s : HashRing Node}
    (h : x.map (fun a => updateSortedNodes (f a)) = some s) : RepInv s := by
  obtain ⟨a, -, rfl⟩ := Option.map_eq_some'.1 h
  exact updateSortedNodes_repInv _

variable [DecidableEq Node] (c : Config Node) {fuel : Nat} {enum : Finset Node → List Node} {s s' : HashRing Node}

theorem addNoWeightNodes_repInv {nodes : List Node} (h : addNoWeightNodes c fuel s nodes = some s') :
    RepInv s' :=
  repInv_of_map (f := id) h

theorem removeNoWeightNodes_repInv {nodes : List Node}
    (h : removeNoWeightNodes c fuel s nodes = some s') : RepInv s' :=
  repInv_of_map h

theorem setWeightNodes_repInv {nodes : List Node} (h : setWeightNodes c fuel s nodes = some s') :
    RepInv s' :=
  repInv_of_map (f := id) h

theorem setNoWeightNodes_repInv {nodes : List Node}
    (h : setNoWeightNodes c fuel enum s nodes = some s') : RepInv s' := by
  simp only [setNoWeightNodes] at h
  split at h <;>
  · obtain ⟨_, -, h⟩ := Option.bind_eq_some.1 h
    exact addNoWeightNodes_repInv c h

/-- Every public call leaves the invariant, whatever the state it started from. -/
theorem Op.run_repInv {op : Op Node} (h : op.run c fuel enum s = some s') : RepInv s' := by
  cases op with
  | addNodes nodes =>
    simp only [Op.run, Hashring.addNodes, addWeightNodes] at h
    split at h
    · exact setWeightNodes_repInv c h
    · exact addNoWeightNodes_repInv c h
  | setNodes nodes =>
    simp only [Op.run, Hashring.setNodes] at h
    split at h
    · exact setWeightNodes_repInv c h
    · exact setNoWeightNodes_repInv c h
  | removeNodes nodes =>
    simp only [Op.run, Hashring.removeNodes, removeWeightNodes] at h
    split at h
    · exact setWeightNodes_repInv c h
    · exact removeNoWeightNodes_repInv c h
  | removeAllNodes =>
    cases h
    exact empty_repInv

theorem Reachable.repInv (h : Reachable c s) : RepInv s := by
  induction h with
  | refl => exact empty_repInv
  | tail _ hs _ =>
    obtain ⟨op, fuel, enum, -, hr⟩ := hs
    exact Op.run_repInv c hr

/-- **`sortedKeys` indexes `nodeByKey` in every reachable state**, in either mode: it is
strictly ascending, holds exactly the positions of `nodeByKey` (so it is as long as
`nodeByKey`), the index that `Get` and `GetSince` resolve a hash to is in range when the table
is not empty, and every index in range names a position of the table. -/
theorem reachable_sortedKeys (h : Reachable c s) :
    s.sortedKeys.Sorted (· < ·) ∧ (∀ p, p ∈ s.sortedKeys ↔ p ∈ s.nodeByKey) ∧
      s.sortedKeys.length = s.nodeByKey.keys.card ∧
      (∀ hash, s.nodeByKey ≠ ∅ → firstKeyIndex s hash < s.sortedKeys.length) ∧
      ∀ (i : Nat) (hi : i < s.sortedKeys.length), s.sortedKeys[i] ∈ s.nodeByKey := by
  have hr := h.repInv
  exact ⟨hr.sorted, hr.mem_iff, hr.length_eq, fun hash hne => firstKeyIndex_lt hash (hr.length_pos hne),
    fun i hi => (hr.mem_iff _).1 (List.getElem_mem hi)⟩

theorem reachable_sortedKeys_plainRing :
    plainRing.sortedKeys.Sorted (· < ·) ∧
      (∀ p, p ∈ plainRing.sortedKeys ↔ p ∈ plainRing.nodeByKey) ∧
      plainRing.sortedKeys.length = plainRing.nodeByKey.keys.card ∧
      (∀ hash, plainRing.nodeByKey ≠ ∅ → firstKeyIndex plainRing hash < plainRing.sortedKeys.length) ∧
      ∀ (i : Nat) (hi : i < plainRing.sortedKeys.length), plainRing.sortedKeys[i] ∈ plainRing.nodeByKey :=
  reachable_sortedKeys (Config.plain 2)
    (.single ⟨.addNodes [1, 2], 4, ascending, isMapOrder_ascending, rfl⟩)

end Hashring
