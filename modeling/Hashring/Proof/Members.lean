import Hashring.Proof.Scan
import Hashring.Spec.Run

/-!
# Members and `SetNodes`

Which nodes `allNodes` holds after each membership operation, up to the replica-0 key
`isSameNode` compares.

* `addNodes_allNodes`: `AddNodes(ns)` leaves `allNodes ∪ ns`, in either mode.
* `setNodes_nodeKeys`, `setNodes_members_match`: `SetNodes(ns)` leaves members with exactly the
  keys of `ns`, in either mode and on both branches of the unweighted diff.
* `setNodes_moves_kept_node`: the unweighted diff clears the whole ring when the number of
  members to remove equals `len(nodes)`, so a kept member can be placed again elsewhere.
* `setNodes_keeps_positions`: when it removes members one by one instead, every kept member
  keeps exactly its positions.
* `addNodes_twice_differs`, `members_collapse_duplicates`: repeats are collapsed only in the
  member keys, not in the positions.
-/

namespace Hashring

variable {Node : Type} (c : Config Node)

/-- The replica-0 key that `isSameNode` compares. -/
def Config.nodeKey (n : Node) : String := c.nodeKeyFormatter n 0

theorem Config.isSameNode_iff {n m : Node} : c.isSameNode n m = true ↔ c.nodeKey n = c.nodeKey m := by
  simp [Config.isSameNode, Config.nodeKey]

@[simp] theorem Config.isSameNode_self (n : Node) : c.isSameNode n n = true :=
  (c.isSameNode_iff).2 rfl

theorem Config.isSameNode_symm {n m : Node} (h : c.isSameNode n m) : c.isSameNode m n :=
  (c.isSameNode_iff).2 ((c.isSameNode_iff).1 h).symm

theorem Config.isSameNode_trans {n m k : Node} (h₁ : c.isSameNode n m) (h₂ : c.isSameNode m k) :
    c.isSameNode n k :=
  (c.isSameNode_iff).2 (((c.isSameNode_iff).1 h₁).trans ((c.isSameNode_iff).1 h₂))

variable [DecidableEq Node]

theorem IsMapOrder.toFinset_eq {enum : Finset Node → List Node} (he : IsMapOrder enum)
    (S : Finset Node) : (enum S).toFinset = S := by
  ext x
  rw [List.mem_toFinset, ← Multiset.mem_coe, he S, Finset.mem_val]

theorem IsMapOrder.mem_iff {enum : Finset Node → List Node} (he : IsMapOrder enum)
    {S : Finset Node} {x : Node} : x ∈ enum S ↔ x ∈ S := by
  rw [← List.mem_toFinset, he.toFinset_eq]

variable {fuel : Nat} {enum : Finset Node → List Node} {s s' : HashRing Node}

/-- `AddNodes(ns)` adds `ns` to `allNodes`, in either mode. -/
theorem addNodes_allNodes (he : IsMapOrder enum) {ns : List Node}
    (h : addNodes c fuel enum s ns = some s') : s'.allNodes = s.allNodes ∪ ns.toFinset := by
  simp only [addNodes, addWeightNodes, getAllNodes] at h
  split at h
  · rw [(setWeightNodes_spec c h).2, List.toFinset_append, he.toFinset_eq]
  · exact (addNoWeightNodes_spec c h).2

/-- Adding to a set `M` of nodes, each the same as an element of `ns`, the elements of `ns`
not the same as a node of `M` gives a set with the keys of `ns`. -/
theorem nodeKeys_union_toAdd {M : Finset Node} {ns : List Node}
    (hM : ∀ m ∈ M, ∃ v ∈ ns, c.isSameNode m v) :
    (M ∪ (ns.filter fun k => !decide (∃ v ∈ M, c.isSameNode k v)).toFinset).image c.nodeKey =
      ns.toFinset.image c.nodeKey := by
  ext key
  simp only [Finset.mem_image, Finset.mem_union, List.mem_toFinset, List.mem_filter,
    Bool.not_eq_true', decide_eq_false_iff_not]
  constructor
  · rintro ⟨m, hm | ⟨hm, -⟩, rfl⟩
    · obtain ⟨v, hv, hmv⟩ := hM m hm
      exact ⟨v, hv, ((c.isSameNode_iff).1 hmv).symm⟩
    · exact ⟨m, hm, rfl⟩
  · rintro ⟨v, hv, rfl⟩
    by_cases hvM : ∃ m ∈ M, c.isSameNode v m
    · obtain ⟨m, hm, hvm⟩ := hvM
      exact ⟨m, .inl hm, ((c.isSameNode_iff).1 hvm).symm⟩
    · exact ⟨v, .inr ⟨hv, hvM⟩, rfl⟩

/-- `SetNodes(ns)` in unweighted mode leaves members with exactly the keys of `ns`: the
members it keeps are the same as elements of `ns`, and it adds the elements not the same as a
kept member. -/
theorem setNoWeightNodes_nodeKeys (he : IsMapOrder enum) {ns : List Node}
    (h : setNoWeightNodes c fuel enum s ns = some s') :
    s'.allNodes.image c.nodeKey = ns.toFinset.image c.nodeKey := by
  simp only [setNoWeightNodes] at h
  split at h
  · obtain ⟨s₁, h₁, h⟩ := Option.bind_eq_some.1 h
    cases h₁
    rw [(addNoWeightNodes_spec c h).2]
    exact nodeKeys_union_toAdd c fun m hm => absurd hm (Finset.not_mem_empty m)
  · obtain ⟨s₁, h₁, h⟩ := Option.bind_eq_some.1 h
    rw [(addNoWeightNodes_spec c h).2]
    refine nodeKeys_union_toAdd c fun m hm => ?_
    rw [(removeNoWeightNodes_spec c h₁).2, Finset.mem_sdiff, List.mem_toFinset] at hm
    have hmS : m ∈ enum s.allNodes := he.mem_iff.2 hm.1
    simpa [List.mem_filter, hmS] using hm.2

/-- **`SetNodes(ns)` leaves members with exactly the keys of `ns`**, in either mode. -/
theorem setNodes_nodeKeys (he : IsMapOrder enum) {ns : List Node}
    (h : setNodes c fuel enum s ns = some s') :
    s'.allNodes.image c.nodeKey = ns.toFinset.image c.nodeKey := by
  simp only [setNodes] at h
  split at h
  · rw [(setWeightNodes_spec c h).2]
  · exact setNoWeightNodes_nodeKeys c he h

/-- **`SetNodes(ns)` leaves exactly the nodes of `ns`, up to formatter equality**, from every
state, in either mode and on both branches of the unweighted diff: every member is the same node
as an element of `ns`, and every element of `ns` is the same node as a member. -/
theorem setNodes_members_match (he : IsMapOrder enum) {ns : List Node}
    (h : setNodes c fuel enum s ns = some s') :
    (∀ m ∈ s'.allNodes, ∃ v ∈ ns, c.isSameNode m v) ∧
      ∀ v ∈ ns, ∃ m ∈ s'.allNodes, c.isSameNode v m := by
  have hkeys := setNodes_nodeKeys c he h
  refine ⟨fun m hm => ?_, fun v hv => ?_⟩
  · obtain ⟨v, hv, hvm⟩ := Finset.mem_image.1 (hkeys ▸ Finset.mem_image_of_mem c.nodeKey hm)
    exact ⟨v, List.mem_toFinset.1 hv, (c.isSameNode_iff).2 hvm.symm⟩
  · obtain ⟨m, hm, hmv⟩ :=
      Finset.mem_image.1 (hkeys.symm ▸ Finset.mem_image_of_mem c.nodeKey (List.mem_toFinset.2 hv))
    exact ⟨m, hm, (c.isSameNode_iff).2 hmv.symm⟩

theorem setNodes_members_match_plainRing :
    (∀ m ∈ ((setNodes (Config.plain 2) 4 ascending plainRing [2, 3]).getD .empty).allNodes,
      ∃ v ∈ [2, 3], (Config.plain 2).isSameNode m v) ∧
    ∀ v ∈ [2, 3], ∃ m ∈ ((setNodes (Config.plain 2) 4 ascending plainRing [2, 3]).getD .empty).allNodes,
      (Config.plain 2).isSameNode v m :=
  setNodes_members_match (Config.plain 2) isMapOrder_ascending
    (show setNodes (Config.plain 2) 4 ascending plainRing [2, 3] = some _ from rfl)

/-- **The full clear takes a kept member's positions.** Node `1` collided with node `2` when it
was added, so it owns position `7`; `SetNodes(1)` finds one member to remove, as many as it was
given nodes, clears the ring and places node `1` again, now at `5`. -/
theorem setNodes_moves_kept_node :
    (runOps (Config.collide 1) 4 ascending .empty [.addNodes [2], .addNodes [1]]).map
        (fun s => (s.nodeByKey.lookup 5, s.nodeByKey.lookup 7)) = some (some 2, some 1) ∧
      (runOps (Config.collide 1) 4 ascending .empty [.addNodes [2], .addNodes [1], .setNodes [1]]).map
        (fun s => (s.nodeByKey.lookup 5, s.nodeByKey.lookup 7)) = some (some 1, none) := by
  decide

omit [DecidableEq Node] in
/-- A node the same as an element of `ns` is the same as no member `SetNodes(ns)` removes. -/
theorem not_sameAs_removed {ns : List Node} {K : Node} (hkept : ∃ v ∈ ns, c.isSameNode K v) :
    ¬∃ m ∈ (enum s.allNodes).filter fun k => !ns.any (c.isSameNode k), c.isSameNode K m := by
  rintro ⟨m, hm, hKm⟩
  obtain ⟨v, hv, hKv⟩ := hkept
  simp only [List.mem_filter, Bool.not_eq_true', List.any_eq_false] at hm
  exact hm.2 v hv (c.isSameNode_trans (c.isSameNode_symm hKm) hKv)

/-- **A kept member keeps its positions when `SetNodes` removes members one by one.** In
unweighted mode, when the number of members to remove differs from `len(nodes)`, a member the
same as an element of `ns` owns exactly the positions it owned before: removal deletes only
positions of members the same as no element of `ns`, and the nodes added are the same as no
member left. -/
theorem setNodes_keeps_positions (hw : c.isWeighted = false) {ns : List Node}
    (hbranch : ((enum s.allNodes).filter fun k => !ns.any (c.isSameNode k)).length ≠ ns.length)
    (h : setNodes c fuel enum s ns = some s') {K : Node} (hK : K ∈ s.allNodes)
    (hkept : ∃ v ∈ ns, c.isSameNode K v) (p : UInt32) :
    s'.nodeByKey.lookup p = some K ↔ s.nodeByKey.lookup p = some K := by
  simp only [setNodes, hw, Bool.false_eq_true, if_false, setNoWeightNodes, hbranch] at h
  obtain ⟨s₁, h₁, h⟩ := Option.bind_eq_some.1 h
  obtain ⟨hsh, hall⟩ := removeNoWeightNodes_spec c h₁
  have hgone : ¬∃ m ∈ (enum s.allNodes).filter fun k => !ns.any (c.isSameNode k),
      c.isSameNode K m := not_sameAs_removed c hkept
  have hK₁ : K ∈ s₁.allNodes := by
    rw [hall, Finset.mem_sdiff, List.mem_toFinset]
    exact ⟨hK, fun hKT => hgone ⟨K, hKT, c.isSameNode_self K⟩⟩
  have hfresh : K ∉ ns.filter fun k => !decide (∃ v ∈ s₁.allNodes, c.isSameNode k v) := by
    simp only [List.mem_filter, Bool.not_eq_true', decide_eq_false_iff_not, not_and, not_not]
    exact fun _ => ⟨K, hK₁, c.isSameNode_self K⟩
  have hg := (addNoWeightNodes_spec c h).1
  exact ⟨fun hp => hsh.lookup_some (hg.lookup_of_not_fresh hp hfresh),
    fun hp => hg.lookup_eq (hsh.lookup_eq hp hgone)⟩

/-- The ring after `AddNodes(2)`, `AddNodes(1)` under `Config.collide 1`: node `2` owns position
`5`, and node `1`, which collided with it there, owns `7`. -/
def collideRing : HashRing Nat :=
  (runOps (Config.collide 1) 4 ascending .empty [.addNodes [2], .addNodes [1]]).getD .empty

theorem setNodes_keeps_positions_collideRing :
    ((setNodes (Config.collide 1) 4 ascending collideRing [1, 3]).getD .empty).nodeByKey.lookup 7 =
        some 1 ↔ collideRing.nodeByKey.lookup 7 = some 1 :=
  setNodes_keeps_positions (Config.collide 1) rfl (by decide)
    (show setNodes (Config.collide 1) 4 ascending collideRing [1, 3] = some _ from rfl)
    (by decide) (by decide) 7

/-- The node list with its repeats dropped: the elements not the same as a node of `seen` or as
an earlier element. -/
def collapseDuplicates (seen : Finset Node) : List Node → List Node
  | [] => []
  | n :: ns =>
    if ∃ m ∈ seen, c.isSameNode n m then collapseDuplicates seen ns
    else n :: collapseDuplicates (insert n seen) ns

/-- Dropping repeats does not change the keys. -/
theorem nodeKeys_collapseDuplicates :
    ∀ (seen : Finset Node) (ns : List Node),
      (seen ∪ (collapseDuplicates c seen ns).toFinset).image c.nodeKey =
        (seen ∪ ns.toFinset).image c.nodeKey
  | _, [] => rfl
  | seen, n :: ns => by
    simp only [collapseDuplicates]
    split
    · rename_i hn
      obtain ⟨m, hm, hnm⟩ := hn
      rw [nodeKeys_collapseDuplicates seen ns, List.toFinset_cons, Finset.union_insert,
        Finset.image_insert, Finset.insert_eq_of_mem]
      exact Finset.mem_image.2 ⟨m, Finset.mem_union_left _ hm, ((c.isSameNode_iff).1 hnm).symm⟩
    · rw [List.toFinset_cons, List.toFinset_cons, Finset.union_insert, ← Finset.insert_union,
        nodeKeys_collapseDuplicates (insert n seen) ns, Finset.insert_union, Finset.union_insert]

/-- **Re-adding a member is not collapsed.** `AddNodes(1)` twice places node `1` again: its
own position `100` counts as a collision, and the raised budget gives it `101`. -/
theorem addNodes_twice_differs :
    (runOps (Config.plain 1) 4 ascending .empty [.addNodes [1], .addNodes [1]]).map
        (fun s => s.nodeByKey.lookup 101) = some (some 1) ∧
      (runOps (Config.plain 1) 4 ascending .empty [.addNodes [1]]).map
        (fun s => s.nodeByKey.lookup 101) = some none := by
  decide

/-- **Repeats collapse in the member keys only.** For every state and node list, `AddNodes(ns)`
and `AddNodes(ns')`, with `ns'` the elements of `ns` not the same as a member or an earlier
element, leave members with the same keys, in either mode and for any iteration orders; and so
do `SetNodes(ns)` and `SetNodes` of `ns` with its repeats dropped. -/
theorem members_collapse_duplicates {fuel' : Nat} {enum' : Finset Node → List Node}
    (he : IsMapOrder enum) (he' : IsMapOrder enum') (s : HashRing Node) (ns : List Node) :
    (∀ s₁ s₂, addNodes c fuel enum s ns = some s₁ →
      addNodes c fuel' enum' s (collapseDuplicates c s.allNodes ns) = some s₂ →
        s₁.allNodes.image c.nodeKey = s₂.allNodes.image c.nodeKey) ∧
    (∀ s₁ s₂, setNodes c fuel enum s ns = some s₁ →
      setNodes c fuel' enum' s (collapseDuplicates c ∅ ns) = some s₂ →
        s₁.allNodes.image c.nodeKey = s₂.allNodes.image c.nodeKey) := by
  refine ⟨fun s₁ s₂ h₁ h₂ => ?_, fun s₁ s₂ h₁ h₂ => ?_⟩
  · rw [addNodes_allNodes c he h₁, addNodes_allNodes c he' h₂, nodeKeys_collapseDuplicates]
  · rw [setNodes_nodeKeys c he h₁, setNodes_nodeKeys c he' h₂]
    simpa using (nodeKeys_collapseDuplicates c ∅ ns).symm

theorem members_collapse_duplicates_plain :
    IsMapOrder ascending ∧
    ((∀ s₁ s₂, addNodes (Config.plain 1) 4 ascending .empty [1, 1] = some s₁ →
      addNodes (Config.plain 1) 4 ascending .empty
        (collapseDuplicates (Config.plain 1) (HashRing.empty : HashRing Nat).allNodes [1, 1]) = some s₂ →
        s₁.allNodes.image (Config.plain 1).nodeKey = s₂.allNodes.image (Config.plain 1).nodeKey) ∧
    (∀ s₁ s₂, setNodes (Config.plain 1) 4 ascending .empty [1, 1] = some s₁ →
      setNodes (Config.plain 1) 4 ascending .empty (collapseDuplicates (Config.plain 1) ∅ [1, 1]) = some s₂ →
        s₁.allNodes.image (Config.plain 1).nodeKey = s₂.allNodes.image (Config.plain 1).nodeKey)) :=
  ⟨isMapOrder_ascending,
    members_collapse_duplicates (Config.plain 1) isMapOrder_ascending isMapOrder_ascending .empty [1, 1]⟩

end Hashring
