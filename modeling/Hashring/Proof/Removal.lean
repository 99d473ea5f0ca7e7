import Hashring.Proof.Lookup

/-!
# Removal does not retrace insertion

`removeNoWeightNodes` walks a node's derivations again to find its positions, but raises its
bound on other conditions than `addNodeWithoutSort` did: insertion skips every taken position,
its own included, while removal skips only positions owned by another node, and only those still
there. Whenever the two disagree, the removal scan stops short of positions the node still owns.
And removal declares one bound for the whole call, so a node's scan starts from the bound the
previous node's scan raised. Each run below is on `Config.collide`.

* `removeNodes_leaves_orphan`: node `1` collides with node `2`, which is then removed; removing
  node `1` leaves its position `7`, and `Get` resolves every key to the removed node.
* `addNodes_removeNodes_not_restored`: node `4` derives position `50` twice; adding then removing
  it leaves position `402` owned by it.
* `removeNodes_batch_differs`: removing `[3, 1]` at once deletes position `7`, removing `[3]` and
  then `[1]` does not.

Insertion has no such carry-over: each node's scan starts from `numReps`, and `sortedKeys`, the
only field the batch shares, is rebuilt at the end, so `AddNodes` batches freely
(`addNodes_append`).
-/

namespace Hashring

/-- The ring after `AddNodes(2)`, `AddNodes(1)`, `RemoveNodes(2)`, `RemoveNodes(1)`. -/
def orphanRing : HashRing Nat :=
  (runOps (Config.collide 1) 4 ascending .empty
    [.addNodes [2], .addNodes [1], .removeNodes [2], .removeNodes [1]]).getD .empty

/-- **A removed node keeps a position.** The ring is reachable and has no member, yet `Get`
resolves every key to node `1`. -/
theorem removeNodes_leaves_orphan :
    Reachable (Config.collide 1) orphanRing ∧ orphanRing.allNodes = ∅ ∧
      ∀ key, get (Config.collide 1) orphanRing key = some (1, true) := by
  have hreach : Reachable (Config.collide 1) orphanRing :=
    Reachable.runOps _ 4 isMapOrder_ascending
      [.addNodes [2], .addNodes [1], .removeNodes [2], .removeNodes [1]] .refl rfl
  have hkeys : orphanRing.nodeByKey.keys = {7} := by decide
  have h7 : orphanRing.nodeByKey.lookup 7 = some 1 := by decide
  refine ⟨hreach, by decide, fun key => get_of_isSuccessor _ (hreach.repInv _) ?_ h7⟩
  rw [hkeys]
  exact isSuccessor_singleton _ _

/-- **Adding then removing a fresh node does not restore the ring.** From `New`, where no
position is taken, `AddNodes(4)` then `RemoveNodes(4)` leaves position `402` owned by `4`. -/
theorem addNodes_removeNodes_not_restored :
    (HashRing.empty : HashRing Nat).nodeByKey.lookup 402 = none ∧
      (runOps (Config.collide 2) 4 ascending .empty [.addNodes [4], .removeNodes [4]]).map
        (fun s => (s.nodeByKey.lookup 402, s.allNodes)) = some (some 4, ∅) := by
  decide

/-- **Removing in one call differs from removing in two.** From the ring after `AddNodes(2)`,
`AddNodes(1)`, `RemoveNodes(2)`, `RemoveNodes(3, 1)` deletes position `7` of node `1`, while
`RemoveNodes(3)` then `RemoveNodes(1)` keeps it. -/
theorem removeNodes_batch_differs :
    (runOps (Config.collide 1) 4 ascending .empty
        [.addNodes [2], .addNodes [1], .removeNodes [2], .removeNodes [3, 1]]).map
        (fun s => (s.nodeByKey.lookup 7, s.allNodes)) = some (none, ∅) ∧
      (runOps (Config.collide 1) 4 ascending .empty
        [.addNodes [2], .addNodes [1], .removeNodes [2], .removeNodes [3], .removeNodes [1]]).map
        (fun s => (s.nodeByKey.lookup 7, s.allNodes)) = some (some 1, ∅) := by
  decide

section Batching

variable {Node : Type} [DecidableEq Node] (c : Config Node) {fuel : Nat}

/-- `addNodeWithoutSort` neither reads nor writes `sortedKeys`. -/
theorem addNodeWithoutSort_sortedKeys (k : List UInt32) (s : HashRing Node) (node : Node) (n : Nat) :
    addNodeWithoutSort c fuel { s with sortedKeys := k } node n =
      (addNodeWithoutSort c fuel s node n).map ({ · with sortedKeys := k }) := by
  simp only [addNodeWithoutSort, Option.map_map, Function.comp_def]

theorem foldlM_addNodeWithoutSort_sortedKeys {count : Node → Nat} (k : List UInt32) :
    ∀ (nodes : List Node) (s : HashRing Node),
      nodes.foldlM (fun s node => addNodeWithoutSort c fuel s node (count node))
          { s with sortedKeys := k } =
        (nodes.foldlM (fun s node => addNodeWithoutSort c fuel s node (count node)) s).map
          ({ · with sortedKeys := k })
  | [], _ => rfl
  | node :: nodes, s => by
    simp only [List.foldlM_cons, addNodeWithoutSort_sortedKeys, Option.bind_eq_bind]
    cases addNodeWithoutSort c fuel s node (count node) with
    | none => rfl
    | some s₁ => exact foldlM_addNodeWithoutSort_sortedKeys k nodes s₁

/-- **Batching `AddNodes` is only an optimisation** in unweighted mode: from every state,
`AddNodes(ns ++ ms)` is `AddNodes(ns)` then `AddNodes(ms)`, whatever the iteration orders. -/
theorem addNodes_append (hw : c.isWeighted = false) (enum enum' : Finset Node → List Node)
    (s : HashRing Node) (ns ms : List Node) :
    addNodes c fuel enum s (ns ++ ms) = (addNodes c fuel enum s ns).bind (addNodes c fuel enum' · ms) := by
  simp only [addNodes, hw, Bool.false_eq_true, if_false, addNoWeightNodes, List.foldlM_append,
    Option.bind_eq_bind]
  cases ns.foldlM (fun s node => addNodeWithoutSort c fuel s node c.numReps) s with
  | none => rfl
  | some s₁ =>
    simp only [Option.some_bind, Option.map_some']
    rw [show updateSortedNodes s₁ = { s₁ with sortedKeys := s₁.nodeByKey.keys.sort (· ≤ ·) } from rfl,
      foldlM_addNodeWithoutSort_sortedKeys c (s₁.nodeByKey.keys.sort (· ≤ ·)) ms s₁, Option.map_map]
    rfl

theorem addNodes_append_plain :
    addNodes (Config.plain 1) 4 ascending .empty ([1] ++ [2]) =
      (addNodes (Config.plain 1) 4 ascending .empty [1]).bind
        (addNodes (Config.plain 1) 4 descending · [2]) :=
  addNodes_append (Config.plain 1) rfl ascending descending .empty [1] [2]

end Batching

end Hashring
