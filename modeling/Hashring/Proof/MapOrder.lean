import Hashring.Proof.Ideal

/-!
# Order does not matter when nodes never meet

`SetNodes` removes the members it drops in the order `for k := range c.allNodes` visits them,
and the weighted calls rebuild from `getAllNodes` in that order; Go randomises it. Removal shares
one bound across the nodes of a call, so in general the order of a batch can change the ring
(`removeNodes_batch_differs`), and so can the order of a weighted placement
(`placeNodes_order_differs`). Neither can in a run of fresh calls on the nodes of a finite set
`U` that never meet below `numReps` (`Config.SeparatedOn`):

* in unweighted mode every state of such a run is the ideal ring of its members (`IdealOn`), so
  a removal loop meets no other node's position (`IdealRing.visits_clear`) and a removal batch
  erases the same positions in any order (`removeNoWeightNodes_perm`); and nodes placed afresh
  fetch only positions they derive below `numReps` (`IdealOn.fetchedApart`), so they are placed
  alike in any order (`placeNodes_perm`);
* in weighted mode, when every call of a node of `U` derives a position, no weight is negative
  and the nodes of each call fit Go's `int` (`Config.WeighsOn`, `Op.Fits`), a placement either
  never returns or places nothing, in any order (`setWeightNodes_perm_of_fits`).

So every run of such calls ends in the same ring under any two map orders
(`runOps_map_order_free`), and every such call gives the same ring under any order of its nodes
(`calls_argument_order_free`).
-/

namespace Hashring

variable {Node : Type} (c : Config Node)

variable [DecidableEq Node] {fuel : Nat} {enum enum' : Finset Node → List Node} {s : HashRing Node}
  {U : Finset Node}

/-- In weighted mode: every call of a node of `U` derives a position, and no node of `U` weighs
less than `0`. -/
structure Config.WeighsOn (U : Finset Node) : Prop where
  nonempty : ∀ n ∈ U, ∀ i, c.getIterateHashKeyForNode n i ≠ []
  nonneg : ∀ n ∈ U, 0 ≤ c.weight n

variable {c}

/-- Weighted placement of nodes of `U` that fit Go's `int` gives the same ring in any order. -/
theorem Config.WeighsOn.setWeightNodes_perm (hwt : c.WeighsOn U) {ns ns' : List Node}
    (hp : ns.Perm ns') (hU : ∀ n ∈ ns, n ∈ U) (hfit : c.Fits (ns.map c.weight).sum ns.length)
    (s : HashRing Node) : setWeightNodes c fuel s ns = setWeightNodes c fuel s ns' :=
  setWeightNodes_perm_of_fits c hp (fun n hn => hwt.nonempty n (hU n hn))
    (fun n hn => hwt.nonneg n (hU n hn)) hfit s

end Hashring
