import Mathlib.Data.Finmap
import Mathlib.Data.Finset.Sort
import Mathlib.Data.Rat.Floor

/-!
# The hash ring and its membership operations

The model of `hashring.go`. A `HashRing` holds the three fields the membership operations
change: `sortedKeys`, the position→node table `nodeByKey`, and the member set `allNodes`. The
fields only `New` and its options set are the `Config`; the two capabilities the source calls
but does not define here, `getIterateHashKeyForNode` and `getHashKey`, are fields of it too.

Go's maps become Mathlib's `Finmap` (a position table) and `Finset` (a set of nodes): both have
extensional equality, as a Go map's contents do. Where the source iterates a map and the order
matters, the operations take the iteration order `enum` as an argument. The collision loops of
`addNodeWithoutSort` and `removeNoWeightNodes` raise their own bound as they run and need not
stop, so they take `fuel` and return `none` when it runs out.
-/

namespace Hashring

/-- `uint32` ordered as the source's `slices.Sort` and `>=` compare it. -/
instance linearOrderUInt32 : LinearOrder UInt32 where
  le := (· ≤ ·)
  lt := (· < ·)
  le_refl := UInt32.le_refl
  le_trans _ _ _ := UInt32.le_trans
  le_antisymm _ _ h1 h2 := UInt32.eq_of_toBitVec_eq (BitVec.eq_of_toNat_eq (Nat.le_antisymm h1 h2))
  le_total := UInt32.le_total
  lt_iff_le_not_le a b := Nat.lt_iff_le_not_le (m := a.toNat) (n := b.toNat)
  decidableLE := inferInstance

/-- `map[uint32]Node`: the owner of each virtual position. -/
abbrev Table (Node : Type) := Finmap fun _ : UInt32 => Node

/-- The fields of `HashRing` that only `New` and its options set. -/
structure Config (Node : Type) where
  /-- The number of positions each node should own (`defaultNumReps = 160`). -/
  numReps : Nat
  isWeighted : Bool
  weightByNode : Finmap fun _ : Node => Int
  /-- `nodeKeyFormatter.FormatNodeKey`. -/
  nodeKeyFormatter : Node → Nat → String
  /-- The positions derived for a node at a replica index (one or more per call for Ketama). -/
  getIterateHashKeyForNode : Node → Nat → List UInt32
  /-- The position a lookup key hashes to. -/
  getHashKey : String → UInt32

/-- The fields of `HashRing` that the membership operations change. -/
structure HashRing (Node : Type) where
  sortedKeys : List UInt32
  nodeByKey : Table Node
  allNodes : Finset Node

variable {Node : Type} [DecidableEq Node]

/-- `isSameNode`: two nodes are the same when their replica-0 keys are. -/
def Config.isSameNode (c : Config Node) (n1 n2 : Node) : Bool :=
  decide (c.nodeKeyFormatter n1 0 = c.nodeKeyFormatter n2 0)

/-- Go's `int`, 64 bits on amd64: the value an exact integer wraps to. -/
def toInt64 (x : Int) : Int := (x + 2 ^ 63) % 2 ^ 64 - 2 ^ 63

/-- `int(f)` of a `float64` `f` that is already a whole number: amd64 gives the minimum `int` when
`f` is out of range, as it does for NaN and the infinities. -/
def floatToInt (x : Int) : Int := if -2 ^ 63 ≤ x ∧ x < 2 ^ 63 then x else -2 ^ 63

/-- `c.weightByNode[node]`, zero for a node without a weight; a weight is a Go `int`. -/
def Config.weight (c : Config Node) (node : Node) : Int :=
  toInt64 ((c.weightByNode.lookup node).getD 0)

/-- The empty ring: `New` before its options, and `RemoveAllNodes`. -/
def HashRing.empty : HashRing Node := ⟨[], ∅, ∅⟩

/-- `New`: an empty ring; weighting is switched off when no weight was given. -/
def new (c : Config Node) : Config Node × HashRing Node :=
  ({ c with isWeighted := c.isWeighted && decide (c.weightByNode ≠ ∅) }, .empty)

/-- `RemoveAllNodes`. -/
def removeAllNodes (_ : HashRing Node) : HashRing Node := .empty

/-- `updateSortedNodes`: the keys of `nodeByKey`, sorted. (Whether the old buffer is reused
only changes memory use.) -/
def updateSortedNodes (s : HashRing Node) : HashRing Node :=
  { s with sortedKeys := s.nodeByKey.keys.sort (· ≤ ·) }

/-- The inner `for j, pos := range positions` loop of `addNodeWithoutSort` and
`removeNoWeightNodes`, from index `j` on, for the call at replica index `i`. A position with
`i + j > numReps` ends it; otherwise `visit` updates the table, or with `none` skips the
position and raises the bound `numReps` by one. -/
def scan (visit : UInt32 → Table Node → Option (Table Node)) (i : Nat) :
    Nat → List UInt32 → Nat → Table Node → Nat × Table Node
  | _, [], numReps, t => (numReps, t)
  | j, pos :: positions, numReps, t =>
    if i + j > numReps then (numReps, t)
    else
      match visit pos t with
      | none => scan visit i (j + 1) positions (numReps + 1) t
      | some t' => scan visit i (j + 1) positions numReps t'

/-- The body of the inner loop of `addNodeWithoutSort`: a taken position is skipped,
a free one is given to `node`. -/
def placeAt (node : Node) (pos : UInt32) (t : Table Node) : Option (Table Node) :=
  if pos ∈ t then none else some (t.insert pos node)

/-- The body of the inner loop of `removeNoWeightNodes`: a position owned by a node that is the
same as `node` is deleted, one owned by another node is skipped, a free one is left. -/
def deleteAt (c : Config Node) (node : Node) (pos : UInt32) (t : Table Node) :
    Option (Table Node) :=
  match t.lookup pos with
  | some n => if c.isSameNode n node then some (t.erase pos) else none
  | none => some t

variable (c : Config Node)

/-- The outer loop of `addNodeWithoutSort` from replica index `i` with bound `numReps`. A call
that derives no position ends the loop (`break`). -/
def addLoop (node : Node) : Nat → Nat → Nat → Table Node → Option (Table Node)
  | 0, _, _, _ => none
  | fuel + 1, i, numReps, t =>
    if i < numReps then
      let positions := c.getIterateHashKeyForNode node i
      if positions.length = 0 then some t
      else
        let r := scan (placeAt node) i 0 positions numReps t
        addLoop node fuel (i + positions.length) r.1 r.2
    else some t

/-- `addNodeWithoutSort`. -/
def addNodeWithoutSort (fuel : Nat) (s : HashRing Node) (node : Node) (numReps : Nat) :
    Option (HashRing Node) :=
  (addLoop c node fuel 0 numReps s.nodeByKey).map fun t =>
    { s with nodeByKey := t, allNodes := insert node s.allNodes }

/-- `addNoWeightNodes`. -/
def addNoWeightNodes (fuel : Nat) (s : HashRing Node) (nodes : List Node) :
    Option (HashRing Node) :=
  (nodes.foldlM (fun s node => addNodeWithoutSort c fuel s node c.numReps) s).map
    updateSortedNodes

/-- The per-node loop of `removeNoWeightNodes` from replica index `i`; it returns the raised
bound with the table. A call that derives no position is skipped (`continue`). -/
def removeLoop (node : Node) : Nat → Nat → Nat → Table Node → Option (Nat × Table Node)
  | 0, _, _, _ => none
  | fuel + 1, i, numReps, t =>
    if i < numReps then
      let positions := c.getIterateHashKeyForNode node i
      if positions.length = 0 then removeLoop node fuel (i + 1) (numReps + 1) t
      else
        let r := scan (deleteAt c node) i 0 positions numReps t
        removeLoop node fuel (i + positions.length) r.1 r.2
    else some (numReps, t)

/-- One turn of the `for _, node := range nodes` loop of `removeNoWeightNodes`. The bound
`numReps` is declared once for the call, so each node starts from the bound the previous
node's scan left. -/
def removeNoWeightNode (fuel : Nat) (acc : Nat × HashRing Node) (node : Node) :
    Option (Nat × HashRing Node) :=
  (removeLoop c node fuel 0 acc.1 acc.2.nodeByKey).map fun r =>
    (r.1, { acc.2 with nodeByKey := r.2, allNodes := acc.2.allNodes.erase node })

/-- `removeNoWeightNodes`. -/
def removeNoWeightNodes (fuel : Nat) (s : HashRing Node) (nodes : List Node) :
    Option (HashRing Node) :=
  (nodes.foldlM (removeNoWeightNode c fuel) (c.numReps, s)).map fun acc =>
    updateSortedNodes acc.2

/-- `setNoWeightNodes`; `enum` is the order in which `for k := range c.allNodes` visits the
members. -/
def setNoWeightNodes (fuel : Nat) (enum : Finset Node → List Node) (s : HashRing Node)
    (nodes : List Node) : Option (HashRing Node) := do
  let nodesToBeRemoved := (enum s.allNodes).filter fun k => !nodes.any (c.isSameNode k)
  let s ← if nodesToBeRemoved.length = nodes.length then some (removeAllNodes s)
    else removeNoWeightNodes c fuel s nodesToBeRemoved
  let nodesToBeAdded := nodes.filter fun k => !decide (∃ v ∈ s.allNodes, c.isSameNode k v)
  addNoWeightNodes c fuel s nodesToBeAdded

/-- `pointerPerServer` of `setWeightNodes`: `floor(percent * numReps * nodeCount + 1e10)`, the
`float64` arithmetic read exactly. `totalWeight` is an `int`, so the sum wraps. With a zero total
weight `percent` is NaN or infinite, and Go leaves `int` of such a value, as of one out of range,
to the implementation; amd64 gives the minimum `int`, as here. -/
def pointerPerServer (nodes : List Node) (node : Node) : Int :=
  let totalWeight := toInt64 (nodes.map c.weight).sum
  if totalWeight = 0 then -2 ^ 63
  else
    let percent : ℚ := c.weight node / totalWeight
    floatToInt ⌊percent * c.numReps * nodes.length + 10 ^ 10⌋

/-- `setWeightNodes`. A negative count places nothing, as the loop test `0 < numReps` fails. -/
def setWeightNodes (fuel : Nat) (s : HashRing Node) (nodes : List Node) :
    Option (HashRing Node) :=
  (nodes.foldlM (fun s node => addNodeWithoutSort c fuel s node (pointerPerServer c nodes node).toNat)
    (removeAllNodes s)).map updateSortedNodes

/-- `getAllNodes`, in the iteration order `enum`. -/
def getAllNodes (enum : Finset Node → List Node) (s : HashRing Node) : List Node :=
  enum s.allNodes

/-- `All`: the members, in the iteration order `enum` of `maps.Keys`. -/
def all (enum : Finset Node → List Node) (s : HashRing Node) : List Node :=
  enum s.allNodes

/-- `addWeightNodes`. -/
def addWeightNodes (fuel : Nat) (enum : Finset Node → List Node) (s : HashRing Node)
    (nodes : List Node) : Option (HashRing Node) :=
  setWeightNodes c fuel s (getAllNodes enum s ++ nodes)

/-- `removeWeightNodes`. -/
def removeWeightNodes (fuel : Nat) (enum : Finset Node → List Node) (s : HashRing Node)
    (nodes : List Node) : Option (HashRing Node) :=
  let s := { s with allNodes := nodes.foldl (fun a node => a.erase node) s.allNodes }
  setWeightNodes c fuel s (getAllNodes enum s)

/-- `AddNodes`. -/
def addNodes (fuel : Nat) (enum : Finset Node → List Node) (s : HashRing Node)
    (nodes : List Node) : Option (HashRing Node) :=
  if c.isWeighted then addWeightNodes c fuel enum s nodes else addNoWeightNodes c fuel s nodes

/-- `SetNodes`. -/
def setNodes (fuel : Nat) (enum : Finset Node → List Node) (s : HashRing Node)
    (nodes : List Node) : Option (HashRing Node) :=
  if c.isWeighted then setWeightNodes c fuel s nodes else setNoWeightNodes c fuel enum s nodes

/-- `updateLocator`. -/
def updateLocator (fuel : Nat) (enum : Finset Node → List Node) (s : HashRing Node)
    (nodes : List Node) : Option (HashRing Node) :=
  setNodes c fuel enum s nodes

/-- `RemoveNodes`. -/
def removeNodes (fuel : Nat) (enum : Finset Node → List Node) (s : HashRing Node)
    (nodes : List Node) : Option (HashRing Node) :=
  if c.isWeighted then removeWeightNodes c fuel enum s nodes
  else removeNoWeightNodes c fuel s nodes

end Hashring
