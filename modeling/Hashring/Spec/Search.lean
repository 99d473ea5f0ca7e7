import Hashring.Spec.Ring

/-!
# Lookups: tail search, `Get` and `GetSince`

`tailSearch` is `slices.BinarySearchFunc` over `sortedKeys` with a comparison that never
answers `+1`, so it finds the first position at or after the hash. Indexing a slice out of range
panics in Go; here `getNodeByHashKeyIndex` returns `none` then, and a missing map key reads as
the zero node `default`. `GetSince` is the sequence of nodes its iterator yields to a consumer
that never stops; one that stops early sees a prefix of it.
-/

namespace Hashring

variable {Node : Type}

/-- The loop of `slices.BinarySearchFunc` on `[i, j)`: indices below `i` compare below the
target, indices from `j` on do not. `fuel` bounds its turns; `j - i` turns are enough. -/
def binarySearchLoop (x : List UInt32) (target : UInt32) (cmp : UInt32 → UInt32 → Int) :
    Nat → Nat → Nat → Nat
  | 0, i, _ => i
  | fuel + 1, i, j =>
    if i < j then
      let h := (i + j) / 2
      if cmp (x.getD h 0) target < 0 then binarySearchLoop x target cmp fuel (h + 1) j
      else binarySearchLoop x target cmp fuel i h
    else i

/-- `slices.BinarySearchFunc`. -/
def binarySearchFunc (x : List UInt32) (target : UInt32) (cmp : UInt32 → UInt32 → Int) :
    Nat × Bool :=
  let i := binarySearchLoop x target cmp x.length 0 x.length
  (i, decide (i < x.length) && decide (cmp (x.getD i 0) target = 0))

/-- `tailSearch`. -/
def tailSearch (s : HashRing Node) (key : UInt32) : Nat × Bool :=
  binarySearchFunc s.sortedKeys key fun v key => if v ≥ key then 0 else -1

/-- `firstKey, found := c.tailSearch(hash); if !found { firstKey = 0 }`, as both
`getNodeByHashKey` and `GetSince` write it. -/
def firstKeyIndex (s : HashRing Node) (hash : UInt32) : Nat :=
  let r := tailSearch s hash
  if r.2 then r.1 else 0

/-- `getMaxHashKey`: the last of `sortedKeys`, and whether there is one. -/
def getMaxHashKey (s : HashRing Node) : UInt32 × Bool :=
  if s.sortedKeys.length = 0 then (0, false)
  else (s.sortedKeys.getD (s.sortedKeys.length - 1) 0, true)

variable [Inhabited Node]

/-- `getNodeByHashKeyIndex`: `none` is the panic of an index out of range. -/
def getNodeByHashKeyIndex (s : HashRing Node) (keyIndex : Nat) : Option Node :=
  s.sortedKeys[keyIndex]?.map fun k => (s.nodeByKey.lookup k).getD default

/-- `getNodeByHashKey`. -/
def getNodeByHashKey (s : HashRing Node) (hash : UInt32) : Option (Node × Bool) :=
  if s.sortedKeys.length = 0 then some (default, false)
  else
    match s.nodeByKey.lookup hash with
    | some rv => some (rv, true)
    | none => (getNodeByHashKeyIndex s (firstKeyIndex s hash)).map (·, true)

variable [DecidableEq Node] (c : Config Node)

/-- `getPrimaryNode`. -/
def getPrimaryNode (s : HashRing Node) (name : String) : Option (Node × Bool) :=
  getNodeByHashKey s (c.getHashKey name)

/-- `Get`. -/
def get (s : HashRing Node) (name : String) : Option (Node × Bool) :=
  if s.nodeByKey = ∅ then some (default, false) else getPrimaryNode c s name

/-- The `for i := start + 1; i != start; i++` loop of `GetSince`, from index `i`, with the
nodes yielded so far. Past the end, `i = 0; i--; continue` resumes at index `0`. `fuel` bounds
its turns. -/
def getSinceLoop (s : HashRing Node) (start : Nat) : Nat → Nat → List Node → Option (List Node)
  | 0, _, _ => none
  | fuel + 1, i, yielded =>
    if i = start then some yielded
    else if i ≥ s.sortedKeys.length then getSinceLoop s start fuel 0 yielded
    else
      match getNodeByHashKeyIndex s i with
      | none => none
      | some n =>
        getSinceLoop s start fuel (i + 1) (if n ∈ yielded then yielded else yielded ++ [n])

/-- `GetSince`: the nodes yielded to a consumer that never stops. The loop turns at most
`len(sortedKeys) + 1` times. -/
def getSince (s : HashRing Node) (name : String) : Option (List Node) :=
  if s.nodeByKey = ∅ then some []
  else
    let firstKey := firstKeyIndex s (c.getHashKey name)
    match getNodeByHashKeyIndex s firstKey with
    | none => none
    | some firstNode =>
      getSinceLoop s firstKey (s.sortedKeys.length + 1) (firstKey + 1) [firstNode]

/-- The loop of `GetSince` with a consumer that may stop: `yield` is asked about each node not
handed yet and decides from the nodes handed so far (they are `nodesSet`), and the loop returns
as soon as it says no. The result is the nodes handed, in order. -/
def getSinceYieldLoop (yield : List Node → Node → Bool) (s : HashRing Node) (start : Nat) :
    Nat → Nat → List Node → Option (List Node)
  | 0, _, _ => none
  | fuel + 1, i, handed =>
    if i = start then some handed
    else if i ≥ s.sortedKeys.length then getSinceYieldLoop yield s start fuel 0 handed
    else
      match getNodeByHashKeyIndex s i with
      | none => none
      | some n =>
        if n ∈ handed then getSinceYieldLoop yield s start fuel (i + 1) handed
        else if yield handed n then getSinceYieldLoop yield s start fuel (i + 1) (handed ++ [n])
        else some (handed ++ [n])

/-- `GetSince` with a consumer that may stop (`if !yield(...) { return }`): the nodes handed to
`yield`, in order. -/
def getSinceYield (yield : List Node → Node → Bool) (s : HashRing Node) (name : String) :
    Option (List Node) :=
  if s.nodeByKey = ∅ then some []
  else
    let firstKey := firstKeyIndex s (c.getHashKey name)
    match getNodeByHashKeyIndex s firstKey with
    | none => none
    | some firstNode =>
      if yield [] firstNode then
        getSinceYieldLoop yield s firstKey (s.sortedKeys.length + 1) (firstKey + 1) [firstNode]
      else some [firstNode]

end Hashring
