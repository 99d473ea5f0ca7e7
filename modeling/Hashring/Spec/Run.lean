import Hashring.Spec.Ring
import Mathlib.Data.Nat.Lattice
import Mathlib.Logic.Relation

/-!
# Runs of the public operations

A state is reachable when some sequence of the public membership operations, each returning,
leads to it from the empty ring `New` builds. Every call may see its own iteration order of the
Go maps it ranges over.
-/

namespace Hashring

variable {Node : Type} [DecidableEq Node]

/-- The public membership operations. -/
inductive Op (Node : Type)
  | addNodes (nodes : List Node)
  | setNodes (nodes : List Node)
  | removeNodes (nodes : List Node)
  | removeAllNodes

/-- `enum` is an iteration order of Go maps keyed by nodes: it lists each member once. -/
def IsMapOrder (enum : Finset Node → List Node) : Prop :=
  ∀ S : Finset Node, (enum S : Multiset Node) = S.val

variable (c : Config Node)

/-- One call of a public operation. -/
def Op.run (fuel : Nat) (enum : Finset Node → List Node) (s : HashRing Node) :
    Op Node → Option (HashRing Node)
  | .addNodes nodes => Hashring.addNodes c fuel enum s nodes
  | .setNodes nodes => Hashring.setNodes c fuel enum s nodes
  | .removeNodes nodes => Hashring.removeNodes c fuel enum s nodes
  | .removeAllNodes => some (Hashring.removeAllNodes s)

/-- A call that returns `s'` from `s`, for some iteration order and enough fuel. -/
def Step (s s' : HashRing Node) : Prop :=
  ∃ (op : Op Node) (fuel : Nat) (enum : Finset Node → List Node),
    IsMapOrder enum ∧ op.run c fuel enum s = some s'

/-- The states some run of public calls reaches from `New`. -/
def Reachable : HashRing Node → Prop := Relation.ReflTransGen (Step c) .empty

/-- The states runs of calls reach from `New` when each call satisfies `P` in the state it starts
from. -/
def ReachableVia (P : HashRing Node → Op Node → Prop) : HashRing Node → Prop :=
  Relation.ReflTransGen (fun s s' => ∃ (op : Op Node) (fuel : Nat) (enum : Finset Node → List Node),
    IsMapOrder enum ∧ P s op ∧ op.run c fuel enum s = some s') .empty

/-- A run of calls, one after the other, with one fuel and one iteration order. -/
def runOps (fuel : Nat) (enum : Finset Node → List Node) (s : HashRing Node) (ops : List (Op Node)) :
    Option (HashRing Node) :=
  ops.foldlM (fun s op => op.run c fuel enum s) s

theorem Reachable.step {s s' : HashRing Node} (h : Reachable c s) (hs : Step c s s') :
    Reachable c s' :=
  Relation.ReflTransGen.tail h hs

theorem ReachableVia.reachable {P : HashRing Node → Op Node → Prop} {s : HashRing Node}
    (h : ReachableVia c P s) : Reachable c s := by
  induction h with
  | refl => exact .refl
  | tail _ hst ih =>
    obtain ⟨op, fuel, enum, he, -, hr⟩ := hst
    exact ih.step c ⟨op, fuel, enum, he, hr⟩

theorem ReachableVia.mono {P Q : HashRing Node → Op Node → Prop} (hPQ : ∀ s op, P s op → Q s op)
    {s : HashRing Node} (h : ReachableVia c P s) : ReachableVia c Q s :=
  Relation.ReflTransGen.mono
    (fun _ _ ⟨op, fuel, enum, he, hp, hr⟩ => ⟨op, fuel, enum, he, hPQ _ op hp, hr⟩) h

/-- The end of a run of calls from a reachable state is reachable. -/
theorem Reachable.runOps (fuel : Nat) {enum : Finset Node → List Node} (he : IsMapOrder enum) :
    ∀ {s s' : HashRing Node} (ops : List (Op Node)), Reachable c s →
      runOps c fuel enum s ops = some s' → Reachable c s'
  | _, _, [], h, hr => by cases hr; exact h
  | s, s', op :: ops, h, hr => by
    simp only [Hashring.runOps, List.foldlM_cons, Option.bind_eq_bind] at hr
    obtain ⟨s₁, h₁, hr⟩ := Option.bind_eq_some.1 hr
    exact Reachable.runOps fuel he ops (h.step c ⟨op, fuel, enum, he, h₁⟩) hr

/-- A configuration to run the model on: nodes are numbers, node `n` derives the one position
`100 * n + i` at replica index `i`, and every key hashes to `0`. -/
def Config.plain (numReps : Nat) : Config Nat where
  numReps := numReps
  isWeighted := false
  weightByNode := ∅
  nodeKeyFormatter n i := toString n ++ "-" ++ toString i
  getIterateHashKeyForNode n i := [UInt32.ofNat (100 * n + i)]
  getHashKey _ := 0

/-- `Config.plain` with a few hash collisions: nodes `1` and `2` both derive position `5` at
replica `0`, node `1` derives `7` at replica `1` as node `3` does at replica `0`, and node `4`
derives `50` at replicas `0` and `1`. -/
def Config.collide (numReps : Nat) : Config Nat :=
  { Config.plain numReps with
    getIterateHashKeyForNode := fun n i =>
      match n, i with
      | 1, 0 | 2, 0 => [5]
      | 1, 1 | 3, 0 => [7]
      | 4, 0 | 4, 1 => [50]
      | n, i => [UInt32.ofNat (100 * n + i)] }

/-- A configuration whose calls derive four positions each, as Ketama cuts one MD5 digest into
four: node `n` derives `100 * n + 4 * i + j`, `j < 4`, at replica index `i`, so that no two of a
node's first `25` calls share a position; node `2` derives position `103`, one of node `1`'s, in
place of `200`. -/
def Config.ketama (numReps : Nat) : Config Nat :=
  { Config.plain numReps with
    getIterateHashKeyForNode := fun n i =>
      (List.range 4).map fun j =>
        if n = 2 ∧ i + j = 0 then 103 else UInt32.ofNat (100 * n + 4 * i + j) }

/-- Go's map order taken as ascending order. -/
def ascending (S : Finset Nat) : List Nat := (List.range (S.sup id + 1)).filter (· ∈ S)

theorem isMapOrder_ascending : IsMapOrder ascending := fun S =>
  (Multiset.Nodup.ext (Multiset.coe_nodup.2 ((List.nodup_range _).filter _)) S.nodup).2 fun x => by
    simpa [ascending, Nat.lt_succ_iff] using fun hx => Finset.le_sup (f := id) hx

/-- Go's map order taken as descending order. -/
def descending (S : Finset Nat) : List Nat := (ascending S).reverse

theorem isMapOrder_descending : IsMapOrder descending := fun S => by
  rw [descending, Multiset.coe_reverse]
  exact isMapOrder_ascending S

/-- A weighted configuration to run the model on: nodes `1`, `2` and `3` weigh `1`, `2` and `3`,
and node `n` derives the one position `n + 4 * i` at replica index `i`. -/
def Config.weighted (numReps : Nat) : Config Nat :=
  { Config.plain numReps with
    isWeighted := true
    weightByNode := (((∅ : Finmap fun _ : Nat => Int).insert 1 1).insert 2 2).insert 3 3
    getIterateHashKeyForNode := fun n i => [UInt32.ofNat (n + 4 * i)] }

/-- `Config.weighted 160` with weights `20833333`, `2^63 - 1` and `2^63 - 20833333`, whose sum
leaves Go's `int`. -/
def Config.wrapping : Config Nat :=
  { Config.weighted 160 with
    weightByNode := (((∅ : Finmap fun _ : Nat => Int).insert 1 20833333).insert 2 (2 ^ 63 - 1)).insert 3
      (2 ^ 63 - 20833333) }

/-- The ring `AddNodes(1, 2)` builds from `New` under `Config.plain 2`. -/
def plainRing : HashRing Nat := (addNodes (Config.plain 2) 4 ascending .empty [1, 2]).getD .empty

end Hashring
