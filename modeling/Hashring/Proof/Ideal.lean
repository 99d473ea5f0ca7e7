import Hashring.Proof.Clear
import Mathlib.Algebra.BigOperators.Group.Finset

/-!
# Without double placements the table is the ideal ring of the members

The abstract model of a consistent hash ring is its set of members: each member owns the
positions its calls derive up to the bound test (`idealPositions`), and no other position is in
the table (`IdealRing`). The code's table can differ from it in two ways: a collision moves a
node further along its calls (`Proof/Removal.lean`), and placing a node that already owns
positions gives it more (`addNodes_single_count`).

A run uses finitely many nodes, and there are only `2^32` positions, so separation is asked of the
nodes of a finite set `U` and of the replica indices the loops reach, those below `numReps`
(`Config.SeparatedOn`). Then nothing collides, so only the second difference remains; a call is
`Fresh` when it places no node twice, and `FreshIn U` when it also takes its nodes from `U`.
Every state reached by such calls has the ideal ring of its members as its table, and its members
in `U` (`IdealOn`, `fresh_reachable_ideal`):

* `addNodeWithoutSort_ideal`: placing a node of `U` that is not a member into the ideal ring gives
  the ideal ring with it;
* `removeNoWeightNodes_ideal`: removing nodes of `U` gives the ideal ring without them;
* `Op.run_ideal`: so every fresh call in unweighted mode keeps the table the ideal ring of the
  members.

The ideal ring of given members is one table (`IdealRing.unique`), so such a state is a function
of its members alone, whatever calls reached it (`fresh_reachable_history_free`), and `Get`
answers as consistent hashing over the members' ideal positions does (`fresh_get_ideal`). When
every call derives one position each member owns exactly `numReps` of them (`fresh_balanced`).
-/

namespace Hashring

variable {Node : Type} (c : Config Node)

/-- The positions a node owns in a ring where nothing collides: those its calls derive up to the
bound test, with bound `numReps`. -/
def idealPositions (n : Node) : List UInt32 := visitedPositions c n (c.numReps + 1) 0 c.numReps

/-- **The ideal ring of the members `M`**: each member owns exactly its ideal positions, and no
other position is in the table. -/
def IdealRing (M : Finset Node) (t : Table Node) : Prop :=
  ∀ p n, t.lookup p = some n ↔ n ∈ M ∧ p ∈ idealPositions c n

/-- The positions of the ideal ring of the members `M`. -/
def idealKeys (M : Finset Node) : Finset UInt32 := M.biUnion fun n => (idealPositions c n).toFinset

/-- **The nodes of `U` never meet below the bound `numReps`**: each of their calls there derives
a position, the positions each of them derives up to the bound test are distinct, and no two
different nodes of `U` derive a common position there. -/
structure Config.SeparatedOn (U : Finset Node) : Prop where
  nonempty : ∀ n ∈ U, ∀ i < c.numReps, c.getIterateHashKeyForNode n i ≠ []
  nodup : ∀ n ∈ U, (idealPositions c n).Nodup
  disjoint : ∀ a ∈ U, ∀ b ∈ U, a ≠ b →
    ∀ p, DerivedBelow c c.numReps a p → ¬DerivedBelow c c.numReps b p

/-- The table of `s` is the ideal ring of its members, and they are nodes of `U`. -/
structure IdealOn (U : Finset Node) (s : HashRing Node) : Prop where
  ideal : IdealRing c s.allNodes s.nodeByKey
  subset : s.allNodes ⊆ U

/-- `Config.plain 2` keeps nodes `1`, `2` and `3` apart: below replica index `2` they derive
`100, 101`, `200, 201` and `300, 301`. -/
theorem separatedOn_plain : (Config.plain 2).SeparatedOn {1, 2, 3} where
  nonempty _ _ _ _ := List.cons_ne_nil _ _
  nodup := by decide
  disjoint a ha b hb hab p := by
    rintro ⟨i, hi, hpi⟩ ⟨j, hj, hpj⟩
    have hsmall : ∀ n ∈ ({1, 2, 3} : Finset Nat), n ≤ 3 := by decide
    have ha3 := hsmall a ha
    have hb3 := hsmall b hb
    simp only [Config.plain, List.mem_singleton] at hi hj hpi hpj
    have h := congrArg UInt32.toNat (hpi.symm.trans hpj)
    simp only [UInt32.toNat, UInt32.ofNat, BitVec.toNat_ofNat] at h
    rw [Nat.mod_eq_of_lt (by omega), Nat.mod_eq_of_lt (by omega)] at h
    exact hab (by omega)

variable {c}

theorem IdealRing.keys_eq {M : Finset Node} {t : Table Node} (h : IdealRing c M t) :
    t.keys = idealKeys c M := by
  ext p
  simp only [Finmap.mem_keys, Finmap.mem_iff, h p, idealKeys, Finset.mem_biUnion, List.mem_toFinset]

theorem derivedBelow_of_mem_idealPositions {n : Node} {p : UInt32} (h : p ∈ idealPositions c n) :
    DerivedBelow c c.numReps n p :=
  derivedBelow_of_mem_visitedPositions c h

/-- A loop from replica index `0` with bound `numReps` that stops visits the ideal positions. -/
theorem visitedPositions_eq_ideal {n : Node}
    (hne : ∀ i < c.numReps, c.getIterateHashKeyForNode n i ≠ []) {fuel : Nat}
    (h : chainStops c n fuel 0 c.numReps) :
    visitedPositions c n fuel 0 c.numReps = idealPositions c n :=
  visitedPositions_congr c h (chainStops_of_le c hne c.numReps 0 (by omega))

/-- When every call below `numReps` derives one position, a node's ideal positions are
`numReps`. -/
theorem idealPositions_length_single {n : Node}
    (hone : ∀ i < c.numReps, (c.getIterateHashKeyForNode n i).length = 1) :
    (idealPositions c n).length = c.numReps :=
  visitedPositions_length_single c hone _ 0 (by omega)

theorem nodup_visitedPositions {n : Node}
    (hne : ∀ i < c.numReps, c.getIterateHashKeyForNode n i ≠ []) (hd : (idealPositions c n).Nodup)
    (fuel : Nat) : (visitedPositions c n fuel 0 c.numReps).Nodup := by
  rcases le_total fuel (c.numReps + 1) with h | h
  · exact hd.sublist (visitedPositions_isPrefix_of_le c h).sublist
  · rw [(visitedPositions_mono c (chainStops_of_le c hne c.numReps 0 (by omega)) h).2]
    exact hd

theorem idealRing_empty : IdealRing c ∅ (∅ : Table Node) := fun p n => by
  simp

theorem IdealOn.updateSortedNodes {U : Finset Node} {s : HashRing Node} (h : IdealOn c U s) :
    IdealOn c U (updateSortedNodes s) :=
  ⟨h.ideal, h.subset⟩

theorem idealOn_empty (U : Finset Node) : IdealOn c U (HashRing.empty : HashRing Node) :=
  ⟨idealRing_empty, Finset.empty_subset U⟩

section Separated

variable {U : Finset Node} (hc : c.SeparatedOn U)
include hc

/-- Two nodes of `U` never share an ideal position. -/
theorem eq_of_mem_idealPositions {a b : Node} (ha : a ∈ U) (hb : b ∈ U) {p : UInt32}
    (hpa : p ∈ idealPositions c a) (hpb : p ∈ idealPositions c b) : a = b :=
  by_contra fun hab => hc.disjoint a ha b hb hab p (derivedBelow_of_mem_idealPositions hpa)
    (derivedBelow_of_mem_idealPositions hpb)

/-- In the ideal ring of nodes of `U`, a loop of a node of `U` with bound `numReps` finds each
position it visits owned by that node or free: the owner derives it below `numReps` as well. -/
theorem IdealRing.visits_clear {M : Finset Node} {t : Table Node} (hs : IdealRing c M t)
    (hM : M ⊆ U) {x : Node} (hx : x ∈ U) {fuel i : Nat} {p : UInt32}
    (hp : p ∈ visitedPositions c x fuel i c.numReps) : t.lookup p = some x ∨ t.lookup p = none := by
  cases hq : t.lookup p with
  | none => exact .inr rfl
  | some m =>
    obtain ⟨hmM, hpm⟩ := (hs p m).1 hq
    refine .inl (congrArg some (by_contra fun hmx => ?_))
    exact hc.disjoint m (hM hmM) x hx hmx p (derivedBelow_of_mem_idealPositions hpm)
      (derivedBelow_of_mem_visitedPositions c hp)

/-- So every position a node of `U` that is not a member visits is free. -/
theorem IdealRing.visited_free {M : Finset Node} {t : Table Node} (hs : IdealRing c M t)
    (hM : M ⊆ U) {a : Node} (haU : a ∈ U) (ha : a ∉ M) {fuel : Nat} :
    ∀ p ∈ visitedPositions c a fuel 0 c.numReps, p ∉ t := fun p hp hpt => by
  rcases hs.visits_clear hc hM haU hp with h | h
  · exact ha ((hs p a).1 h).1
  · exact Finmap.lookup_eq_none.1 h hpt

variable [DecidableEq Node] {fuel : Nat} {s s' : HashRing Node}

/-- **Placing a node of `U` that is not a member into the ideal ring** gives the ideal ring with
it. -/
theorem addNodeWithoutSort_ideal {a : Node} (haU : a ∈ U) (hs : IdealOn c U s)
    (ha : a ∉ s.allNodes) (h : addNodeWithoutSort c fuel s a c.numReps = some s') :
    IdealOn c U s' := by
  obtain ⟨t', ht, rfl⟩ := Option.map_eq_some'.1 h
  rw [addLoop_clear c (hc.nonempty a haU) fuel 0 _
    (nodup_visitedPositions (hc.nonempty a haU) (hc.nodup a haU) fuel)
    (hs.ideal.visited_free hc hs.subset haU ha)] at ht
  split at ht
  · rename_i hstop
    cases ht
    refine ⟨fun p n => ?_, Finset.insert_subset haU hs.subset⟩
    rw [visitedPositions_eq_ideal (hc.nonempty a haU) hstop]
    simp only [lookup_insertAll, Finset.mem_insert]
    split_ifs with hp
    · refine ⟨fun e => ?_, fun ⟨hn, hpn⟩ => congrArg some
        (eq_of_mem_idealPositions hc haU (hn.elim (· ▸ haU) (hs.subset ·)) hp hpn)⟩
      cases e
      exact ⟨.inl rfl, hp⟩
    · rw [hs.ideal p n]
      refine ⟨fun ⟨hn, hpn⟩ => ⟨.inr hn, hpn⟩, fun ⟨hn, hpn⟩ => ⟨hn.resolve_left ?_, hpn⟩⟩
      rintro rfl
      exact hp hpn
  · cases ht

omit hc in
/-- After placing the first of distinct nodes that are not members, the others are still not. -/
theorem addNodeWithoutSort_fresh {a : Node} {nodes : List Node} (hnd : (a :: nodes).Nodup)
    (hnew : ∀ n ∈ a :: nodes, n ∉ s.allNodes) (h : addNodeWithoutSort c fuel s a c.numReps = some s') :
    ∀ n ∈ nodes, n ∉ s'.allNodes := fun n hn hn' => by
  rw [(addNodeWithoutSort_spec c h).2, Finset.mem_insert] at hn'
  exact hn'.elim (fun e => (List.nodup_cons.1 hnd).1 (e ▸ hn)) (hnew n (List.mem_cons_of_mem _ hn))

theorem foldlM_addNodeWithoutSort_ideal :
    ∀ {nodes : List Node} {s s' : HashRing Node}, nodes.Nodup → (∀ n ∈ nodes, n ∈ U) →
      (∀ n ∈ nodes, n ∉ s.allNodes) → IdealOn c U s →
      nodes.foldlM (fun s node => addNodeWithoutSort c fuel s node c.numReps) s = some s' →
      IdealOn c U s'
  | [], _, _, _, _, _, hs, h => by cases h; exact hs
  | a :: nodes, _, _, hnd, hU, hnew, hs, h => by
    obtain ⟨s₂, h₂, h⟩ := Option.bind_eq_some.1 h
    exact foldlM_addNodeWithoutSort_ideal (List.nodup_cons.1 hnd).2
      (fun n hn => hU n (List.mem_cons_of_mem _ hn)) (addNodeWithoutSort_fresh hnd hnew h₂)
      (addNodeWithoutSort_ideal hc (hU a (List.mem_cons_self _ _)) hs
        (hnew a (List.mem_cons_self _ _)) h₂) h

theorem addNoWeightNodes_ideal {nodes : List Node} (hnd : nodes.Nodup) (hU : ∀ n ∈ nodes, n ∈ U)
    (hnew : ∀ n ∈ nodes, n ∉ s.allNodes) (hs : IdealOn c U s)
    (h : addNoWeightNodes c fuel s nodes = some s') : IdealOn c U s' := by
  obtain ⟨s₁, h₁, rfl⟩ := Option.map_eq_some'.1 h
  exact (foldlM_addNodeWithoutSort_ideal hc hnd hU hnew hs h₁).updateSortedNodes

/-- **Removing nodes of `U` from the ideal ring** gives the ideal ring without them: each removal
loop meets only its own node's positions, which are its ideal ones. -/
theorem removeNoWeightNodes_ideal {nodes : List Node} (hU : ∀ x ∈ nodes, x ∈ U)
    (hs : IdealOn c U s) (h : removeNoWeightNodes c fuel s nodes = some s') : IdealOn c U s' := by
  rw [removeNoWeightNodes, foldlM_removeNoWeightNode_clear c nodes s
    (fun x hx => hc.nonempty x (hU x hx))
    fun x hx p hp => hs.ideal.visits_clear hc hs.subset (hU x hx) hp] at h
  split at h
  · rename_i hstop
    cases h
    have hV : ∀ x ∈ nodes, visitedPositions c x fuel 0 c.numReps = idealPositions c x :=
      fun x hx => visitedPositions_eq_ideal (hc.nonempty x (hU x hx)) (List.all_eq_true.1 hstop x hx)
    refine ⟨fun p n => ?_, Finset.sdiff_subset.trans hs.subset⟩
    simp only [updateSortedNodes_nodeByKey, updateSortedNodes_allNodes, lookup_eraseAll,
      List.mem_flatMap, Finset.mem_sdiff, List.mem_toFinset]
    split_ifs with hp
    · -- An erased position is one a removed node owns, so no member's.
      obtain ⟨x, hx, hpx⟩ := hp
      rw [hV x hx] at hpx
      exact iff_of_false id fun ⟨⟨hn, hnx⟩, hpn⟩ =>
        hnx (eq_of_mem_idealPositions hc (hU x hx) (hs.subset hn) hpx hpn ▸ hx)
    · rw [hs.ideal p n]
      refine ⟨fun ⟨hn, hpn⟩ => ⟨⟨hn, fun hnx => hp ⟨n, hnx, (hV n hnx).symm ▸ hpn⟩⟩, hpn⟩,
        fun ⟨⟨hn, _⟩, hpn⟩ => ⟨hn, hpn⟩⟩
  · cases h

end Separated

variable [DecidableEq Node] {fuel : Nat} {s s' : HashRing Node}

omit [DecidableEq Node] in
variable (c) in
/-- A node `SetNodes` adds is the same as no member left, so is not one. -/
theorem not_mem_of_toBeAdded {s₁ : HashRing Node} {ns : List Node} {n : Node}
    (hn : n ∈ ns.filter fun k => !decide (∃ v ∈ s₁.allNodes, c.isSameNode k v)) :
    n ∉ s₁.allNodes := fun hn₁ => by
  simp only [List.mem_filter, Bool.not_eq_true', decide_eq_false_iff_not] at hn
  exact hn.2 ⟨n, hn₁, c.isSameNode_self n⟩

theorem setNoWeightNodes_ideal {U : Finset Node} (hc : c.SeparatedOn U)
    {enum : Finset Node → List Node} (he : IsMapOrder enum) {ns : List Node} (hnd : ns.Nodup)
    (hU : ∀ n ∈ ns, n ∈ U) (hs : IdealOn c U s) (h : setNoWeightNodes c fuel enum s ns = some s') :
    IdealOn c U s' := by
  simp only [setNoWeightNodes] at h
  split at h
  · obtain ⟨s₁, h₁, h⟩ := Option.bind_eq_some.1 h
    cases h₁
    exact addNoWeightNodes_ideal hc (hnd.filter _) (fun n hn => hU n (List.mem_of_mem_filter hn))
      (fun _ => not_mem_of_toBeAdded c) (idealOn_empty U) h
  · obtain ⟨s₁, h₁, h⟩ := Option.bind_eq_some.1 h
    exact addNoWeightNodes_ideal hc (hnd.filter _) (fun n hn => hU n (List.mem_of_mem_filter hn))
      (fun _ => not_mem_of_toBeAdded c)
      (removeNoWeightNodes_ideal hc (fun x hx => hs.subset (he.mem_iff.1 (List.mem_of_mem_filter hx)))
        hs h₁) h

/-- The nodes a call is given. -/
def Op.nodes : Op Node → List Node
  | .addNodes ns | .setNodes ns | .removeNodes ns => ns
  | .removeAllNodes => []

/-- A call that places no node twice: `AddNodes` gets distinct nodes none of which is a member,
and `SetNodes` distinct nodes. -/
def Op.Fresh (s : HashRing Node) : Op Node → Prop
  | .addNodes ns => ns.Nodup ∧ ∀ n ∈ ns, n ∉ s.allNodes
  | .setNodes ns => ns.Nodup
  | _ => True

/-- A fresh call given nodes of `U` only. -/
def Op.FreshIn (U : Finset Node) (s : HashRing Node) (op : Op Node) : Prop :=
  (∀ n ∈ op.nodes, n ∈ U) ∧ op.Fresh s

/-- A call's members were members before it or are nodes it was given, in either mode. -/
theorem Op.run_allNodes_subset {op : Op Node} {enum : Finset Node → List Node}
    (he : IsMapOrder enum) (h : op.run c fuel enum s = some s') :
    s'.allNodes ⊆ s.allNodes ∪ op.nodes.toFinset := by
  cases op with
  | addNodes ns => exact (addNodes_allNodes c he h).le
  | setNodes ns =>
    simp only [Op.run, Hashring.setNodes, Op.nodes] at h ⊢
    split at h
    · rw [(setWeightNodes_spec c h).2]
      exact Finset.subset_union_right
    · -- `SetNodes` adds elements of `ns` to what its first phase leaves of the members.
      have hadd : ∀ {s₁ : HashRing Node}, s₁.allNodes ⊆ s.allNodes →
          addNoWeightNodes c fuel s₁
            (ns.filter fun k => !decide (∃ v ∈ s₁.allNodes, c.isSameNode k v)) = some s' →
          s'.allNodes ⊆ s.allNodes ∪ ns.toFinset := fun hs₁ h => by
        rw [(addNoWeightNodes_spec c h).2]
        exact Finset.union_subset_union hs₁ fun n hn =>
          List.mem_toFinset.2 (List.mem_of_mem_filter (List.mem_toFinset.1 hn))
      simp only [setNoWeightNodes] at h
      split at h
      · obtain ⟨s₁, h₁, h⟩ := Option.bind_eq_some.1 h
        cases h₁
        exact hadd (Finset.empty_subset _) h
      · obtain ⟨s₁, h₁, h⟩ := Option.bind_eq_some.1 h
        exact hadd (by rw [(removeNoWeightNodes_spec c h₁).2]; exact Finset.sdiff_subset) h
  | removeNodes ns =>
    simp only [Op.run, Hashring.removeNodes, removeWeightNodes, getAllNodes, foldl_erase_eq_sdiff] at h
    refine subset_trans ?_ Finset.subset_union_left
    split at h
    · rw [(setWeightNodes_spec c h).2, he.toFinset_eq]
      exact Finset.sdiff_subset
    · rw [(removeNoWeightNodes_spec c h).2]
      exact Finset.sdiff_subset
  | removeAllNodes =>
    cases h
    exact Finset.empty_subset _

section Fresh

variable {U : Finset Node}

/-- The members of a state fresh calls on nodes of `U` reach are nodes of `U`, in either mode. -/
theorem ReachableVia.allNodes_subset (h : ReachableVia c (Op.FreshIn U) s) : s.allNodes ⊆ U := by
  induction h with
  | refl => exact Finset.empty_subset _
  | tail _ hst ih =>
    obtain ⟨op, fuel, enum, he, hf, hr⟩ := hst
    exact (Op.run_allNodes_subset he hr).trans
      (Finset.union_subset ih fun n hn => hf.1 n (List.mem_toFinset.1 hn))

variable (hw : c.isWeighted = false) (hc : c.SeparatedOn U)
include hw hc

/-- **Every fresh call on nodes of `U` keeps the ideal ring**, in unweighted mode. -/
theorem Op.run_ideal {op : Op Node} {enum : Finset Node → List Node} (he : IsMapOrder enum)
    (hf : op.FreshIn U s) (h : op.run c fuel enum s = some s') (hs : IdealOn c U s) :
    IdealOn c U s' := by
  cases op with
  | addNodes nodes =>
    simp only [Op.run, Hashring.addNodes, hw, Bool.false_eq_true, if_false] at h
    exact addNoWeightNodes_ideal hc hf.2.1 hf.1 hf.2.2 hs h
  | setNodes nodes =>
    simp only [Op.run, Hashring.setNodes, hw, Bool.false_eq_true, if_false] at h
    exact setNoWeightNodes_ideal hc he hf.2 hf.1 hs h
  | removeNodes nodes =>
    simp only [Op.run, Hashring.removeNodes, hw, Bool.false_eq_true, if_false] at h
    exact removeNoWeightNodes_ideal hc hf.1 hs h
  | removeAllNodes =>
    cases h
    exact idealOn_empty U

theorem ReachableVia.idealOn (h : ReachableVia c (Op.FreshIn U) s) : IdealOn c U s := by
  induction h with
  | refl => exact idealOn_empty U
  | tail _ hst ih =>
    obtain ⟨op, fuel, enum, he, hf, hr⟩ := hst
    exact Op.run_ideal hw hc he hf hr ih

omit [DecidableEq Node] hw hc in
/-- Two tables that are the ideal ring of the same members are equal. -/
theorem IdealRing.unique {M : Finset Node} {t t' : Table Node} (h : IdealRing c M t)
    (h' : IdealRing c M t') : t = t' :=
  Finmap.ext_lookup fun p => Option.ext fun n => (h p n).trans (h' p n).symm

/-- Two states fresh calls on nodes of `U` reach with the same members are equal. -/
theorem ReachableVia.ext (h : ReachableVia c (Op.FreshIn U) s)
    (h' : ReachableVia c (Op.FreshIn U) s') (ha : s.allNodes = s'.allNodes) : s = s' :=
  ((h.reachable c).repInv c).ext ((h'.reachable c).repInv c)
    ((h.idealOn hw hc).ideal.unique (ha ▸ (h'.idealOn hw hc).ideal)) ha

end Fresh

/-- `plainRing` is reached by one fresh call on nodes of `{1, 2, 3}`. -/
theorem plainRing_reachable : ReachableVia (Config.plain 2) (Op.FreshIn {1, 2, 3}) plainRing :=
  .single ⟨.addNodes [1, 2], 4, ascending, isMapOrder_ascending, ⟨by decide, by decide, by decide⟩,
    rfl⟩

/-- **Without double placements the table is the ideal ring of the members.** In unweighted
mode, for nodes of a finite set `U` that never meet below `numReps`, every state that calls
placing no node twice and given nodes of `U` only reach from `New` has each member owning exactly
the positions its calls derive up to the bound test, and no other position in its table. -/
theorem fresh_reachable_ideal {U : Finset Node} (hw : c.isWeighted = false) (hc : c.SeparatedOn U)
    (h : ReachableVia c (Op.FreshIn U) s) :
    ∀ p n, s.nodeByKey.lookup p = some n ↔ n ∈ s.allNodes ∧ p ∈ idealPositions c n :=
  (h.idealOn hw hc).ideal

theorem fresh_reachable_ideal_plainRing :
    plainRing.nodeByKey.lookup 100 = some 1 ↔
      1 ∈ plainRing.allNodes ∧ 100 ∈ idealPositions (Config.plain 2) 1 :=
  fresh_reachable_ideal rfl separatedOn_plain plainRing_reachable 100 1

/-- **The ring depends only on its members.** In unweighted mode, for nodes of a finite set `U`
that never meet below `numReps`, any two states that calls placing no node twice and given nodes
of `U` only reach from `New` with the same members are the same ring: the same table, the same
members and the same `sortedKeys`. -/
theorem fresh_reachable_history_free {U : Finset Node} (hw : c.isWeighted = false)
    (hc : c.SeparatedOn U) (h : ReachableVia c (Op.FreshIn U) s)
    (h' : ReachableVia c (Op.FreshIn U) s') (ha : s.allNodes = s'.allNodes) : s = s' :=
  h.ext hw hc h' ha

theorem fresh_reachable_history_free_plainRing :
    plainRing =
      (runOps (Config.plain 2) 4 descending .empty [.addNodes [2], .addNodes [1]]).getD .empty :=
  fresh_reachable_history_free rfl separatedOn_plain plainRing_reachable
    ((show ReachableVia (Config.plain 2) (Op.FreshIn {1, 2, 3})
        ((addNodes (Config.plain 2) 4 descending .empty [2]).getD .empty) from
      .single ⟨.addNodes [2], 4, descending, isMapOrder_descending,
        ⟨by decide, by decide, by decide⟩, rfl⟩).tail
      ⟨.addNodes [1], 4, descending, isMapOrder_descending, ⟨by decide, by decide, by decide⟩, rfl⟩)
    (by decide)

section Get

variable [Inhabited Node] (hr : RepInv s) (hI : IdealRing c s.allNodes s.nodeByKey) (key : String)
include hr hI

/-- On the ideal ring `Get` finds a node whenever the members have ideal positions. -/
theorem IdealRing.get_found (hne : idealKeys c s.allNodes ≠ ∅) : ∃ n, get c s key = some (n, true) := by
  have hne' : s.nodeByKey ≠ ∅ := fun h0 => hne (by rw [← hI.keys_eq, h0, Finmap.keys_empty])
  obtain ⟨p, n, hp, hn⟩ := exists_isSuccessor hr hne' (c.getHashKey key)
  exact ⟨n, get_of_isSuccessor c hr hp hn⟩

/-- On the ideal ring `Get` finds the member owning the successor of the key's hash among the
members' ideal positions. -/
theorem IdealRing.get_eq_some_iff (n : Node) :
    get c s key = some (n, true) ↔ n ∈ s.allNodes ∧
      ∃ p ∈ idealPositions c n, IsSuccessor (idealKeys c s.allNodes) (c.getHashKey key) p := by
  have hk := hI.keys_eq
  constructor
  · intro h
    obtain ⟨p, hp, hn⟩ := get_eq_found c hr h
    obtain ⟨hnM, hpn⟩ := (hI p n).1 hn
    exact ⟨hnM, p, hpn, hk ▸ hp⟩
  · rintro ⟨hn, p, hpn, hp⟩
    exact get_of_isSuccessor c hr (hk ▸ hp) ((hI p n).2 ⟨hn, hpn⟩)

end Get

/-- **`Get` answers as the ideal ring of the members does.** In unweighted mode, for nodes of a
finite set `U` that never meet below `numReps`, in every state that calls placing no node twice
and given nodes of `U` only reach from `New`: `Get(key)` finds no node when the members' ideal
positions are none, finds one otherwise, and the node it finds is the member whose ideal position
is the first at or after the key's hash, wrapping around to the smallest. -/
theorem fresh_get_ideal [Inhabited Node] {U : Finset Node} (hw : c.isWeighted = false)
    (hc : c.SeparatedOn U) (hs : ReachableVia c (Op.FreshIn U) s) (key : String) :
    (idealKeys c s.allNodes = ∅ → get c s key = some (default, false)) ∧
      (idealKeys c s.allNodes ≠ ∅ → ∃ n, get c s key = some (n, true)) ∧
      ∀ n, get c s key = some (n, true) ↔ n ∈ s.allNodes ∧
        ∃ p ∈ idealPositions c n, IsSuccessor (idealKeys c s.allNodes) (c.getHashKey key) p := by
  have hI := (hs.idealOn hw hc).ideal
  have hr := (hs.reachable c).repInv c
  refine ⟨fun he => get_of_empty c ?_ key, hI.get_found hr key, hI.get_eq_some_iff hr key⟩
  exact Finmap.ext_lookup fun p => by
    rw [Finmap.lookup_empty, Finmap.lookup_eq_none, ← Finmap.mem_keys, hI.keys_eq, he]
    exact Finset.not_mem_empty p

theorem fresh_get_ideal_plainRing :
    (idealKeys (Config.plain 2) plainRing.allNodes = ∅ →
        get (Config.plain 2) plainRing "k" = some (default, false)) ∧
      (idealKeys (Config.plain 2) plainRing.allNodes ≠ ∅ →
        ∃ n, get (Config.plain 2) plainRing "k" = some (n, true)) ∧
      ∀ n, get (Config.plain 2) plainRing "k" = some (n, true) ↔ n ∈ plainRing.allNodes ∧
        ∃ p ∈ idealPositions (Config.plain 2) n,
          IsSuccessor (idealKeys (Config.plain 2) plainRing.allNodes)
            ((Config.plain 2).getHashKey "k") p :=
  fresh_get_ideal rfl separatedOn_plain plainRing_reachable "k"

/-- On the ideal ring a member owns exactly its ideal positions. -/
theorem IdealRing.owned_eq {M : Finset Node} {t : Table Node} (h : IdealRing c M t) {m : Node}
    (hm : m ∈ M) : owned t m = (idealPositions c m).toFinset := by
  ext p
  rw [owned, Finset.mem_filter, Finmap.mem_keys, List.mem_toFinset, h p m]
  exact ⟨fun h' => h'.2.2, fun hp => ⟨Finmap.mem_of_lookup_eq_some ((h p m).2 ⟨hm, hp⟩), hm, hp⟩⟩

/-- **Every member owns exactly `numReps` positions when every call derives one.** In unweighted
mode, for nodes of a finite set `U` that never meet below `numReps` and each of whose calls there
derives one position, every state that calls placing no node twice and given nodes of `U` only
reach from `New` gives each member exactly `numReps` positions, and `sortedKeys` holds `numReps`
positions per member. -/
theorem fresh_balanced {U : Finset Node} (hw : c.isWeighted = false) (hc : c.SeparatedOn U)
    (hone : ∀ n ∈ U, ∀ i < c.numReps, (c.getIterateHashKeyForNode n i).length = 1)
    (hs : ReachableVia c (Op.FreshIn U) s) :
    (∀ m ∈ s.allNodes, (owned s.nodeByKey m).card = c.numReps) ∧
      s.sortedKeys.length = s.allNodes.card * c.numReps := by
  have hI := hs.idealOn hw hc
  have hcard : ∀ m ∈ s.allNodes, (idealPositions c m).toFinset.card = c.numReps := fun m hm => by
    rw [List.toFinset_card_of_nodup (hc.nodup m (hI.subset hm)),
      idealPositions_length_single (hone m (hI.subset hm))]
  refine ⟨fun m hm => hI.ideal.owned_eq hm ▸ hcard m hm, ?_⟩
  rw [((hs.reachable c).repInv c).length_eq, hI.ideal.keys_eq, idealKeys, Finset.card_biUnion,
    Finset.sum_const_nat hcard]
  -- Different members' ideal positions are disjoint.
  exact fun a ha b hb hab => Finset.disjoint_left.2 fun p hpa hpb =>
    hab (eq_of_mem_idealPositions hc (hI.subset ha) (hI.subset hb) (List.mem_toFinset.1 hpa)
      (List.mem_toFinset.1 hpb))

theorem fresh_balanced_plainRing :
    (∀ m ∈ plainRing.allNodes, (owned plainRing.nodeByKey m).card = (Config.plain 2).numReps) ∧
      plainRing.sortedKeys.length = plainRing.allNodes.card * (Config.plain 2).numReps :=
  fresh_balanced rfl separatedOn_plain (fun _ _ _ _ => rfl) plainRing_reachable

end Hashring
