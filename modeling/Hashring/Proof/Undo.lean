import Hashring.Proof.Churn
import Hashring.Proof.Ideal

/-!
# Without double placements, calls return and undo each other

`RemoveNodes(n)` after `AddNodes(n)` can return a ring other than the one `AddNodes` started
from (`addNodes_removeNodes_not_restored`): a collision moves a placement along its node's calls,
and the removal loop, meeting other positions, stops elsewhere. Where nothing collides, for
nodes of a finite set `U` that never meet below `numReps` and from a state reached by calls that
place no node twice and are given nodes of `U` only, every such call returns once the fuel
exceeds `numReps`, and the calls compose as a set of members would:

* `chainStops_of_lt`: with more fuel than `numReps`, a loop that meets nothing stops;
* `addNoWeightNodes_isSome`, `removeNoWeightNodes_isSome`, `setNoWeightNodes_isSome`: so placing
  distinct nodes that are not members, removing any nodes and `SetNodes` of distinct nodes return;
* the ring each call returns is reached by fresh calls, so it is the one ring with its members
  (`ReachableVia.ext`). Hence `AddNodes` and `RemoveNodes` undo each other in either order
  (`fresh_add_remove_undo`), and `SetNodes(ns)` returns the ring `AddNodes(ns)` builds from `New`,
  whatever state it is called from (`fresh_setNodes_resets`).

So here `SetNodes` moves no key between two nodes it keeps, on either branch
(`fresh_setNodes_churn`); the full clear moves one only after a collision
(`setNodes_moves_kept_node`).
-/

namespace Hashring

variable {Node : Type} [DecidableEq Node] {c : Config Node} {fuel : Nat} {s s' : HashRing Node}
  {U : Finset Node}

section Returns

variable (hc : c.SeparatedOn U) (hfuel : c.numReps < fuel)
include hc hfuel

/-- With more fuel than `numReps`, placing a node of `U` that is not a member into the ideal ring
returns. -/
theorem addNodeWithoutSort_isSome {a : Node} (haU : a ∈ U) (hs : IdealOn c U s)
    (ha : a ∉ s.allNodes) : (addNodeWithoutSort c fuel s a c.numReps).isSome := by
  rw [addNodeWithoutSort, Option.isSome_map', addLoop_clear c (hc.nonempty a haU) fuel 0 _
    (nodup_visitedPositions (hc.nonempty a haU) (hc.nodup a haU) fuel)
    (hs.ideal.visited_free hc hs.subset haU ha),
    if_pos (chainStops_of_lt c (hc.nonempty a haU) hfuel)]
  rfl

theorem foldlM_addNodeWithoutSort_isSome :
    ∀ {nodes : List Node} {s : HashRing Node}, nodes.Nodup → (∀ n ∈ nodes, n ∈ U) →
      (∀ n ∈ nodes, n ∉ s.allNodes) → IdealOn c U s →
      (nodes.foldlM (fun s node => addNodeWithoutSort c fuel s node c.numReps) s).isSome
  | [], _, _, _, _, _ => rfl
  | a :: nodes, s, hnd, hU, hnew, hs => by
    have ha := hnew a (List.mem_cons_self _ _)
    have haU := hU a (List.mem_cons_self _ _)
    obtain ⟨s₂, h₂⟩ := Option.isSome_iff_exists.1 (addNodeWithoutSort_isSome hc hfuel haU hs ha)
    rw [List.foldlM_cons, h₂, Option.bind_eq_bind, Option.some_bind]
    exact foldlM_addNodeWithoutSort_isSome (List.nodup_cons.1 hnd).2
      (fun n hn => hU n (List.mem_cons_of_mem _ hn)) (addNodeWithoutSort_fresh hnd hnew h₂)
      (addNodeWithoutSort_ideal hc haU hs ha h₂)

/-- **Placing distinct nodes of `U` that are not members into the ideal ring returns** once the
fuel exceeds `numReps`. -/
theorem addNoWeightNodes_isSome {nodes : List Node} (hnd : nodes.Nodup) (hU : ∀ n ∈ nodes, n ∈ U)
    (hnew : ∀ n ∈ nodes, n ∉ s.allNodes) (hs : IdealOn c U s) :
    (addNoWeightNodes c fuel s nodes).isSome := by
  rw [addNoWeightNodes, Option.isSome_map']
  exact foldlM_addNodeWithoutSort_isSome hc hfuel hnd hU hnew hs

/-- **Removing nodes of `U` from the ideal ring returns** once the fuel exceeds `numReps`: no
removal loop meets another node's position. -/
theorem removeNoWeightNodes_isSome {nodes : List Node} (hU : ∀ x ∈ nodes, x ∈ U)
    (hs : IdealOn c U s) : (removeNoWeightNodes c fuel s nodes).isSome := by
  rw [removeNoWeightNodes, Option.isSome_map', foldlM_removeNoWeightNode_clear c nodes s
    (fun x hx => hc.nonempty x (hU x hx))
    fun x hx p hp => hs.ideal.visits_clear hc hs.subset (hU x hx) hp,
    if_pos (List.all_eq_true.2 fun x hx => chainStops_of_lt c (hc.nonempty x (hU x hx)) hfuel)]
  rfl

/-- **`SetNodes` of distinct nodes of `U` on the ideal ring returns** once the fuel exceeds
`numReps`, on either branch. -/
theorem setNoWeightNodes_isSome {enum : Finset Node → List Node} (he : IsMapOrder enum)
    {ns : List Node} (hnd : ns.Nodup) (hU : ∀ n ∈ ns, n ∈ U) (hs : IdealOn c U s) :
    (setNoWeightNodes c fuel enum s ns).isSome := by
  have hadd : ∀ {s₁ : HashRing Node}, IdealOn c U s₁ → (addNoWeightNodes c fuel s₁
      (ns.filter fun k => !decide (∃ v ∈ s₁.allNodes, c.isSameNode k v))).isSome := fun hs₁ =>
    addNoWeightNodes_isSome hc hfuel (hnd.filter _) (fun n hn => hU n (List.mem_of_mem_filter hn))
      (fun _ => not_mem_of_toBeAdded c) hs₁
  have hrem : ∀ x ∈ (enum s.allNodes).filter (fun k => !ns.any (c.isSameNode k)), x ∈ U :=
    fun x hx => hs.subset (he.mem_iff.1 (List.mem_of_mem_filter hx))
  simp only [setNoWeightNodes]
  split
  · exact hadd (idealOn_empty U)
  · obtain ⟨s₁, h₁⟩ := Option.isSome_iff_exists.1 (removeNoWeightNodes_isSome hc hfuel hrem hs)
    rw [h₁, Option.bind_eq_bind, Option.some_bind]
    exact hadd (removeNoWeightNodes_ideal hc hrem hs h₁)

end Returns

section Steps

variable (hw : c.isWeighted = false) {enum : Finset Node → List Node} (he : IsMapOrder enum)
  {ns : List Node} (hs : ReachableVia c (Op.FreshIn U) s) (hU : ∀ n ∈ ns, n ∈ U)
include hw he hs hU

theorem ReachableVia.addNoWeightNodes (hnd : ns.Nodup) (hnew : ∀ n ∈ ns, n ∉ s.allNodes)
    (h : addNoWeightNodes c fuel s ns = some s') : ReachableVia c (Op.FreshIn U) s' :=
  hs.tail ⟨.addNodes ns, fuel, enum, he, ⟨hU, hnd, hnew⟩,
    by simpa only [Op.run, addNodes, hw, Bool.false_eq_true, if_false] using h⟩

theorem ReachableVia.removeNoWeightNodes (h : removeNoWeightNodes c fuel s ns = some s') :
    ReachableVia c (Op.FreshIn U) s' :=
  hs.tail ⟨.removeNodes ns, fuel, enum, he, ⟨hU, trivial⟩,
    by simpa only [Op.run, removeNodes, hw, Bool.false_eq_true, if_false] using h⟩

theorem ReachableVia.setNoWeightNodes (hnd : ns.Nodup)
    (h : setNoWeightNodes c fuel enum s ns = some s') : ReachableVia c (Op.FreshIn U) s' :=
  hs.tail ⟨.setNodes ns, fuel, enum, he, ⟨hU, hnd⟩,
    by simpa only [Op.run, setNodes, hw, Bool.false_eq_true, if_false] using h⟩

end Steps

/-- **Without double placements, adding and removing undo each other.** In unweighted mode, for
nodes of a finite set `U` that never meet below `numReps`, from every state that calls placing no
node twice and given nodes of `U` only reach from `New`, with more fuel than `numReps`, for
distinct nodes `ns` of `U`: when none of them is a member, `AddNodes(ns)` returns and
`RemoveNodes(ns)` after it returns the state `AddNodes` started from; when all of them are
members, `RemoveNodes(ns)` returns and `AddNodes(ns)` after it returns the state `RemoveNodes`
started from. -/
theorem fresh_add_remove_undo (hw : c.isWeighted = false) (hc : c.SeparatedOn U)
    (hs : ReachableVia c (Op.FreshIn U) s) {enum : Finset Node → List Node} (he : IsMapOrder enum)
    (hfuel : c.numReps < fuel) {ns : List Node} (hnd : ns.Nodup) (hU : ∀ n ∈ ns, n ∈ U) :
    ((∀ n ∈ ns, n ∉ s.allNodes) →
      ∃ s₁, addNodes c fuel enum s ns = some s₁ ∧ removeNodes c fuel enum s₁ ns = some s) ∧
    ((∀ n ∈ ns, n ∈ s.allNodes) →
      ∃ s₁, removeNodes c fuel enum s ns = some s₁ ∧ addNodes c fuel enum s₁ ns = some s) := by
  simp only [addNodes, removeNodes, hw, Bool.false_eq_true, if_false]
  have hI := hs.idealOn hw hc
  refine ⟨fun hnew => ?_, fun hmem => ?_⟩
  · obtain ⟨s₁, h₁⟩ := Option.isSome_iff_exists.1 (addNoWeightNodes_isSome hc hfuel hnd hU hnew hI)
    have hs₁ := hs.addNoWeightNodes hw he hU hnd hnew h₁
    obtain ⟨s₂, h₂⟩ := Option.isSome_iff_exists.1
      (removeNoWeightNodes_isSome hc hfuel hU (hs₁.idealOn hw hc))
    -- `(M ∪ ns) \ ns = M`: the removal takes back exactly the members the addition made.
    have ha : s₂.allNodes = s.allNodes := by
      rw [(removeNoWeightNodes_spec c h₂).2, (addNoWeightNodes_spec c h₁).2]
      exact Finset.union_sdiff_cancel_right
        (Finset.disjoint_right.2 fun n hn => hnew n (List.mem_toFinset.1 hn))
    exact ⟨s₁, h₁, h₂.trans (congrArg some ((hs₁.removeNoWeightNodes hw he hU h₂).ext hw hc hs ha))⟩
  · obtain ⟨s₁, h₁⟩ := Option.isSome_iff_exists.1 (removeNoWeightNodes_isSome hc hfuel hU hI)
    have hs₁ := hs.removeNoWeightNodes hw he hU h₁
    have hnew : ∀ n ∈ ns, n ∉ s₁.allNodes := fun n hn => by
      rw [(removeNoWeightNodes_spec c h₁).2, Finset.mem_sdiff, List.mem_toFinset]
      exact fun h => h.2 hn
    obtain ⟨s₂, h₂⟩ := Option.isSome_iff_exists.1
      (addNoWeightNodes_isSome hc hfuel hnd hU hnew (hs₁.idealOn hw hc))
    -- `(M \ ns) ∪ ns = M`: the addition puts back exactly the members the removal took.
    have ha : s₂.allNodes = s.allNodes := by
      rw [(addNoWeightNodes_spec c h₂).2, (removeNoWeightNodes_spec c h₁).2]
      exact Finset.sdiff_union_of_subset fun n hn => hmem n (List.mem_toFinset.1 hn)
    exact ⟨s₁, h₁,
      h₂.trans (congrArg some ((hs₁.addNoWeightNodes hw he hU hnd hnew h₂).ext hw hc hs ha))⟩

theorem fresh_add_remove_undo_plainRing :
    ∃ s₁, addNodes (Config.plain 2) 3 ascending plainRing [3] = some s₁ ∧
      removeNodes (Config.plain 2) 3 ascending s₁ [3] = some plainRing :=
  (fresh_add_remove_undo rfl separatedOn_plain plainRing_reachable isMapOrder_ascending
    (by decide) (by decide) (by decide)).1 (by decide)

omit [DecidableEq Node] in
variable (c) in
/-- Sets of nodes of `U` with the same formatter keys are the same sets, when the formatter tells
the nodes of `U` apart. -/
theorem subset_of_image_nodeKey (hinj : ∀ a ∈ U, ∀ b ∈ U, c.nodeKey a = c.nodeKey b → a = b)
    {A B : Finset Node} (hA : A ⊆ U) (hB : B ⊆ U) (h : A.image c.nodeKey = B.image c.nodeKey) :
    A ⊆ B := fun x hx => by
  obtain ⟨y, hy, hxy⟩ := Finset.mem_image.1 (h ▸ Finset.mem_image_of_mem c.nodeKey hx)
  exact hinj y (hB hy) x (hA hx) hxy ▸ hy

/-- After `SetNodes(ns)` from a state fresh calls on nodes of `U` reach, the members are exactly
`ns`, when the formatter tells the nodes of `U` apart. -/
theorem setNoWeightNodes_allNodes_eq (hinj : ∀ a ∈ U, ∀ b ∈ U, c.nodeKey a = c.nodeKey b → a = b)
    {enum : Finset Node → List Node} (he : IsMapOrder enum) {ns : List Node} (hU : ∀ n ∈ ns, n ∈ U)
    (hs₁ : ReachableVia c (Op.FreshIn U) s') (h : setNoWeightNodes c fuel enum s ns = some s') :
    s'.allNodes = ns.toFinset := by
  have hkeys := setNoWeightNodes_nodeKeys c he h
  have hnsU : ns.toFinset ⊆ U := fun n hn => hU n (List.mem_toFinset.1 hn)
  exact (subset_of_image_nodeKey c hinj hs₁.allNodes_subset hnsU hkeys).antisymm
    (subset_of_image_nodeKey c hinj hnsU hs₁.allNodes_subset hkeys.symm)

/-- **`SetNodes` resets the ring.** In unweighted mode, for nodes of a finite set `U` that never
meet below `numReps` and that the formatter tells apart, from every state that calls placing no
node twice and given nodes of `U` only reach from `New`, with more fuel than `numReps`, for
distinct nodes `ns` of `U`: `SetNodes(ns)` returns, and returns the ring `AddNodes(ns)` builds
from `New`, whatever the state it is called from. -/
theorem fresh_setNodes_resets (hw : c.isWeighted = false) (hc : c.SeparatedOn U)
    (hinj : ∀ a ∈ U, ∀ b ∈ U, c.nodeKey a = c.nodeKey b → a = b)
    (hs : ReachableVia c (Op.FreshIn U) s) {enum : Finset Node → List Node} (he : IsMapOrder enum)
    (hfuel : c.numReps < fuel) {ns : List Node} (hnd : ns.Nodup) (hU : ∀ n ∈ ns, n ∈ U) :
    ∃ s₁, setNodes c fuel enum s ns = some s₁ ∧ addNodes c fuel enum .empty ns = some s₁ := by
  simp only [setNodes, addNodes, hw, Bool.false_eq_true, if_false]
  obtain ⟨s₁, h₁⟩ := Option.isSome_iff_exists.1
    (setNoWeightNodes_isSome hc hfuel he hnd hU (hs.idealOn hw hc))
  have hnew : ∀ n ∈ ns, n ∉ (HashRing.empty : HashRing Node).allNodes :=
    fun n _ => Finset.not_mem_empty n
  obtain ⟨s₂, h₂⟩ := Option.isSome_iff_exists.1
    (addNoWeightNodes_isSome hc hfuel hnd hU hnew (idealOn_empty U))
  have hs₁ := hs.setNoWeightNodes hw he hU hnd h₁
  -- Both rings have the members `ns`, as the formatter tells nodes apart.
  have ha : s₂.allNodes = s₁.allNodes := by
    rw [(addNoWeightNodes_spec c h₂).2, HashRing.empty, Finset.empty_union,
      setNoWeightNodes_allNodes_eq hinj he hU hs₁ h₁]
  exact ⟨s₁, h₁, h₂.trans (congrArg some
    ((ReachableVia.addNoWeightNodes hw he .refl hU hnd hnew h₂).ext hw hc hs₁ ha))⟩

theorem fresh_setNodes_resets_plainRing :
    ∃ s₁, setNodes (Config.plain 2) 3 ascending plainRing [2, 3] = some s₁ ∧
      addNodes (Config.plain 2) 3 ascending .empty [2, 3] = some s₁ :=
  fresh_setNodes_resets rfl separatedOn_plain (by decide) plainRing_reachable isMapOrder_ascending
    (by decide) (by decide) (by decide)

/-- **Without collisions `SetNodes` moves no key between kept nodes**, on either branch. In
unweighted mode, for nodes of a finite set `U` that never meet below `numReps` and that the
formatter tells apart, from every state that calls placing no node twice and given nodes of `U`
only reach from `New`, with more fuel than `numReps`, for distinct nodes `ns` of `U`:
`SetNodes(ns)` returns, and a key `Get` resolved to an element of `ns` resolves afterwards to that
node or to an element of `ns` that was not a member. -/
theorem fresh_setNodes_churn [Inhabited Node] (hw : c.isWeighted = false) (hc : c.SeparatedOn U)
    (hinj : ∀ a ∈ U, ∀ b ∈ U, c.nodeKey a = c.nodeKey b → a = b)
    (hs : ReachableVia c (Op.FreshIn U) s) {enum : Finset Node → List Node} (he : IsMapOrder enum)
    (hfuel : c.numReps < fuel) {ns : List Node} (hnd : ns.Nodup) (hU : ∀ n ∈ ns, n ∈ U) :
    ∃ s₁, setNodes c fuel enum s ns = some s₁ ∧ ∀ key n, get c s key = some (n, true) → n ∈ ns →
      get c s₁ key = some (n, true) ∨ ∃ m ∈ ns, m ∉ s.allNodes ∧ get c s₁ key = some (m, true) := by
  simp only [setNodes, hw, Bool.false_eq_true, if_false]
  have hI := hs.idealOn hw hc
  obtain ⟨s₁, h₁⟩ := Option.isSome_iff_exists.1 (setNoWeightNodes_isSome hc hfuel he hnd hU hI)
  have hs₁ := hs.setNoWeightNodes hw he hU hnd h₁
  have hI₁ := (hs₁.idealOn hw hc).ideal
  have hr₁ := (hs₁.reachable c).repInv c
  -- The members afterwards are `ns`, as the formatter tells nodes apart.
  have hmem : ∀ m, m ∈ s₁.allNodes ↔ m ∈ ns := fun m => by
    rw [setNoWeightNodes_allNodes_eq hinj he hU hs₁ h₁, List.mem_toFinset]
  refine ⟨s₁, h₁, fun key n hget hn => ?_⟩
  obtain ⟨-, p, hpn, hp⟩ := (hI.ideal.get_eq_some_iff ((hs.reachable c).repInv c) key n).1 hget
  have hpN : p ∈ idealKeys c s₁.allNodes :=
    Finset.mem_biUnion.2 ⟨n, (hmem n).2 hn, List.mem_toFinset.2 hpn⟩
  obtain ⟨m, hm⟩ := hI₁.get_found hr₁ key (Finset.ne_empty_of_mem hpN)
  obtain ⟨hmN, q, hqm, hq⟩ := (hI₁.get_eq_some_iff hr₁ key m).1 hm
  by_cases hmM : m ∈ s.allNodes
  · -- A kept node's position is in both rings, so the two successors are one position.
    have hqM : q ∈ idealKeys c s.allNodes := Finset.mem_biUnion.2 ⟨m, hmM, List.mem_toFinset.2 hqm⟩
    have hpq := hp.eq_of_mem hq hpN hqM
    rw [hm, eq_of_mem_idealPositions hc (hU n hn) (hI.subset hmM) hpn (hpq ▸ hqm)]
    exact .inl rfl
  · exact .inr ⟨m, (hmem m).1 hmN, hmM, hm⟩

theorem fresh_setNodes_churn_plainRing :
    ∃ s₁, setNodes (Config.plain 2) 3 ascending plainRing [2, 3] = some s₁ ∧
      ∀ key n, get (Config.plain 2) plainRing key = some (n, true) → n ∈ [2, 3] →
        get (Config.plain 2) s₁ key = some (n, true) ∨
          ∃ m ∈ [2, 3], m ∉ plainRing.allNodes ∧ get (Config.plain 2) s₁ key = some (m, true) :=
  fresh_setNodes_churn rfl separatedOn_plain (by decide) plainRing_reachable isMapOrder_ascending
    (by decide) (by decide) (by decide)

end Hashring
