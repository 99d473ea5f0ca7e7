import Hashring.Spec.Ring

/-!
# What the collision loops can do to the table

Inserting never overwrites: `addNodeWithoutSort` only gives free positions to its node
(`Grows`). Removing only deletes: `removeNoWeightNodes` only deletes positions owned by a node
the same as one it was asked to remove (`Shrinks`). Both facts are proved once for the inner
`scan` from one lemma about its body, then for the outer loops by induction on the fuel, and for
the batch operations by induction on the node list.
-/

namespace Hashring

variable {Node : Type}

/-- `t'` is `t` plus positions given to nodes satisfying `fresh`. -/
def Grows (fresh : Node → Prop) (t t' : Table Node) : Prop :=
  ∀ p, t'.lookup p = t.lookup p ∨ t.lookup p = none ∧ ∃ n, t'.lookup p = some n ∧ fresh n

/-- `t'` is `t` less positions owned by nodes satisfying `gone`. -/
def Shrinks (gone : Node → Prop) (t t' : Table Node) : Prop :=
  ∀ p, t'.lookup p = t.lookup p ∨ t'.lookup p = none ∧ ∃ n, t.lookup p = some n ∧ gone n

section Relations

variable {fresh gone : Node → Prop} {t t₁ t₂ : Table Node}

theorem Grows.refl (t : Table Node) : Grows fresh t t := fun _ => .inl rfl

theorem Grows.trans (h₁ : Grows fresh t t₁) (h₂ : Grows fresh t₁ t₂) : Grows fresh t t₂ := by
  intro p
  rcases h₁ p with e₁ | ⟨n₁, n, hn, hf⟩ <;> rcases h₂ p with e₂ | ⟨n₂, m, hm, hf'⟩
  · exact .inl (e₂.trans e₁)
  · exact .inr ⟨e₁ ▸ n₂, m, hm, hf'⟩
  · exact .inr ⟨n₁, n, e₂.trans hn, hf⟩
  · simp_all

theorem Grows.mono {fresh' : Node → Prop} (h : Grows fresh t t₁) (hf : ∀ n, fresh n → fresh' n) :
    Grows fresh' t t₁ := fun p =>
  (h p).imp_right fun ⟨h0, n, hn, hfn⟩ => ⟨h0, n, hn, hf n hfn⟩

/-- A position of `t` keeps its owner. -/
theorem Grows.lookup_eq (h : Grows fresh t t₁) {p : UInt32} {n : Node} (hp : t.lookup p = some n) :
    t₁.lookup p = some n :=
  (h p).elim (·.trans hp) fun ⟨h0, _⟩ => by simp_all

/-- A position of `t₁` owned by a node that is not fresh was there in `t`. -/
theorem Grows.lookup_of_not_fresh (h : Grows fresh t t₁) {p : UInt32} {n : Node}
    (hp : t₁.lookup p = some n) (hn : ¬fresh n) : t.lookup p = some n :=
  (h p).elim (·.symm.trans hp) fun ⟨_, _, hm, hfm⟩ =>
    absurd (Option.some_inj.1 (hp.symm.trans hm) ▸ hfm) hn

theorem Shrinks.refl (t : Table Node) : Shrinks gone t t := fun _ => .inl rfl

theorem Shrinks.trans (h₁ : Shrinks gone t t₁) (h₂ : Shrinks gone t₁ t₂) : Shrinks gone t t₂ := by
  intro p
  rcases h₁ p with e₁ | ⟨n₁, n, hn, hg⟩ <;> rcases h₂ p with e₂ | ⟨n₂, m, hm, hg'⟩
  · exact .inl (e₂.trans e₁)
  · exact .inr ⟨n₂, m, e₁ ▸ hm, hg'⟩
  · exact .inr ⟨e₂.trans n₁, n, hn, hg⟩
  · simp_all

theorem Shrinks.mono {gone' : Node → Prop} (h : Shrinks gone t t₁) (hg : ∀ n, gone n → gone' n) :
    Shrinks gone' t t₁ := fun p =>
  (h p).imp_right fun ⟨h0, n, hn, hgn⟩ => ⟨h0, n, hn, hg n hgn⟩

/-- A position whose owner is not gone keeps it. -/
theorem Shrinks.lookup_eq (h : Shrinks gone t t₁) {p : UInt32} {n : Node} (hp : t.lookup p = some n)
    (hn : ¬gone n) : t₁.lookup p = some n :=
  (h p).elim (·.trans hp) fun ⟨_, _, hm, hgm⟩ => absurd (Option.some_inj.1 (hp.symm.trans hm) ▸ hgm) hn

/-- No position appears. -/
theorem Shrinks.lookup_some (h : Shrinks gone t t₁) {p : UInt32} {n : Node}
    (hp : t₁.lookup p = some n) : t.lookup p = some n :=
  (h p).elim (·.symm.trans hp) fun ⟨h0, _⟩ => by simp_all

theorem Grows.keys_subset (h : Grows fresh t t₁) : t.keys ⊆ t₁.keys := fun p hp => by
  obtain ⟨n, hn⟩ := Finmap.mem_iff.1 (Finmap.mem_keys.1 hp)
  exact Finmap.mem_keys.2 (Finmap.mem_of_lookup_eq_some (h.lookup_eq hn))

theorem Shrinks.keys_subset (h : Shrinks gone t t₁) : t₁.keys ⊆ t.keys := fun p hp => by
  obtain ⟨n, hn⟩ := Finmap.mem_iff.1 (Finmap.mem_keys.1 hp)
  exact Finmap.mem_keys.2 (Finmap.mem_of_lookup_eq_some (h.lookup_some hn))

/-- A table whose positions all lie in an empty table's is empty. -/
theorem eq_empty_of_keys_subset (h : t.keys ⊆ t₁.keys) (he : t₁ = ∅) : t = ∅ :=
  Finmap.ext_lookup fun p => by
    rw [Finmap.lookup_empty, Finmap.lookup_eq_none, ← Finmap.mem_keys]
    subst he
    exact fun hp => Finset.not_mem_empty p (Finmap.keys_empty ▸ h hp)

end Relations

/-- **A scan keeps any relation that each of its visits keeps.** -/
theorem scan_rel {R : Table Node → Table Node → Prop} (hrefl : ∀ t, R t t)
    (htrans : ∀ {t₀ t₁ t₂}, R t₀ t₁ → R t₁ t₂ → R t₀ t₂)
    {visit : UInt32 → Table Node → Option (Table Node)}
    (hv : ∀ {pos t t'}, visit pos t = some t' → R t t') (i : Nat) :
    ∀ j positions numReps t, R t (scan visit i j positions numReps t).2
  | _, [], _, t => hrefl t
  | j, pos :: positions, numReps, t => by
    simp only [scan]
    split
    · exact hrefl t
    · split
      · exact scan_rel hrefl htrans hv i _ _ _ _
      · exact htrans (hv ‹_›) (scan_rel hrefl htrans hv i _ _ _ _)

theorem placeAt_grows {node : Node} {pos : UInt32} {t t' : Table Node}
    (h : placeAt node pos t = some t') : Grows (· = node) t t' := by
  simp only [placeAt] at h
  split at h
  · cases h
  · cases h
    intro p
    by_cases hp : p = pos
    · subst hp
      exact .inr ⟨Finmap.lookup_eq_none.2 ‹_›, node, Finmap.lookup_insert _, rfl⟩
    · exact .inl (Finmap.lookup_insert_of_ne _ hp)

variable (c : Config Node)

theorem deleteAt_shrinks {node : Node} {pos : UInt32} {t t' : Table Node}
    (h : deleteAt c node pos t = some t') : Shrinks (fun n => c.isSameNode n node) t t' := by
  simp only [deleteAt] at h
  split at h
  · split at h
    · cases h
      intro p
      by_cases hp : p = pos
      · subst hp
        exact .inr ⟨Finmap.lookup_erase _ _, _, ‹_›, ‹_›⟩
      · exact .inl (Finmap.lookup_erase_ne hp)
    · cases h
  · cases h
    exact Shrinks.refl t

theorem addLoop_grows {node : Node} :
    ∀ {fuel i numReps : Nat} {t t' : Table Node}, addLoop c node fuel i numReps t = some t' →
      Grows (· = node) t t'
  | 0, _, _, _, _, h => by cases h
  | fuel + 1, i, numReps, t, t', h => by
    simp only [addLoop] at h
    split at h
    · split at h
      · cases h; exact Grows.refl t
      · exact (scan_rel Grows.refl Grows.trans placeAt_grows i _ _ _ t).trans (addLoop_grows h)
    · cases h; exact Grows.refl t

theorem removeLoop_shrinks {node : Node} :
    ∀ {fuel i numReps k : Nat} {t t' : Table Node}, removeLoop c node fuel i numReps t = some (k, t') →
      Shrinks (fun n => c.isSameNode n node) t t'
  | 0, _, _, _, _, _, h => by cases h
  | fuel + 1, i, numReps, k, t, t', h => by
    simp only [removeLoop] at h
    split at h
    · split at h
      · exact removeLoop_shrinks h
      · exact (scan_rel Shrinks.refl Shrinks.trans (deleteAt_shrinks c) i _ _ _ t).trans
          (removeLoop_shrinks h)
    · cases h; exact Shrinks.refl t

variable [DecidableEq Node] {fuel : Nat} {s s' : HashRing Node}

theorem addNodeWithoutSort_spec {node : Node} {n : Nat} (h : addNodeWithoutSort c fuel s node n = some s') :
    Grows (· = node) s.nodeByKey s'.nodeByKey ∧ s'.allNodes = insert node s.allNodes := by
  obtain ⟨t, ht, rfl⟩ := Option.map_eq_some'.1 h
  exact ⟨addLoop_grows c ht, rfl⟩

/-- **Placing nodes one after another only gives free positions to them**, and adds them to
`allNodes`; `count` gives each node's budget. -/
theorem foldlM_addNodeWithoutSort_spec {count : Node → Nat} :
    ∀ {nodes : List Node} {s s' : HashRing Node},
      nodes.foldlM (fun s node => addNodeWithoutSort c fuel s node (count node)) s = some s' →
      Grows (· ∈ nodes) s.nodeByKey s'.nodeByKey ∧ s'.allNodes = s.allNodes ∪ nodes.toFinset
  | [], _, _, h => by cases h; exact ⟨Grows.refl _, by simp⟩
  | node :: nodes, _, _, h => by
    obtain ⟨s₂, h₂, h⟩ := Option.bind_eq_some.1 h
    obtain ⟨hg, ha⟩ := addNodeWithoutSort_spec c h₂
    obtain ⟨hg', ha'⟩ := foldlM_addNodeWithoutSort_spec h
    refine ⟨(hg.mono fun n hn => hn ▸ List.mem_cons_self _ _).trans
      (hg'.mono fun n hn => List.mem_cons_of_mem _ hn), ?_⟩
    rw [ha', ha, List.toFinset_cons]
    ext; simp [or_left_comm]

/-- `AddNodes` in unweighted mode only gives free positions to the nodes it adds. -/
theorem addNoWeightNodes_spec {nodes : List Node} (h : addNoWeightNodes c fuel s nodes = some s') :
    Grows (· ∈ nodes) s.nodeByKey s'.nodeByKey ∧ s'.allNodes = s.allNodes ∪ nodes.toFinset := by
  obtain ⟨s₁, h₁, rfl⟩ := Option.map_eq_some'.1 h
  exact (foldlM_addNodeWithoutSort_spec c h₁ :)

/-- `setWeightNodes` starts from an empty ring and places exactly the nodes it is given. -/
theorem setWeightNodes_spec {nodes : List Node} (h : setWeightNodes c fuel s nodes = some s') :
    Grows (· ∈ nodes) ∅ s'.nodeByKey ∧ s'.allNodes = nodes.toFinset := by
  obtain ⟨s₁, h₁, rfl⟩ := Option.map_eq_some'.1 h
  obtain ⟨hg, ha⟩ := foldlM_addNodeWithoutSort_spec c h₁
  exact ⟨hg, ha.trans (Finset.empty_union _)⟩

theorem removeNoWeightNode_spec {node : Node} {acc acc' : Nat × HashRing Node}
    (h : removeNoWeightNode c fuel acc node = some acc') :
    Shrinks (fun n => c.isSameNode n node) acc.2.nodeByKey acc'.2.nodeByKey ∧
      acc'.2.allNodes = acc.2.allNodes.erase node := by
  obtain ⟨⟨k, t⟩, ht, rfl⟩ := Option.map_eq_some'.1 h
  exact ⟨removeLoop_shrinks c ht, rfl⟩

theorem foldlM_removeNoWeightNode_spec :
    ∀ {nodes : List Node} {acc acc' : Nat × HashRing Node},
      nodes.foldlM (removeNoWeightNode c fuel) acc = some acc' →
      Shrinks (fun n => ∃ m ∈ nodes, c.isSameNode n m) acc.2.nodeByKey acc'.2.nodeByKey ∧
        acc'.2.allNodes = acc.2.allNodes \ nodes.toFinset
  | [], _, _, h => by cases h; exact ⟨Shrinks.refl _, by simp⟩
  | node :: nodes, _, _, h => by
    obtain ⟨acc₂, h₂, h⟩ := Option.bind_eq_some.1 h
    obtain ⟨hs, ha⟩ := removeNoWeightNode_spec c h₂
    obtain ⟨hs', ha'⟩ := foldlM_removeNoWeightNode_spec h
    refine ⟨(hs.mono fun n hn => ⟨node, List.mem_cons_self _ _, hn⟩).trans
      (hs'.mono fun n ⟨m, hm, hnm⟩ => ⟨m, List.mem_cons_of_mem _ hm, hnm⟩), ?_⟩
    rw [ha', ha, List.toFinset_cons]
    ext; simp only [Finset.mem_sdiff, Finset.mem_erase, Finset.mem_insert, List.mem_toFinset]; tauto

/-- **`RemoveNodes` in unweighted mode only deletes positions owned by nodes the same as ones
it removes**, and removes those nodes from `allNodes`. -/
theorem removeNoWeightNodes_spec {nodes : List Node}
    (h : removeNoWeightNodes c fuel s nodes = some s') :
    Shrinks (fun n => ∃ m ∈ nodes, c.isSameNode n m) s.nodeByKey s'.nodeByKey ∧
      s'.allNodes = s.allNodes \ nodes.toFinset := by
  obtain ⟨acc, h₁, rfl⟩ := Option.map_eq_some'.1 h
  exact (foldlM_removeNoWeightNode_spec c h₁ :)

end Hashring
