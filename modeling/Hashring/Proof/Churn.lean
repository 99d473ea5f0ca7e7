import Hashring.Proof.Lookup
import Hashring.Proof.Scan

/-!
# Bounded churn

Adding a node only adds positions, all owned by it, so a key either keeps its node or moves to
the new one. Removing a node only deletes positions owned by nodes the same as it, so a key
whose node is another one keeps it. Both follow from where `Get` lands (`Lookup`): a position
that survives a change and was, or becomes, the successor of a hash stays the successor in the
smaller of the two position sets.
-/

namespace Hashring

/-- The successor in a larger position set, when it lies in a smaller one, is the successor
there too. -/
theorem IsSuccessor.of_subset {P Q : Finset UInt32} {h p : UInt32} (hPQ : P ⊆ Q) (hp : p ∈ P)
    (hq : IsSuccessor Q h p) : IsSuccessor P h p := by
  obtain ⟨-, ⟨h1, h2⟩ | ⟨h1, h2⟩⟩ := hq
  · exact ⟨hp, .inl ⟨h1, fun q hq => h2 q (hPQ hq)⟩⟩
  · exact ⟨hp, .inr ⟨fun q hq => h1 q (hPQ hq), fun q hq => h2 q (hPQ hq)⟩⟩

/-- Two position sets whose successors of a hash each lie in the other have the same successor. -/
theorem IsSuccessor.eq_of_mem {P Q : Finset UInt32} {h p q : UInt32} (hp : IsSuccessor P h p)
    (hq : IsSuccessor Q h q) (hpQ : p ∈ Q) (hqP : q ∈ P) : p = q :=
  (hp.of_subset (Finset.insert_subset_iff.2 ⟨hp.1, Finset.singleton_subset_iff.2 hqP⟩)
    (Finset.mem_insert_self p {q})).unique
    (hq.of_subset (Finset.insert_subset_iff.2 ⟨hpQ, Finset.singleton_subset_iff.2 hq.1⟩)
      (Finset.mem_insert_of_mem (Finset.mem_singleton_self q)))

variable {Node : Type} [DecidableEq Node] [Inhabited Node] (c : Config Node) {s s' : HashRing Node}

/-- After a table grows by positions of nodes satisfying `fresh`, a key keeps its node or moves
to a fresh one. -/
theorem get_of_grows {fresh : Node → Prop} (hr : RepInv s) (hr' : RepInv s')
    (hg : Grows fresh s.nodeByKey s'.nodeByKey) (key : String) :
    get c s' key = get c s key ∨ ∃ n, fresh n ∧ get c s' key = some (n, true) := by
  by_cases he' : s'.nodeByKey = ∅
  · left
    rw [get_of_empty c he', get_of_empty c (eq_empty_of_keys_subset hg.keys_subset he')]
  obtain ⟨p, n, hp, hn⟩ := exists_isSuccessor hr' he' (c.getHashKey key)
  rcases hg p with e | ⟨-, m, hm, hf⟩
  · left
    have hn₀ : s.nodeByKey.lookup p = some n := e ▸ hn
    rw [get_of_isSuccessor c hr' hp hn, get_of_isSuccessor c hr
      (hp.of_subset hg.keys_subset (Finmap.mem_keys.2 (Finmap.mem_of_lookup_eq_some hn₀))) hn₀]
  · exact .inr ⟨n, Option.some_inj.1 (hm.symm.trans hn) ▸ hf, get_of_isSuccessor c hr' hp hn⟩

/-- After a table shrinks by positions of nodes satisfying `gone`, a key whose node is not gone
keeps it. -/
theorem get_of_shrinks {gone : Node → Prop} (hr : RepInv s) (hr' : RepInv s')
    (hsh : Shrinks gone s.nodeByKey s'.nodeByKey) {key : String} {n : Node} {b : Bool}
    (hget : get c s key = some (n, b)) (hn : ¬gone n ∨ b = false) : get c s' key = some (n, b) := by
  by_cases he : s.nodeByKey = ∅
  · rw [get_of_empty c (eq_empty_of_keys_subset hsh.keys_subset he), ← hget, get_of_empty c he]
  obtain ⟨p, m, hp, hm⟩ := exists_isSuccessor hr he (c.getHashKey key)
  rw [get_of_isSuccessor c hr hp hm] at hget
  obtain ⟨rfl, rfl⟩ := Prod.mk.inj (Option.some_inj.1 hget)
  have hm' := hsh.lookup_eq hm (hn.resolve_right Bool.noConfusion)
  exact get_of_isSuccessor c hr'
    (hp.of_subset hsh.keys_subset (Finmap.mem_keys.2 (Finmap.mem_of_lookup_eq_some hm'))) hm'

/-- **Bounded churn, unweighted.** From every reachable state, after `AddNodes(D)` every key
resolves to the node it resolved to before or to `D`; after `RemoveNodes(B)` every key that
resolved to a node not the same as `B` still resolves to that node. -/
theorem churn_bounded (hs : Reachable c s) (hw : c.isWeighted = false) :
    (∀ fuel enum (D : Node) s', addNodes c fuel enum s [D] = some s' →
      ∀ key, get c s' key = get c s key ∨ get c s' key = some (D, true)) ∧
    (∀ fuel enum (B : Node) s', removeNodes c fuel enum s [B] = some s' →
      ∀ key n b, get c s key = some (n, b) → c.isSameNode n B = false →
        get c s' key = some (n, b)) := by
  have hr := hs.repInv c
  refine ⟨fun fuel enum D s' h key => ?_, fun fuel enum B s' h key n b hget hnB => ?_⟩
  · simp only [addNodes, hw, Bool.false_eq_true, if_false] at h
    rcases get_of_grows c hr (addNoWeightNodes_repInv c h) (addNoWeightNodes_spec c h).1 key with
      e | ⟨n, hn, e⟩
    · exact .inl e
    · exact .inr (List.mem_singleton.1 hn ▸ e)
  · simp only [removeNodes, hw, Bool.false_eq_true, if_false] at h
    exact get_of_shrinks c hr (removeNoWeightNodes_repInv c h) (removeNoWeightNodes_spec c h).1
      hget (.inl (by simpa using hnB))

theorem churn_bounded_plainRing :
    (∀ fuel enum (D : Nat) s', addNodes (Config.plain 2) fuel enum plainRing [D] = some s' →
      ∀ key, get (Config.plain 2) s' key = get (Config.plain 2) plainRing key ∨
        get (Config.plain 2) s' key = some (D, true)) ∧
    (∀ fuel enum (B : Nat) s', removeNodes (Config.plain 2) fuel enum plainRing [B] = some s' →
      ∀ key n b, get (Config.plain 2) plainRing key = some (n, b) →
        (Config.plain 2).isSameNode n B = false → get (Config.plain 2) s' key = some (n, b)) :=
  churn_bounded (Config.plain 2) (.single ⟨.addNodes [1, 2], 4, ascending, isMapOrder_ascending, rfl⟩) rfl

end Hashring
