import Hashring.Proof.Count

/-!
# The collision loops stop

The loops of `addNodeWithoutSort` and `removeNoWeightNodes` raise their own bound `numReps` on
every collision, so they need not stop: with a derivation that keeps returning a taken position,
neither does. They stop when the positions they get from `getIterateHashKeyForNode` are pairwise
distinct and each call returns between `1` and `k` of them (`collision_loops_bounded`).

The measure is the potential `numReps + |existing positions not yet met|`. A collision raises
the bound, but only on a position of the table the loop started from, met for the first time, so
the potential never grows (`scan_potential`): the bound stays below `B + len(nodeByKey)`. The
replica index counts the positions obtained so far and every call happens below the bound, so
the loop obtains fewer than `B + len(nodeByKey) + k` positions, and as many turns of fuel are
enough (`addLoop_stops`, `removeLoop_stops`).

Which positions the loops obtain depends on where they stop, so `addLoopPositions` and
`removeLoopPositions` observe them: the same loops, returning the positions each call gave.
-/

namespace Hashring

variable {Node : Type}

section Potential

variable {visit : UInt32 → Table Node → Option (Table Node)} (t₀ : Table Node) (Φ : Nat)

/-- **A scan keeps the potential.** If a visit skips only taken positions and adds at most the
position it visits, then a scan over distinct positions not met before keeps the table within
`t₀` and the positions met, and keeps `numReps + |t₀ \ met| ≤ Φ`: a skip raises the bound on a
position of `t₀` met for the first time. -/
theorem scan_potential (hnone : ∀ {pos t}, visit pos t = none → pos ∈ t)
    (hsome : ∀ {pos t t'}, visit pos t = some t' → t'.keys ⊆ insert pos t.keys) (i : Nat) :
    ∀ (positions : List UInt32) (j numReps : Nat) (t : Table Node) (E : Finset UInt32),
      positions.Nodup → (∀ p ∈ positions, p ∉ E) → t.keys ⊆ t₀.keys ∪ E →
      numReps + (t₀.keys \ E).card ≤ Φ →
      (scan visit i j positions numReps t).2.keys ⊆ t₀.keys ∪ (E ∪ positions.toFinset) ∧
        (scan visit i j positions numReps t).1 + (t₀.keys \ (E ∪ positions.toFinset)).card ≤ Φ
  | [], _, _, _, _, _, _, ht, hΦ => by simpa using ⟨ht, hΦ⟩
  | pos :: positions, j, numReps, t, E, hnd, hE, ht, hΦ => by
    obtain ⟨hpos, hnd⟩ := List.nodup_cons.1 hnd
    have hposE : pos ∉ E := hE pos (List.mem_cons_self _ _)
    have hE' : ∀ p ∈ positions, p ∉ insert pos E := fun p hp hpE =>
      (Finset.mem_insert.1 hpE).elim (fun h => hpos (h ▸ hp)) (hE p (List.mem_cons_of_mem _ hp))
    have hmet : E ∪ (pos :: positions).toFinset = insert pos E ∪ positions.toFinset := by
      rw [List.toFinset_cons, Finset.union_insert, Finset.insert_union]
    have hgrow : E ⊆ insert pos E ∪ positions.toFinset :=
      (Finset.subset_insert pos E).trans Finset.subset_union_left
    have hfewer : (t₀.keys \ insert pos E).card ≤ (t₀.keys \ E).card :=
      Finset.card_le_card (Finset.sdiff_subset_sdiff le_rfl (Finset.subset_insert pos E))
    have ht' : t.keys ⊆ t₀.keys ∪ insert pos E :=
      ht.trans (Finset.union_subset_union le_rfl (Finset.subset_insert pos E))
    rw [hmet]
    simp only [scan]
    split
    · exact ⟨ht.trans (Finset.union_subset_union le_rfl hgrow),
        le_trans (Nat.add_le_add_left (Finset.card_le_card
          (Finset.sdiff_subset_sdiff le_rfl hgrow)) _) hΦ⟩
    · split
      · rename_i hv
        have hpt₀ : pos ∈ t₀.keys :=
          (Finset.mem_union.1 (ht (Finmap.mem_keys.2 (hnone hv)))).resolve_right hposE
        have hmeet : (t₀.keys \ insert pos E).card + 1 = (t₀.keys \ E).card := by
          rw [Finset.sdiff_insert, Finset.card_erase_add_one (Finset.mem_sdiff.2 ⟨hpt₀, hposE⟩)]
        exact scan_potential hnone hsome i positions _ _ t _ hnd hE' ht' (by omega)
      · rename_i t' hv
        exact scan_potential hnone hsome i positions _ _ t' _ hnd hE'
          ((hsome hv).trans (Finset.insert_subset_iff.2 ⟨Finset.mem_union_right _
            (Finset.mem_insert_self pos E), ht'⟩)) (by omega)

/-- One call of a collision loop keeps the invariant for the rest of the run: the positions
still to come are distinct and not met, and the scan keeps the table and the potential. -/
theorem scan_potential_call (hnone : ∀ {pos t}, visit pos t = none → pos ∈ t)
    (hsome : ∀ {pos t t'}, visit pos t = some t' → t'.keys ⊆ insert pos t.keys)
    {i numReps : Nat} {t : Table Node} {E : Finset UInt32} {positions rest : List UInt32}
    (hnd : (positions ++ rest).Nodup) (hE : ∀ p ∈ positions ++ rest, p ∉ E)
    (ht : t.keys ⊆ t₀.keys ∪ E) (hΦ : numReps + (t₀.keys \ E).card ≤ Φ) :
    rest.Nodup ∧ (∀ p ∈ rest, p ∉ E ∪ positions.toFinset) ∧
      (scan visit i 0 positions numReps t).2.keys ⊆ t₀.keys ∪ (E ∪ positions.toFinset) ∧
      (scan visit i 0 positions numReps t).1 + (t₀.keys \ (E ∪ positions.toFinset)).card ≤ Φ := by
  obtain ⟨hnd₁, hnd₂, hdisj⟩ := List.nodup_append.1 hnd
  exact ⟨hnd₂, fun p hp hpE => (Finset.mem_union.1 hpE).elim (hE p (List.mem_append_right _ hp))
      fun h => hdisj (List.mem_toFinset.1 h) hp,
    scan_potential t₀ Φ hnone hsome i positions 0 numReps t E hnd₁
      (fun p hp => hE p (List.mem_append_left _ hp)) ht hΦ⟩

end Potential

variable (c : Config Node)

/-- The positions the loop of `addNodeWithoutSort` obtains from `getIterateHashKeyForNode`, call
after call, within `fuel` turns: `addLoop`, observed. -/
def addLoopPositions (node : Node) : Nat → Nat → Nat → Table Node → List UInt32
  | 0, _, _, _ => []
  | fuel + 1, i, numReps, t =>
    if i < numReps then
      let positions := c.getIterateHashKeyForNode node i
      if positions.length = 0 then []
      else
        let r := scan (placeAt node) i 0 positions numReps t
        positions ++ addLoopPositions node fuel (i + positions.length) r.1 r.2
    else []

/-- The positions the per-node loop of `removeNoWeightNodes` obtains, within `fuel` turns:
`removeLoop`, observed. -/
def removeLoopPositions (node : Node) : Nat → Nat → Nat → Table Node → List UInt32
  | 0, _, _, _ => []
  | fuel + 1, i, numReps, t =>
    if i < numReps then
      let positions := c.getIterateHashKeyForNode node i
      if positions.length = 0 then removeLoopPositions node fuel (i + 1) (numReps + 1) t
      else
        let r := scan (deleteAt c node) i 0 positions numReps t
        positions ++ removeLoopPositions node fuel (i + positions.length) r.1 r.2
    else []

theorem placeAt_mem {a : Node} {pos : UInt32} {t : Table Node} (h : placeAt a pos t = none) :
    pos ∈ t := by
  simp only [placeAt] at h
  split at h
  · assumption
  · cases h

theorem placeAt_keys {a : Node} {pos : UInt32} {t t' : Table Node} (h : placeAt a pos t = some t') :
    t'.keys ⊆ insert pos t.keys := by
  simp only [placeAt] at h
  split at h
  · cases h
  · cases h
    intro p hp
    simpa [Finmap.mem_keys] using hp

theorem deleteAt_mem {a : Node} {pos : UInt32} {t : Table Node} (h : deleteAt c a pos t = none) :
    pos ∈ t := by
  simp only [deleteAt] at h
  split at h
  · exact Finmap.mem_of_lookup_eq_some ‹_›
  · cases h

theorem deleteAt_keys {a : Node} {pos : UInt32} {t t' : Table Node}
    (h : deleteAt c a pos t = some t') : t'.keys ⊆ insert pos t.keys := by
  simp only [deleteAt] at h
  split at h
  · split at h
    · cases h
      intro p hp
      simp only [Finmap.mem_keys, Finmap.mem_erase] at hp
      exact Finset.mem_insert_of_mem (Finmap.mem_keys.2 hp.2)
    · cases h
  · cases h
    exact Finset.subset_insert _ _

section Stops

variable {a : Node} {k : Nat}
  (hk : ∀ i, c.getIterateHashKeyForNode a i ≠ [] ∧ (c.getIterateHashKeyForNode a i).length ≤ k)
  (t₀ : Table Node) (Φ : Nat)
include hk

/-- **The placement loop stops** within `Φ + 1 - i` turns when the positions it obtains are
distinct, having obtained fewer than `Φ + k - i` of them. -/
theorem addLoop_stops :
    ∀ (fuel i numReps : Nat) (t : Table Node) (E : Finset UInt32),
      (addLoopPositions c a fuel i numReps t).Nodup →
      (∀ p ∈ addLoopPositions c a fuel i numReps t, p ∉ E) →
      t.keys ⊆ t₀.keys ∪ E → numReps + (t₀.keys \ E).card ≤ Φ → Φ < fuel + i → 0 < fuel →
      (addLoop c a fuel i numReps t).isSome ∧
        ((addLoopPositions c a fuel i numReps t).length = 0 ∨
          i + (addLoopPositions c a fuel i numReps t).length < Φ + k)
  | 0, _, _, _, _, _, _, _, _, _, h0 => absurd h0 (Nat.lt_irrefl 0)
  | fuel + 1, i, numReps, t, E, hnd, hE, ht, hΦ, hfuel, _ => by
    obtain ⟨hne, hlen⟩ := hk i
    have hne' : (c.getIterateHashKeyForNode a i).length ≠ 0 := mt List.length_eq_zero.1 hne
    by_cases hi : i < numReps
    · simp only [addLoop, addLoopPositions, hi, hne', if_true, if_false] at hnd hE ⊢
      obtain ⟨hnd', hE', ht', hΦ'⟩ := scan_potential_call t₀ Φ placeAt_mem placeAt_keys hnd hE ht hΦ
      obtain ⟨hs, hlen'⟩ := addLoop_stops fuel _ _ _ _ hnd' hE' ht' hΦ' (by omega) (by omega)
      refine ⟨hs, .inr ?_⟩
      rw [List.length_append]
      omega
    · simp [addLoop, addLoopPositions, hi]

/-- **The removal loop stops** on the same terms: a collision there skips a position owned by
another node, and deleting never adds one. -/
theorem removeLoop_stops :
    ∀ (fuel i numReps : Nat) (t : Table Node) (E : Finset UInt32),
      (removeLoopPositions c a fuel i numReps t).Nodup →
      (∀ p ∈ removeLoopPositions c a fuel i numReps t, p ∉ E) →
      t.keys ⊆ t₀.keys ∪ E → numReps + (t₀.keys \ E).card ≤ Φ → Φ < fuel + i → 0 < fuel →
      (removeLoop c a fuel i numReps t).isSome ∧
        ((removeLoopPositions c a fuel i numReps t).length = 0 ∨
          i + (removeLoopPositions c a fuel i numReps t).length < Φ + k)
  | 0, _, _, _, _, _, _, _, _, _, h0 => absurd h0 (Nat.lt_irrefl 0)
  | fuel + 1, i, numReps, t, E, hnd, hE, ht, hΦ, hfuel, _ => by
    obtain ⟨hne, hlen⟩ := hk i
    have hne' : (c.getIterateHashKeyForNode a i).length ≠ 0 := mt List.length_eq_zero.1 hne
    by_cases hi : i < numReps
    · simp only [removeLoop, removeLoopPositions, hi, hne', if_true, if_false] at hnd hE ⊢
      obtain ⟨hnd', hE', ht', hΦ'⟩ := scan_potential_call t₀ Φ (deleteAt_mem c) (deleteAt_keys c) hnd hE ht hΦ
      obtain ⟨hs, hlen'⟩ := removeLoop_stops fuel _ _ _ _ hnd' hE' ht' hΦ' (by omega) (by omega)
      refine ⟨hs, .inr ?_⟩
      rw [List.length_append]
      omega
    · simp [removeLoop, removeLoopPositions, hi]

end Stops

/-- **Both collision loops stop after fewer than `B + len(nodeByKey) + k` positions**, from every
table and budget `B`, for a node each call of which returns between `1` and `k` positions: when
the positions the loop obtains are pairwise distinct, the loop of `addNodeWithoutSort(n, B)` and
the per-node loop of `removeNoWeightNodes` started with bound `B` return within
`B + len(nodeByKey) + k` turns, having obtained fewer positions than that. -/
theorem collision_loops_bounded (node : Node) (k : Nat)
    (hk : ∀ i, c.getIterateHashKeyForNode node i ≠ [] ∧
      (c.getIterateHashKeyForNode node i).length ≤ k) (B : Nat) (t : Table Node) :
    ((addLoopPositions c node (B + t.keys.card + k) 0 B t).Nodup →
      (addLoop c node (B + t.keys.card + k) 0 B t).isSome ∧
        (addLoopPositions c node (B + t.keys.card + k) 0 B t).length < B + t.keys.card + k) ∧
    ((removeLoopPositions c node (B + t.keys.card + k) 0 B t).Nodup →
      (removeLoop c node (B + t.keys.card + k) 0 B t).isSome ∧
        (removeLoopPositions c node (B + t.keys.card + k) 0 B t).length < B + t.keys.card + k) := by
  have hk0 : 0 < k := lt_of_lt_of_le (List.length_pos.2 (hk 0).1) (hk 0).2
  have ht : t.keys ⊆ t.keys ∪ ∅ := Finset.subset_union_left
  have hΦ : B + (t.keys \ ∅).card ≤ B + t.keys.card := by rw [Finset.sdiff_empty]
  refine ⟨fun hnd => ?_, fun hnd => ?_⟩
  · obtain ⟨hs, hlen⟩ := addLoop_stops c hk t _ _ 0 B t ∅ hnd (fun _ _ => Finset.not_mem_empty _)
      ht hΦ (by omega) (by omega)
    exact ⟨hs, by omega⟩
  · obtain ⟨hs, hlen⟩ := removeLoop_stops c hk t _ _ 0 B t ∅ hnd (fun _ _ => Finset.not_mem_empty _)
      ht hΦ (by omega) (by omega)
    exact ⟨hs, by omega⟩

/-- Node `1` of `Config.collide` derives `5`, then `7`: in a table where node `2` owns `5`, both of
its loops collide there, raise their bound and go on to `7`. -/
theorem collision_loops_bounded_collide :
    ((addLoop (Config.collide 1) 1 (1 + ((∅ : Table Nat).insert 5 2).keys.card + 1) 0 1
          ((∅ : Table Nat).insert 5 2)).isSome ∧
        (addLoopPositions (Config.collide 1) 1 (1 + ((∅ : Table Nat).insert 5 2).keys.card + 1) 0 1
          ((∅ : Table Nat).insert 5 2)).length < (1 + ((∅ : Table Nat).insert 5 2).keys.card + 1)) ∧
      ((removeLoop (Config.collide 1) 1 (1 + ((∅ : Table Nat).insert 5 2).keys.card + 1) 0 1
          ((∅ : Table Nat).insert 5 2)).isSome ∧
        (removeLoopPositions (Config.collide 1) 1 (1 + ((∅ : Table Nat).insert 5 2).keys.card + 1) 0 1
          ((∅ : Table Nat).insert 5 2)).length < (1 + ((∅ : Table Nat).insert 5 2).keys.card + 1)) :=
  have hk : ∀ i, (Config.collide 1).getIterateHashKeyForNode 1 i ≠ [] ∧
      ((Config.collide 1).getIterateHashKeyForNode 1 i).length ≤ 1
    | 0 | 1 | _ + 2 => ⟨List.cons_ne_nil _ _, le_rfl⟩
  ⟨(collision_loops_bounded (Config.collide 1) 1 1 hk 1 _).1 (by decide),
    (collision_loops_bounded (Config.collide 1) 1 1 hk 1 _).2 (by decide)⟩

end Hashring
