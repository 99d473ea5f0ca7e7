import Hashring.Proof.Lookup

/-!
# `GetSince` walks the ring once

`GetSince(key)` starts at the index `Get` resolves the key's hash to, walks `sortedKeys`
forward, wraps past the end to index `0` and stops when it is back at its start, yielding each
node it has not yielded yet. So for every state satisfying the representation invariant, the
sequence a consumer that never stops sees is finite: it is the owners of
`sortedKeys.rotate firstKey`, each kept at its first occurrence (`getSince_walks_ring`), so it
lists every node owning a position exactly once (`getSince_owners`).

The loop runs in two stretches, from `firstKey + 1` to the end (`getSinceLoop_above`) and from
`0` back to `firstKey` (`getSinceLoop_below`); the `len(sortedKeys) + 1` turns `getSince` allows
cover both.

A consumer that stops (`yield` returning false) is handed that sequence up to and including the
first node it refuses, and nothing after it (`getSince_early_exit`): the loop for such a consumer
follows the loop for one that never stops turn by turn (`getSinceYieldLoop_of_getSinceLoop`).
-/

namespace Hashring

section FirstOccurrences

variable {α : Type} [DecidableEq α]

/-- The elements of `l` in the order of their first occurrence, each once. `List.dedup` keeps
the last occurrence of each element, so it runs on the reversed list. -/
def firstOccurrences (l : List α) : List α := l.reverse.dedup.reverse

theorem nodup_firstOccurrences (l : List α) : (firstOccurrences l).Nodup :=
  List.nodup_reverse.2 (List.nodup_dedup _)

@[simp] theorem mem_firstOccurrences {l : List α} {a : α} : a ∈ firstOccurrences l ↔ a ∈ l := by
  simp [firstOccurrences]

theorem firstOccurrences_eq_nil {l : List α} : firstOccurrences l = [] ↔ l = [] := by
  simp [firstOccurrences, List.dedup_eq_nil]

@[simp] theorem firstOccurrences_nil : firstOccurrences ([] : List α) = [] := rfl

@[simp] theorem firstOccurrences_singleton (a : α) : firstOccurrences [a] = [a] := by
  simp [firstOccurrences]

/-- Appending an element keeps it only when it is new: one turn of the loop of `GetSince`. -/
theorem firstOccurrences_append_singleton (l : List α) (a : α) :
    firstOccurrences (l ++ [a]) =
      if a ∈ firstOccurrences l then firstOccurrences l else firstOccurrences l ++ [a] := by
  have hrev : (l ++ [a]).reverse = a :: l.reverse := by simp
  by_cases h : a ∈ l
  · rw [if_pos (mem_firstOccurrences.2 h), firstOccurrences, hrev,
      List.dedup_cons_of_mem (List.mem_reverse.2 h)]
    rfl
  · rw [if_neg (mt mem_firstOccurrences.1 h), firstOccurrences, hrev,
      List.dedup_cons_of_not_mem (mt List.mem_reverse.1 h), List.reverse_cons]
    rfl

end FirstOccurrences

section Offered

variable {α : Type}

/-- What a consumer is offered when the elements of `l` are offered one by one after `acc` and
offering stops at the first one it refuses: a `range` loop over an `iter.Seq` that breaks. -/
def offered (yield : List α → α → Bool) (acc : List α) : List α → List α
  | [] => acc
  | n :: l => if yield acc n then offered yield (acc ++ [n]) l else acc ++ [n]

/-- A consumer is offered a prefix of the sequence, after what it was offered before. -/
theorem offered_prefix (yield : List α → α → Bool) :
    ∀ (acc l : List α), ∃ l', offered yield acc l = acc ++ l' ∧ l' <+: l
  | acc, [] => ⟨[], (List.append_nil acc).symm, List.nil_prefix⟩
  | acc, n :: l => by
    rw [offered]
    split
    · obtain ⟨l', h, hp⟩ := offered_prefix yield (acc ++ [n]) l
      exact ⟨n :: l', by rw [h, List.append_assoc, List.singleton_append],
        (List.prefix_cons_inj n).2 hp⟩
    · exact ⟨[n], rfl, List.cons_prefix_cons.2 ⟨rfl, List.nil_prefix⟩⟩

end Offered

variable {Node : Type} [Inhabited Node] [DecidableEq Node] {s : HashRing Node} {start : Nat}

/-- The loop only appends to what it has yielded. -/
theorem getSinceLoop_prefix :
    ∀ {fuel i : Nat} {yielded r : List Node}, getSinceLoop s start fuel i yielded = some r →
      ∃ more, r = yielded ++ more
  | 0, _, _, _, h => by cases h
  | fuel + 1, i, yielded, r, h => by
    simp only [getSinceLoop] at h
    split at h
    · cases h; exact ⟨[], (List.append_nil _).symm⟩
    split at h
    · exact getSinceLoop_prefix h
    split at h
    · cases h
    · obtain ⟨more, rfl⟩ := getSinceLoop_prefix h
      split
      · exact ⟨more, rfl⟩
      · exact ⟨_, List.append_assoc _ _ _⟩

/-- From `i` up to `start`, below the end: the loop yields the new owners of those positions
and stops at `start`. -/
theorem getSinceLoop_below (hstart : start ≤ s.sortedKeys.length) :
    ∀ (d i : Nat) (p : List Node), i + d = start →
      getSinceLoop s start (d + 1) i (firstOccurrences p) =
        some (firstOccurrences (p ++ ((s.sortedKeys.drop i).take d).map
          fun k => (s.nodeByKey.lookup k).getD default))
  | 0, i, p, h => by
    subst h
    simp [getSinceLoop]
  | d + 1, i, p, h => by
    have hi : i < s.sortedKeys.length := by omega
    rw [getSinceLoop, if_neg (by omega), if_neg (by omega), getNodeByHashKeyIndex_of_lt hi]
    dsimp only
    rw [← firstOccurrences_append_singleton, getSinceLoop_below hstart d (i + 1) _ (by omega),
      List.drop_eq_getElem_cons hi, List.take_succ_cons, List.map_cons, List.append_assoc,
      List.singleton_append, List.getD_eq_getElem _ _ hi]

/-- From `i` past `start` to the end: the loop yields the new owners of those positions and
wraps to index `0`. -/
theorem getSinceLoop_above (hstart : start < s.sortedKeys.length) (fuel : Nat) :
    ∀ (d i : Nat) (p : List Node), i + d = s.sortedKeys.length → start < i →
      getSinceLoop s start (fuel + d + 1) i (firstOccurrences p) =
        getSinceLoop s start fuel 0 (firstOccurrences (p ++ (s.sortedKeys.drop i).map
          fun k => (s.nodeByKey.lookup k).getD default))
  | 0, i, p, h, hi => by
    rw [getSinceLoop, if_neg (by omega), if_pos (by omega), List.drop_eq_nil_of_le (by omega)]
    simp
  | d + 1, i, p, h, hi => by
    have hil : i < s.sortedKeys.length := by omega
    rw [show fuel + (d + 1) + 1 = fuel + d + 1 + 1 by omega, getSinceLoop, if_neg (by omega),
      if_neg (by omega), getNodeByHashKeyIndex_of_lt hil]
    dsimp only
    rw [← firstOccurrences_append_singleton, getSinceLoop_above hstart fuel d (i + 1) _ (by omega)
      (by omega), List.drop_eq_getElem_cons hil, List.map_cons, List.append_assoc,
      List.singleton_append, List.getD_eq_getElem _ _ hil]

variable (c : Config Node)

/-- Under the representation invariant `GetSince` returns the owners of the positions in the
cyclic order from the resolved index, each at its first occurrence. -/
theorem getSince_eq (hr : RepInv s) (key : String) :
    getSince c s key = some (firstOccurrences
      ((s.sortedKeys.rotate (firstKeyIndex s (c.getHashKey key))).map
        fun k => (s.nodeByKey.lookup k).getD default)) := by
  by_cases he : s.nodeByKey = ∅
  · have hnil : s.sortedKeys = [] :=
      List.eq_nil_of_length_eq_zero (by rw [hr.length_eq, he, Finmap.keys_empty, Finset.card_empty])
    simp [getSince, he, hnil]
  have hpos := hr.length_pos he
  have hf := firstKeyIndex_lt (c.getHashKey key) hpos
  rw [getSince, if_neg he]
  dsimp only
  generalize firstKeyIndex s (c.getHashKey key) = f at hf ⊢
  rw [getNodeByHashKeyIndex_of_lt hf]
  dsimp only
  rw [← firstOccurrences_singleton,
    show s.sortedKeys.length + 1 = f + 1 + (s.sortedKeys.length - (f + 1)) + 1 by omega,
    getSinceLoop_above hf (f + 1) _ (f + 1) _ (by omega) (by omega),
    getSinceLoop_below hf.le f 0 _ (by omega), List.rotate_eq_drop_append_take hf.le,
    List.drop_eq_getElem_cons hf, List.drop_zero, List.getD_eq_getElem _ _ hf]
  simp only [List.map_append, List.map_cons, List.singleton_append, List.cons_append, List.nil_append]

/-- **`GetSince` walks the ring once.** For every state satisfying the representation invariant
and every key, the sequence `GetSince(key)` yields to a consumer that never stops is finite: the
owners of the positions of `sortedKeys` in cyclic order from the index `tailSearch` resolves the
key's hash to (`0` when no position is at or after it), each kept at its first occurrence. It is
empty exactly when `nodeByKey` is, and its first element is the node `Get(key)` returns. -/
theorem getSince_walks_ring (hr : RepInv s) (key : String) :
    getSince c s key = some (firstOccurrences
      ((s.sortedKeys.rotate (firstKeyIndex s (c.getHashKey key))).map
        fun k => (s.nodeByKey.lookup k).getD default)) ∧
    (getSince c s key = some [] ↔ s.nodeByKey = ∅) ∧
    ∀ n rest, getSince c s key = some (n :: rest) → get c s key = some (n, true) := by
  refine ⟨getSince_eq c hr key, ⟨fun h => ?_, fun he => by simp [getSince, he]⟩, fun n rest h => ?_⟩
  · by_contra he
    rw [getSince_eq c hr key, Option.some_inj, firstOccurrences_eq_nil, List.map_eq_nil_iff,
      List.rotate_eq_nil_iff] at h
    exact absurd (hr.length_pos he) (by rw [h]; exact Nat.lt_irrefl 0)
  · have he : s.nodeByKey ≠ ∅ := fun he => by simp [getSince, he] at h
    have hpos := hr.length_pos he
    have hsucc := firstKeyIndex_isSuccessor hr hpos (c.getHashKey key)
    obtain ⟨m, hm⟩ := Finmap.mem_iff.1 (Finmap.mem_keys.1 hsucc.1)
    simp only [getSince, he, if_false, getNodeByHashKeyIndex_of_lt
      (firstKeyIndex_lt (c.getHashKey key) hpos), hm, Option.getD_some] at h
    obtain ⟨more, hmore⟩ := getSinceLoop_prefix h
    rw [(List.cons.inj hmore).1]
    exact get_of_isSuccessor c hr hsucc hm

theorem getSince_walks_ring_plainRing :
    getSince (Config.plain 2) plainRing "k" = some (firstOccurrences
      ((plainRing.sortedKeys.rotate (firstKeyIndex plainRing ((Config.plain 2).getHashKey "k"))).map
        fun k => (plainRing.nodeByKey.lookup k).getD default)) ∧
    (getSince (Config.plain 2) plainRing "k" = some [] ↔ plainRing.nodeByKey = ∅) ∧
    ∀ n rest, getSince (Config.plain 2) plainRing "k" = some (n :: rest) →
      get (Config.plain 2) plainRing "k" = some (n, true) :=
  getSince_walks_ring (Config.plain 2) (updateSortedNodes_repInv _) "k"

/-- **`GetSince` yields every node owning a position exactly once, and nothing else**, for
every state satisfying the representation invariant and every key. -/
theorem getSince_owners (hr : RepInv s) (key : String) :
    ∃ l, getSince c s key = some l ∧ l.Nodup ∧ ∀ n, n ∈ l ↔ ∃ p, s.nodeByKey.lookup p = some n := by
  refine ⟨_, getSince_eq c hr key, nodup_firstOccurrences _, fun n => ?_⟩
  simp only [mem_firstOccurrences, List.mem_map, List.mem_rotate]
  constructor
  · rintro ⟨k, hk, rfl⟩
    obtain ⟨m, hm⟩ := Finmap.mem_iff.1 ((hr.mem_iff k).1 hk)
    exact ⟨k, by rw [hm]; rfl⟩
  · rintro ⟨p, hp⟩
    exact ⟨p, (hr.mem_iff p).2 (Finmap.mem_of_lookup_eq_some hp), by rw [hp]; rfl⟩

theorem getSince_owners_plainRing :
    ∃ l, getSince (Config.plain 2) plainRing "k" = some l ∧ l.Nodup ∧
      ∀ n, n ∈ l ↔ ∃ p, plainRing.nodeByKey.lookup p = some n :=
  getSince_owners (Config.plain 2) (updateSortedNodes_repInv _) "k"

section Consumer

variable (yield : List Node → Node → Bool)

/-- Where the loop for a consumer that never stops returns, the loop for any consumer returns
what that consumer is offered of the rest. -/
theorem getSinceYieldLoop_of_getSinceLoop :
    ∀ {fuel i : Nat} {acc r : List Node}, getSinceLoop s start fuel i acc = some r →
      getSinceYieldLoop yield s start fuel i acc = some (offered yield acc (r.drop acc.length))
  | 0, _, _, _, h => by cases h
  | fuel + 1, i, acc, r, h => by
    rw [getSinceLoop] at h
    rw [getSinceYieldLoop]
    by_cases hi : i = start
    · rw [if_pos hi] at h ⊢
      cases h
      rw [List.drop_length, offered]
    rw [if_neg hi] at h ⊢
    by_cases hlen : i ≥ s.sortedKeys.length
    · rw [if_pos hlen] at h ⊢
      exact getSinceYieldLoop_of_getSinceLoop h
    rw [if_neg hlen] at h ⊢
    cases hn : getNodeByHashKeyIndex s i with
    | none => rw [hn] at h; cases h
    | some n =>
      simp only [hn] at h ⊢
      by_cases hmem : n ∈ acc
      · rw [if_pos hmem] at h ⊢
        exact getSinceYieldLoop_of_getSinceLoop h
      · rw [if_neg hmem] at h ⊢
        obtain ⟨more, rfl⟩ := getSinceLoop_prefix h
        have hrest := getSinceYieldLoop_of_getSinceLoop h
        rw [List.drop_left] at hrest
        rw [List.append_assoc, List.drop_left, List.singleton_append, offered]
        split
        · exact hrest
        · rfl

/-- Where `GetSince` returns the sequence `l` for a consumer that never stops, it hands any
consumer what that consumer is offered of `l`. -/
theorem getSinceYield_of_getSince {key : String} {l : List Node} (h : getSince c s key = some l) :
    getSinceYield c yield s key = some (offered yield [] l) := by
  rw [getSince] at h
  rw [getSinceYield]
  split_ifs at h ⊢
  · cases h
    rfl
  dsimp only at h ⊢
  cases hf : getNodeByHashKeyIndex s (firstKeyIndex s (c.getHashKey key)) with
  | none => rw [hf] at h; cases h
  | some firstNode =>
    simp only [hf] at h ⊢
    obtain ⟨more, rfl⟩ := getSinceLoop_prefix h
    have hrest := getSinceYieldLoop_of_getSinceLoop yield h
    rw [List.drop_left] at hrest
    rw [List.singleton_append, offered, List.nil_append]
    split
    · exact hrest
    · rfl

/-- **A consumer that stops is handed a prefix.** For every state satisfying the representation
invariant, every key and every consumer, `GetSince(key)` returns, handing the consumer the
sequence a consumer that never stops is handed, one node at a time, up to and including the first
node it refuses, and asking it nothing after that: a prefix of that sequence. -/
theorem getSince_early_exit (hr : RepInv s) (key : String) :
    ∃ l, getSince c s key = some l ∧ getSinceYield c yield s key = some (offered yield [] l) ∧
      offered yield [] l <+: l := by
  have h := getSince_eq c hr key
  obtain ⟨l', hl', hp⟩ := offered_prefix yield [] _
  exact ⟨_, h, getSinceYield_of_getSince c yield h, by rw [hl', List.nil_append]; exact hp⟩

theorem getSince_early_exit_plainRing :
    ∃ l, getSince (Config.plain 2) plainRing "k" = some l ∧
      getSinceYield (Config.plain 2) (fun acc _ => acc.isEmpty) plainRing "k" =
        some (offered (fun acc _ => acc.isEmpty) [] l) ∧
      offered (fun acc _ => acc.isEmpty) [] l <+: l :=
  getSince_early_exit (Config.plain 2) _ (updateSortedNodes_repInv _) "k"

end Consumer

end Hashring
