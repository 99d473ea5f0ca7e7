import Hashring.Proof.Sorted

/-!
# `Get` lands on the clockwise successor

* `binarySearchLoop_inv`: the loop of `slices.BinarySearchFunc` keeps its invariant (below `i`
  every entry compares below the target, from `j` on none does), for any comparison whose
  "below" answers form a prefix; `j - i` turns of fuel are enough.
* `firstKeyIndex_isSuccessor`: over a strictly ascending `sortedKeys`, the index `tailSearch`
  resolves, or `0` when it finds nothing, holds the first position at or after the hash,
  wrapping to the first position of all.
* `get_isSuccessor`: `Get` returns the owner of that position, and the exact-match fast path of
  `getNodeByHashKey` agrees with the search path.
-/

namespace Hashring

section Search

variable {x : List UInt32} {target : UInt32} {cmp : UInt32 → UInt32 → Int}

/-- The invariant of the `BinarySearchFunc` loop on `[i, j)`. -/
def SearchInv (x : List UInt32) (target : UInt32) (cmp : UInt32 → UInt32 → Int) (i j : Nat) :
    Prop :=
  i ≤ j ∧ j ≤ x.length ∧ (∀ k < i, cmp (x.getD k 0) target < 0) ∧
    ∀ k, j ≤ k → k < x.length → ¬cmp (x.getD k 0) target < 0

/-- The entries that compare below the target form a prefix. -/
def PrefixBelow (x : List UInt32) (target : UInt32) (cmp : UInt32 → UInt32 → Int) : Prop :=
  ∀ k l, k ≤ l → l < x.length → cmp (x.getD l 0) target < 0 → cmp (x.getD k 0) target < 0

theorem SearchInv.init : SearchInv x target cmp 0 x.length :=
  ⟨Nat.zero_le _, le_rfl, fun _ hk => absurd hk (Nat.not_lt_zero _), fun _ h1 h2 => absurd h2 (by omega)⟩

theorem SearchInv.right (hP : PrefixBelow x target cmp) {i j : Nat} (h : SearchInv x target cmp i j)
    (hij : i < j) (hm : cmp (x.getD ((i + j) / 2) 0) target < 0) :
    SearchInv x target cmp ((i + j) / 2 + 1) j := by
  obtain ⟨-, hj, -, habove⟩ := h
  exact ⟨by omega, hj, fun k hk => hP k _ (by omega) (by omega) hm, habove⟩

theorem SearchInv.left (hP : PrefixBelow x target cmp) {i j : Nat} (h : SearchInv x target cmp i j)
    (hij : i < j) (hm : ¬cmp (x.getD ((i + j) / 2) 0) target < 0) :
    SearchInv x target cmp i ((i + j) / 2) := by
  obtain ⟨-, hj, hbelow, -⟩ := h
  exact ⟨by omega, by omega, hbelow, fun k hk hkn hlt => hm (hP _ k hk hkn hlt)⟩

/-- **The binary search loop ends on the boundary of the prefix.** -/
theorem binarySearchLoop_inv (hP : PrefixBelow x target cmp) :
    ∀ fuel i j, SearchInv x target cmp i j → j - i ≤ fuel →
      SearchInv x target cmp (binarySearchLoop x target cmp fuel i j)
        (binarySearchLoop x target cmp fuel i j)
  | 0, i, j, h, hf => by
    obtain rfl : i = j := by have := h.1; omega
    exact h
  | fuel + 1, i, j, h, hf => by
    simp only [binarySearchLoop]
    split
    · split
      · exact binarySearchLoop_inv hP _ _ _ (h.right hP ‹_› ‹_›) (by omega)
      · exact binarySearchLoop_inv hP _ _ _ (h.left hP ‹_› ‹_›) (by omega)
    · obtain rfl : i = j := by have := h.1; omega
      exact h

theorem binarySearchFunc_inv (hP : PrefixBelow x target cmp) :
    SearchInv x target cmp (binarySearchFunc x target cmp).1 (binarySearchFunc x target cmp).1 :=
  binarySearchLoop_inv hP _ _ _ SearchInv.init (by omega)

end Search

variable {Node : Type}

/-- `p` is where a hash `h` lands on the ring of positions `P`: the first position at or after
`h`, or the first position of all when every position is before `h`. -/
def IsSuccessor (P : Finset UInt32) (h p : UInt32) : Prop :=
  p ∈ P ∧ (h ≤ p ∧ (∀ q ∈ P, h ≤ q → p ≤ q) ∨ (∀ q ∈ P, q < h) ∧ ∀ q ∈ P, p ≤ q)

/-- A hash lands on one position only. -/
theorem IsSuccessor.unique {P : Finset UInt32} {h p p' : UInt32} (hp : IsSuccessor P h p)
    (hp' : IsSuccessor P h p') : p = p' := by
  obtain ⟨hm, ⟨h1, h2⟩ | ⟨h1, h2⟩⟩ := hp <;> obtain ⟨hm', ⟨h1', h2'⟩ | ⟨h1', h2'⟩⟩ := hp'
  · exact le_antisymm (h2 _ hm' h1') (h2' _ hm h1)
  · exact absurd (h1' _ hm) (not_lt.2 h1)
  · exact absurd (h1 _ hm') (not_lt.2 h1')
  · exact le_antisymm (h2 _ hm') (h2' _ hm)

/-- On a ring of one position, every hash lands on it. -/
theorem isSuccessor_singleton (h p : UInt32) : IsSuccessor {p} h p := by
  refine ⟨Finset.mem_singleton_self p, ?_⟩
  by_cases hp : h ≤ p
  · exact .inl ⟨hp, fun q hq _ => (Finset.mem_singleton.1 hq).ge⟩
  · exact .inr ⟨fun q hq => Finset.mem_singleton.1 hq ▸ not_le.1 hp, fun q hq => (Finset.mem_singleton.1 hq).ge⟩

/-- A hash that is itself a position lands on it. -/
theorem isSuccessor_self {P : Finset UInt32} {h : UInt32} (hh : h ∈ P) : IsSuccessor P h h :=
  ⟨hh, .inl ⟨le_rfl, fun _ _ hq => hq⟩⟩

theorem getD_le_getD {x : List UInt32} (hs : x.Sorted (· < ·)) {k l : Nat} (hkl : k ≤ l)
    (hl : l < x.length) : x.getD k 0 ≤ x.getD l 0 := by
  rw [List.getD_eq_getElem _ _ (by omega), List.getD_eq_getElem _ _ hl]
  rcases Nat.lt_or_eq_of_le hkl with h | rfl
  · exact le_of_lt (hs.rel_get_of_lt (a := ⟨k, by omega⟩) (b := ⟨l, hl⟩) h)
  · exact le_rfl

/-- The comparison of `tailSearch` answers "below" exactly for the positions before the key. -/
theorem tailCmp_lt {v key : UInt32} : (if v ≥ key then (0 : Int) else -1) < 0 ↔ v < key := by
  split <;> simp_all

theorem tailCmp_eq {v key : UInt32} : (if v ≥ key then (0 : Int) else -1) = 0 ↔ key ≤ v := by
  split <;> simp_all

/-- Over strictly ascending keys, `tailSearch` returns the number of positions before the key,
and reports a find exactly when some position is at or after it. -/
theorem tailSearch_spec {s : HashRing Node} (hs : s.sortedKeys.Sorted (· < ·)) (h : UInt32) :
    (tailSearch s h).1 ≤ s.sortedKeys.length ∧
      (∀ k < (tailSearch s h).1, s.sortedKeys.getD k 0 < h) ∧
      (∀ k, (tailSearch s h).1 ≤ k → k < s.sortedKeys.length → h ≤ s.sortedKeys.getD k 0) ∧
      ((tailSearch s h).2 = true ↔ (tailSearch s h).1 < s.sortedKeys.length) := by
  have hP : PrefixBelow s.sortedKeys h fun v key => if v ≥ key then 0 else -1 :=
    fun k l hkl hl hlt => tailCmp_lt.2 (lt_of_le_of_lt (getD_le_getD hs hkl hl) (tailCmp_lt.1 hlt))
  obtain ⟨-, hn, hbelow, habove⟩ := binarySearchFunc_inv hP
  refine ⟨hn, fun k hk => tailCmp_lt.1 (hbelow k hk), fun k hk hkn => ?_, ?_⟩
  · exact not_lt.1 fun hlt => habove k hk hkn (tailCmp_lt.2 hlt)
  · simp only [tailSearch, binarySearchFunc, Bool.and_eq_true, decide_eq_true_eq,
      and_iff_left_iff_imp]
    exact fun hlt => tailCmp_eq.2 (not_lt.1 fun h' => habove _ le_rfl hlt (tailCmp_lt.2 h'))

/-- **The resolved index holds the clockwise successor of the hash.** -/
theorem firstKeyIndex_isSuccessor {s : HashRing Node} (hr : RepInv s) (hpos : 0 < s.sortedKeys.length)
    (h : UInt32) : IsSuccessor s.nodeByKey.keys h (s.sortedKeys.getD (firstKeyIndex s h) 0) := by
  obtain ⟨hn, hbelow, habove, hfound⟩ := tailSearch_spec hr.sorted h
  have hmem : ∀ k, k < s.sortedKeys.length → s.sortedKeys.getD k 0 ∈ s.nodeByKey.keys := fun k hk => by
    rw [Finmap.mem_keys, ← hr.mem_iff, List.getD_eq_getElem _ _ hk]; exact List.getElem_mem hk
  have hidx : ∀ q ∈ s.nodeByKey.keys, ∃ k < s.sortedKeys.length, s.sortedKeys.getD k 0 = q := by
    intro q hq
    obtain ⟨k, hk, rfl⟩ := List.getElem_of_mem ((hr.mem_iff q).2 (Finmap.mem_keys.1 hq))
    exact ⟨k, hk, List.getD_eq_getElem _ _ hk⟩
  simp only [firstKeyIndex]
  split
  · have hlt := hfound.1 ‹_›
    refine ⟨hmem _ hlt, .inl ⟨habove _ le_rfl hlt, fun q hq hhq => ?_⟩⟩
    obtain ⟨k, hk, rfl⟩ := hidx q hq
    exact getD_le_getD hr.sorted (not_lt.1 fun hki => absurd (hbelow k hki) (not_lt.2 hhq)) hk
  · have hall : (tailSearch s h).1 = s.sortedKeys.length := by
      have := mt hfound.2 ‹_›; omega
    refine ⟨hmem 0 hpos, .inr ⟨fun q hq => ?_, fun q hq => ?_⟩⟩
    · obtain ⟨k, hk, rfl⟩ := hidx q hq
      exact hbelow k (hall ▸ hk)
    · obtain ⟨k, hk, rfl⟩ := hidx q hq
      exact getD_le_getD hr.sorted (Nat.zero_le k) hk

/-- A non-empty table has a successor for every hash. -/
theorem exists_isSuccessor {s : HashRing Node} (hr : RepInv s) (hne : s.nodeByKey ≠ ∅)
    (h : UInt32) : ∃ p n, IsSuccessor s.nodeByKey.keys h p ∧ s.nodeByKey.lookup p = some n := by
  have hsucc := firstKeyIndex_isSuccessor hr (hr.length_pos hne) h
  obtain ⟨n, hn⟩ := Finmap.mem_iff.1 (Finmap.mem_keys.1 hsucc.1)
  exact ⟨_, n, hsucc, hn⟩

/-- **`getMaxHashKey` returns the largest position** under the representation invariant:
`(0, false)` when the table is empty, and otherwise a position of the table at or above every
other. -/
theorem getMaxHashKey_max {s : HashRing Node} (hr : RepInv s) :
    (s.nodeByKey = ∅ → getMaxHashKey s = (0, false)) ∧
      (s.nodeByKey ≠ ∅ → ∃ k, getMaxHashKey s = (k, true) ∧ k ∈ s.nodeByKey ∧
        ∀ p ∈ s.nodeByKey, p ≤ k) := by
  refine ⟨fun he => if_pos (by rw [hr.length_eq, he, Finmap.keys_empty, Finset.card_empty]),
    fun he => ?_⟩
  have hpos := hr.length_pos he
  refine ⟨_, if_neg (by omega), (hr.mem_iff _).1 ?_, fun p hp => ?_⟩
  · rw [List.getD_eq_getElem _ _ (by omega)]
    exact List.getElem_mem _
  · obtain ⟨i, hi, rfl⟩ := List.getElem_of_mem ((hr.mem_iff p).2 hp)
    rw [← List.getD_eq_getElem _ 0 hi]
    exact getD_le_getD hr.sorted (by omega) (by omega)

theorem getMaxHashKey_max_plainRing :
    (plainRing.nodeByKey = ∅ → getMaxHashKey plainRing = (0, false)) ∧
      (plainRing.nodeByKey ≠ ∅ → ∃ k, getMaxHashKey plainRing = (k, true) ∧
        k ∈ plainRing.nodeByKey ∧ ∀ p ∈ plainRing.nodeByKey, p ≤ k) :=
  getMaxHashKey_max (updateSortedNodes_repInv _)

variable [Inhabited Node]

theorem getNodeByHashKeyIndex_of_lt {s : HashRing Node} {i : Nat} (hi : i < s.sortedKeys.length) :
    getNodeByHashKeyIndex s i = some ((s.nodeByKey.lookup (s.sortedKeys.getD i 0)).getD default) := by
  rw [List.getD_eq_getElem _ _ hi]
  simp [getNodeByHashKeyIndex, List.getElem?_eq_getElem hi]

/-- The search path returns the owner of a position the hash lands on. -/
theorem getNodeByHashKeyIndex_of_isSuccessor {s : HashRing Node} (hr : RepInv s)
    (hpos : 0 < s.sortedKeys.length) {h p : UInt32} {n : Node}
    (hp : IsSuccessor s.nodeByKey.keys h p) (hn : s.nodeByKey.lookup p = some n) :
    getNodeByHashKeyIndex s (firstKeyIndex s h) = some n := by
  rw [getNodeByHashKeyIndex_of_lt (firstKeyIndex_lt h hpos),
    (firstKeyIndex_isSuccessor hr hpos h).unique hp, hn]
  rfl

/-- The search path agrees with the exact-match fast path. -/
theorem getNodeByHashKeyIndex_of_lookup {s : HashRing Node} (hr : RepInv s) {hash : UInt32}
    {rv : Node} (hl : s.nodeByKey.lookup hash = some rv) :
    getNodeByHashKeyIndex s (firstKeyIndex s hash) = some rv := by
  have hmem := Finmap.mem_of_lookup_eq_some hl
  exact getNodeByHashKeyIndex_of_isSuccessor hr (List.length_pos_of_mem ((hr.mem_iff _).2 hmem))
    (isSuccessor_self (Finmap.mem_keys.2 hmem)) hl

variable [DecidableEq Node] (c : Config Node) {s : HashRing Node}

theorem get_of_empty (he : s.nodeByKey = ∅) (key : String) : get c s key = some (default, false) := by
  simp [get, he]

/-- `Get` returns the owner of the position the key's hash lands on. -/
theorem get_of_isSuccessor (hr : RepInv s) {key : String} {p : UInt32} {n : Node}
    (hp : IsSuccessor s.nodeByKey.keys (c.getHashKey key) p) (hn : s.nodeByKey.lookup p = some n) :
    get c s key = some (n, true) := by
  have hne : s.nodeByKey ≠ ∅ := fun he => by
    simp only [he, Finmap.keys_empty] at hp
    exact Finset.not_mem_empty _ hp.1
  have hpos := hr.length_pos hne
  have hidx := getNodeByHashKeyIndex_of_isSuccessor hr hpos hp hn
  simp only [get, hne, if_false, getPrimaryNode, getNodeByHashKey, Nat.pos_iff_ne_zero.1 hpos]
  cases hl : s.nodeByKey.lookup (c.getHashKey key) with
  | some rv => rw [← Option.some_inj, ← getNodeByHashKeyIndex_of_lookup hr hl, hidx]
  | none => simp [hidx]

/-- **`Get` returns the owner of the clockwise successor of the key's hash**, for every state
satisfying the representation invariant and every key: the zero node and `false` on an empty
table; otherwise the owner of the first position at or after `getHashKey key`, wrapping to the
smallest position. And for every hash that is a position, the exact-match fast path of
`getNodeByHashKey` and the `tailSearch` path return the same node. -/
theorem get_isSuccessor (hr : RepInv s) (key : String) :
    (s.nodeByKey = ∅ → get c s key = some (default, false)) ∧
      (s.nodeByKey ≠ ∅ → ∃ p n, IsSuccessor s.nodeByKey.keys (c.getHashKey key) p ∧
        s.nodeByKey.lookup p = some n ∧ get c s key = some (n, true)) ∧
      ∀ hash rv, s.nodeByKey.lookup hash = some rv →
        getNodeByHashKeyIndex s (firstKeyIndex s hash) = some rv := by
  refine ⟨fun he => get_of_empty c he key, fun hne => ?_, fun _ _ => getNodeByHashKeyIndex_of_lookup hr⟩
  obtain ⟨p, n, hp, hn⟩ := exists_isSuccessor hr hne (c.getHashKey key)
  exact ⟨p, n, hp, hn, get_of_isSuccessor c hr hp hn⟩

theorem get_isSuccessor_plainRing :
    (plainRing.nodeByKey = ∅ → get (Config.plain 2) plainRing "k" = some (default, false)) ∧
      (plainRing.nodeByKey ≠ ∅ → ∃ p n, IsSuccessor plainRing.nodeByKey.keys
        ((Config.plain 2).getHashKey "k") p ∧ plainRing.nodeByKey.lookup p = some n ∧
        get (Config.plain 2) plainRing "k" = some (n, true)) ∧
      ∀ hash rv, plainRing.nodeByKey.lookup hash = some rv →
        getNodeByHashKeyIndex plainRing (firstKeyIndex plainRing hash) = some rv :=
  get_isSuccessor (Config.plain 2) (updateSortedNodes_repInv _) "k"

end Hashring
