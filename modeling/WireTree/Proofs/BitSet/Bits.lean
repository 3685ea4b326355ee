/-
**A set of bits is a list of bits.**

What the operations do to packed words is described by what they do to the list of bits: setting a
bit replaces one member, changing the length cuts the list off or fills it up with clear bits, and
taking a bit out erases one member, across all words behind it.  A well-formed set has no
information besides its bits, so two well-formed sets with the same bits are the same set.

Main results:

* `WireTree.BitSet.WellFormed.eq_of_toList_eq` — the bits determine a well-formed set;
* `WireTree.BitSet.WellFormed.toList_of_set`, `WireTree.BitSet.toList_clear`,
  `WireTree.BitSet.WellFormed.toList_resize`, `WireTree.BitSet.WellFormed.toList_of_remove` — the
  operations on the list of bits;
* `WireTree.BitSet.toList_ofList` — a set made from a list of bits has those bits.
-/

import WireTree.Proofs.BitSet

set_option relaxedAutoImplicit false
set_option autoImplicit false

namespace WireTree.BitSet

variable {b b' : BitSet}

/-! ### Bits and lists of bits -/

theorem getElem_toList (b : BitSet) (i : Nat) (h : i < b.toList.length) :
    b.toList[i] = b.get i := by
  simp [toList]

theorem toList_eq_iff {bits : List Bool} :
    b.toList = bits ↔ b.len = bits.length ∧ ∀ i (h : i < bits.length), b.get i = bits[i] := by
  constructor
  · rintro rfl
    refine ⟨b.length_toList.symm, ?_⟩
    intro i h
    rw [getElem_toList]
  · rintro ⟨hlen, hget⟩
    refine List.ext_getElem (by rw [length_toList, hlen]) ?_
    intro i h₁ h₂
    rw [getElem_toList, hget i h₂]

/-- A well-formed set is its bits. -/
theorem WellFormed.eq_of_toList_eq (h : b.WellFormed) (h' : b'.WellFormed)
    (hbits : b.toList = b'.toList) : b = b' := by
  have hlen : b.len = b'.len := by rw [← length_toList, hbits, length_toList]
  have hplace (i : Nat) : placeAt b.words i = placeAt b'.words i := by
    rw [← h.get_eq, ← h'.get_eq]
    by_cases hi : i < b.len
    · rw [← getElem_toList b i (by simpa using hi), ← getElem_toList b' i (by simp; omega)]
      simp only [hbits]
    · rw [get_of_le (by omega), get_of_le (by omega)]
  have hsize : b.words.size = b'.words.size := by rw [h.size_words, h'.size_words, hlen]
  have hwords : b.words = b'.words := by
    refine Array.ext hsize ?_
    intro i h₁ h₂
    refine UInt32.toNat_inj.1 (Nat.eq_of_testBit_eq ?_)
    intro j
    by_cases hj : j < 32
    · have hbit := hplace (32 * i + j)
      have hdiv : (32 * i + j) / 32 = i := by omega
      have hmod : (32 * i + j) % 32 = j := by omega
      simpa [placeAt, hdiv, hmod, h₁, h₂] using hbit
    · -- a word has no more than 32 places
      have hpow : 2 ^ 32 ≤ 2 ^ j := Nat.pow_le_pow_right (by omega) (by omega)
      rw [Nat.testBit_lt_two_pow (Nat.lt_of_lt_of_le (UInt32.toNat_lt _) hpow),
        Nat.testBit_lt_two_pow (Nat.lt_of_lt_of_le (UInt32.toNat_lt _) hpow)]
  cases b
  cases b'
  cases hlen
  cases hwords
  rfl

/-! ### Setting bits -/

theorem WellFormed.get_put (h : b.WellFormed) {i : Nat} (hi : i < b.len) (value : Bool) (j : Nat) :
    (b.put i value).get j = if j = i then value else b.get j := by
  have hsize : i / 32 < b.words.size := by
    rw [h.size_words, wordCount]
    omega
  rw [(h.put hi value).get_eq, h.get_eq, placeAt_put b i value j hsize]

theorem WellFormed.toList_put (h : b.WellFormed) {i : Nat} (hi : i < b.len) (value : Bool) :
    (b.put i value).toList = b.toList.set i value := by
  refine toList_eq_iff.2 ⟨by simp, ?_⟩
  intro j hj
  rw [h.get_put hi, List.getElem_set, getElem_toList]
  simp only [eq_comm]

/-- Setting a bit replaces one member of the list. -/
theorem WellFormed.toList_of_set (h : b.WellFormed) {i : Nat} {value : Bool}
    (hset : b.set i value = .ok b') : b'.toList = b.toList.set i value := by
  unfold BitSet.set at hset
  split at hset
  · rename_i hi
    cases hset
    exact h.toList_put hi value
  · cases hset

theorem get_replicate (len i : Nat) : (BitSet.replicate len).get i = false := by
  rw [(WellFormed.replicate len).get_eq, placeAt]
  simp only [BitSet.replicate, Array.getD_eq_getD_getElem?, Array.getElem?_replicate]
  split <;> simp

theorem get_clear (b : BitSet) (i : Nat) : b.clear.get i = false := by
  cases hw : b.words[i / 32]? <;> simp [get, BitSet.clear, hw]

theorem toList_clear (b : BitSet) : b.clear.toList = List.replicate b.len false := by
  refine toList_eq_iff.2 ⟨by simp, ?_⟩
  intro i hi
  rw [get_clear, List.getElem_replicate]

/-- A well-formed set without a set bit is its length. -/
theorem WellFormed.eq_of_clear (h : b.WellFormed) (h' : b'.WellFormed) (hlen : b.len = b'.len)
    (hclear : ∀ i, b.get i = false) (hclear' : ∀ i, b'.get i = false) : b = b' := by
  refine h.eq_of_toList_eq h' (toList_eq_iff.2 ⟨by rw [length_toList, hlen], ?_⟩)
  intro i hi
  rw [getElem_toList, hclear, hclear']

/-! ### Making sets -/

/-- The marks from `k` on are put one after the other into places that are clear. -/
theorem WellFormed.toList_foldl_put (h : b.WellFormed) (bits : List Bool) {k : Nat}
    (hlen : b.len = k + bits.length) (hclear : ∀ j, k ≤ j → b.get j = false) :
    ((bits.zipIdx k).foldl (fun b p => if p.1 then b.put p.2 true else b) b).toList =
      b.toList.take k ++ bits := by
  induction bits generalizing b k with
  | nil =>
      have htake : b.toList.take k = b.toList := List.take_of_length_le (by simp [hlen])
      simp [htake]
  | cons bit bits ih =>
      rw [List.length_cons] at hlen
      have hk : k < b.len := by omega
      have hlast : b.toList.take (k + 1) = b.toList.take k ++ [false] := by
        rw [List.take_succ_eq_append_getElem (by simpa using hk), getElem_toList,
          hclear k (Nat.le_refl k)]
      rw [List.zipIdx_cons, List.foldl_cons]
      cases bit with
      | false =>
          have hrest := ih (k := k + 1) h (by omega) fun j hj => hclear j (by omega)
          rw [hlast] at hrest
          simpa using hrest
      | true =>
          have hput := h.put hk true
          have hclear' : ∀ j, k + 1 ≤ j → (b.put k true).get j = false := by
            intro j hj
            rw [h.get_put hk, if_neg (by omega), hclear j (by omega)]
          have hrest := ih hput (by rw [len_put]; omega) hclear'
          have hset : (b.put k true).toList.take (k + 1) = b.toList.take k ++ [true] := by
            rw [h.toList_put hk, List.take_set, hlast,
              List.set_append_right k true (by rw [List.length_take]; omega), List.length_take,
              length_toList, Nat.min_eq_left (by omega), Nat.sub_self]
            rfl
          rw [hset] at hrest
          simpa using hrest

/-- A set made from a list of bits has those bits. -/
@[simp] theorem toList_ofList (bits : List Bool) : (ofList bits).toList = bits := by
  have h := (WellFormed.replicate bits.length).toList_foldl_put bits (k := 0) (by simp)
    fun j _ => get_replicate _ j
  simpa [ofList] using h

/-! ### Changing the length -/

/-- The mask of the last word keeps all places that hold bits. -/
theorem testBit_tailMask {len i : Nat} (hi : i < len) (hlast : i / 32 = wordCount len - 1) :
    (tailMask len).toNat.testBit (i % 32) = true := by
  rw [tailMask]
  split
  · have hones : (~~~0 : UInt32).toNat = 2 ^ 32 - 1 := rfl
    rw [hones, Nat.testBit_two_pow_sub_one]
    simp only [decide_eq_true_eq]
    omega
  · rename_i hrem
    rw [toNat_lowMask (by omega), Nat.testBit_two_pow_sub_one]
    rw [wordCount] at hlast
    simp only [decide_eq_true_eq]
    omega

/-- Cutting words off and filling up with zeros changes no word that stays. -/
theorem getD_take_append_replicate (words : Array UInt32) {count i : Nat} (hi : i < count) :
    (words.take count ++ Array.replicate (count - words.size) 0).getD i 0 = words.getD i 0 := by
  simp only [Array.getD_eq_getD_getElem?, Array.getElem?_append, Array.take_eq_extract,
    Array.size_extract, Array.getElem?_extract, Array.getElem?_replicate, Nat.zero_add,
    Nat.sub_zero]
  by_cases hsize : i < words.size
  · simp only [if_pos (by omega : i < min count words.size)]
  · rw [if_neg (by omega), if_pos (by omega), Array.getElem?_eq_none (by omega)]
    rfl

/-- A change of the length keeps the bits before the new end; new bits are clear. -/
theorem WellFormed.get_resize (h : b.WellFormed) (len i : Nat) :
    (b.resize len).get i = (decide (i < len) && b.get i) := by
  by_cases hi : i < len
  · have hword : i / 32 < wordCount len := by
      rw [wordCount]
      omega
    have hsize : i / 32 < (b.words.take (wordCount len) ++
        Array.replicate (wordCount len - b.words.size) 0).size := by
      simp
      omega
    rw [(WellFormed.resize b len).get_eq, h.get_eq, decide_eq_true hi, Bool.true_and, placeAt,
      placeAt, ← getD_take_append_replicate b.words hword, BitSet.resize]
    simp only [Array.getD_eq_getD_getElem?, Array.getElem?_modify]
    split
    · rename_i hlast
      simp [Array.getElem?_eq_getElem hsize, testBit_tailMask hi hlast.symm]
    · rfl
  · rw [get_of_le (by simpa using hi), decide_eq_false hi, Bool.false_and]

/-- Changing the length cuts the list off or fills it up with clear bits. -/
theorem WellFormed.toList_resize (h : b.WellFormed) (len : Nat) :
    (b.resize len).toList = b.toList.take len ++ List.replicate (len - b.len) false := by
  refine toList_eq_iff.2 ⟨by simp; omega, ?_⟩
  intro i hi
  have hi' : i < len := by
    simp at hi
    omega
  rw [h.get_resize, decide_eq_true hi', Bool.true_and, List.getElem_append]
  split
  · rw [List.getElem_take, getElem_toList]
  · rename_i hold
    rw [List.getElem_replicate, get_of_le]
    simp at hold
    omega

/-! ### Taking bits out -/

/-- Moving `n` bits down by one, the first of them to place `i`. -/
theorem WellFormed.get_foldl_put (h : b.WellFormed) {i n : Nat} (hlen : i + n < b.len) :
    let moved := (List.range' i n).foldl (fun b j => b.put j (b.get (j + 1))) b
    moved.WellFormed ∧ moved.len = b.len ∧
      ∀ j, moved.get j = if i ≤ j ∧ j < i + n then b.get (j + 1) else b.get j := by
  induction n generalizing b i with
  | zero =>
      refine ⟨h, rfl, ?_⟩
      intro j
      rw [if_neg (by omega)]
      rfl
  | succ n ih =>
      have hi : i < b.len := by omega
      obtain ⟨hwf, hlen', hget⟩ := ih (i := i + 1) (h.put hi (b.get (i + 1)))
        (by rw [len_put]; omega)
      refine ⟨hwf, hlen', ?_⟩
      intro j
      rw [List.range'_succ, List.foldl_cons, hget, h.get_put hi, h.get_put hi]
      -- the bit at `i` has been moved first, and no later step looks at it
      by_cases hj : j = i
      · subst hj
        rw [if_neg (by omega), if_pos rfl, if_pos (by omega)]
      · rw [if_neg hj]
        by_cases hrange : i + 1 ≤ j ∧ j < i + 1 + n
        · rw [if_pos hrange, if_neg (by omega), if_pos (by omega)]
        · rw [if_neg hrange, if_neg (by omega)]

/-- Taking a bit out erases one member of the list. -/
theorem WellFormed.toList_of_remove (h : b.WellFormed) {i : Nat} {removed : Bool}
    (hremove : b.remove i = .ok (removed, b')) :
    removed = b.get i ∧ b'.toList = b.toList.eraseIdx i := by
  unfold BitSet.remove at hremove
  split at hremove
  · rename_i hi
    cases hremove
    refine ⟨rfl, ?_⟩
    obtain ⟨hwf, hlen, hget⟩ := h.get_foldl_put (i := i) (n := b.len - 1 - i) (by omega)
    refine toList_eq_iff.2 ⟨?_, ?_⟩
    · rw [List.length_eraseIdx, length_toList, if_pos hi]
      rfl
    · intro j hj
      rw [List.length_eraseIdx, length_toList, if_pos hi] at hj
      rw [BitSet.shiftDown, hwf.get_resize, decide_eq_true hj, Bool.true_and, hget,
        List.getElem_eraseIdx]
      by_cases hji : j < i
      · rw [if_neg (by omega), dif_pos hji, getElem_toList]
      · rw [if_pos (by omega), dif_neg hji, getElem_toList]
  · cases hremove

end WireTree.BitSet
