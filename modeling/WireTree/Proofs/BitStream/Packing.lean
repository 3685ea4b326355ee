/-
**The bits of packed bytes, one by one.**

The loops of a bit stream work on bytes, shifts and masks, while everything that is said about a
stream is said about lists of bits.  This module is the step between the two: it names the bit at
a position of packed bytes, says what the loops do to the bit at every position, and reads whole
lists of bits off the positions they occupy.

A piece that is laid into its byte is or-ed into it, so a position that the transfer does not
cover keeps its bit and one that it covers gains a bit of the value; this holds whatever the byte
held before.  That the covered positions held zeros is the concern of the stream, not of the loop.

Main definitions:

* `WireTree.Bits.bitAt` — the bit at a position of packed bytes, zero past their end;
* `WireTree.Bits.window` — the bits at consecutive positions.

Main results:

* `WireTree.Bits.bitAt_foldl_deposit` — the writing loop, position by position;
* `WireTree.Bits.testBit_foldl_extract` — the reading loop, bit by bit of the number it gives;
* `WireTree.Bits.ofBytes_eq_window` — the bits of a run of bytes are those at its positions;
* `WireTree.Bits.toBytes_window` — bytes whose bits end in zeros are the packing of the others.
-/

import WireTree.BitStream.Basic

set_option relaxedAutoImplicit false
set_option autoImplicit false

namespace WireTree

/-! ### One piece -/

/-- The first piece of a transfer that moves anything begins where the transfer begins and ends at
the end of its byte or of the transfer. -/
theorem Piece.first_spec (start : Nat) {count : Nat} (h : count ≠ 0) :
    0 < (first start count).width ∧ (first start count).index = start / 8 ∧
      (first start count).shift + (first start count).width + start % 8 = 8 ∧
      (first start count).below + (first start count).width = count := by
  refine ⟨?_, rfl, ?_, ?_⟩ <;> simp only [first] <;> omega

theorem Piece.testBit_select {p : Piece} (hw : p.width < 32) (hb : p.below < 32) (value : UInt32)
    (m : Nat) : (p.select value).toNat.testBit m =
      (value.toNat.testBit (p.below + m) && decide (m < p.width)) := by
  rw [Piece.select, UInt32.toNat_and, UInt32.toNat_shiftRight, toNat_ofNat_mod_32 hb,
    Piece.mask, toNat_lowMask hw, Nat.testBit_and, Nat.testBit_shiftRight,
    Nat.testBit_two_pow_sub_one]

namespace Bits

/-- The bit at position `j` of packed bytes; past their end there are only zeros. -/
def bitAt (data : Array UInt8) (j : Nat) : Bool := (data.getD (j / 8) 0).toNat.testBit (7 - j % 8)

theorem bitAt_of_le {data : Array UInt8} {j : Nat} (h : 8 * data.size ≤ j) :
    bitAt data j = false := by
  have hget : data[j / 8]? = none := Array.getElem?_eq_none (by omega)
  simp [bitAt, hget]

/-- Bit `m` of an extracted piece stands `m` places above the piece's lowest place. -/
theorem testBit_extract {p : Piece} (hs : p.shift + p.width ≤ 8) (data : Array UInt8) (m : Nat) :
    (p.extract data).toNat.testBit m =
      (decide (m < p.width) && bitAt data (8 * p.index + (7 - (p.shift + m)))) := by
  rw [Piece.extract, UInt32.toNat_and, UInt32.toNat_shiftRight, toNat_ofNat_mod_32 (by omega),
    Piece.mask, toNat_lowMask (by omega), Nat.testBit_and, Nat.testBit_shiftRight,
    Nat.testBit_two_pow_sub_one, UInt8.toNat_toUInt32]
  by_cases hm : m < p.width
  · have hdiv : (8 * p.index + (7 - (p.shift + m))) / 8 = p.index := by omega
    have hmod : 7 - (8 * p.index + (7 - (p.shift + m))) % 8 = p.shift + m := by omega
    rw [bitAt, hdiv, hmod]
    simp [hm]
  · simp [hm]

/-- Laying a piece into its byte adds the bits of the value at the places of the piece and leaves
all other positions alone. -/
theorem bitAt_deposit {p : Piece} (hs : p.shift + p.width ≤ 8) (hb : p.below < 32)
    {data : Array UInt8} (hi : p.index < data.size) (value : UInt32) (j : Nat) :
    bitAt (p.deposit value data) j =
      (bitAt data j ||
        (decide (j / 8 = p.index ∧ p.shift ≤ 7 - j % 8 ∧ 7 - j % 8 < p.shift + p.width) &&
          value.toNat.testBit (p.below + (7 - j % 8 - p.shift)))) := by
  have hbit : ((p.select value <<< UInt32.ofNat p.shift).toUInt8).toNat.testBit (7 - j % 8) =
      (decide (p.shift ≤ 7 - j % 8 ∧ 7 - j % 8 < p.shift + p.width) &&
        value.toNat.testBit (p.below + (7 - j % 8 - p.shift))) := by
    rw [UInt32.toNat_toUInt8, UInt32.toNat_shiftLeft, toNat_ofNat_mod_32 (by omega),
      Nat.testBit_mod_two_pow, Nat.testBit_mod_two_pow, Nat.testBit_shiftLeft,
      Piece.testBit_select (by omega) hb]
    have h8 : 7 - j % 8 < 8 := by omega
    have h32 : 7 - j % 8 < 32 := by omega
    by_cases hle : p.shift ≤ 7 - j % 8
    · have hiff : 7 - j % 8 - p.shift < p.width ↔ 7 - j % 8 < p.shift + p.width := by omega
      simp [h8, h32, hle, hiff, Bool.and_comm]
    · simp [hle]
  by_cases hj : j / 8 = p.index
  · have hget : (p.deposit value data).getD (j / 8) 0 =
        data.getD (j / 8) 0 ||| (p.select value <<< UInt32.ofNat p.shift).toUInt8 := by
      simp [Piece.deposit, hj, hi, Array.getElem_modify]
    rw [bitAt, hget, UInt8.toNat_or, Nat.testBit_or, hbit, bitAt]
    simp [hj]
  · have hget : (p.deposit value data).getD (j / 8) 0 = data.getD (j / 8) 0 := by
      simp [Piece.deposit, Array.getElem?_modify, Ne.symm hj]
    rw [bitAt, hget, bitAt]
    simp [hj]

/-! ### The two loops -/

/-- The writing loop adds bit `start + count - 1 - j` of the value at every position `j` that the
transfer covers and leaves all other positions alone. -/
theorem bitAt_foldl_deposit {fuel start count : Nat} (hf : count ≤ fuel) (hc : count ≤ 32)
    (value : UInt32) {data : Array UInt8} (hsize : start + count ≤ 8 * data.size) (j : Nat) :
    bitAt ((piecesUpTo fuel start count).foldl (fun data p => p.deposit value data) data) j =
      (bitAt data j ||
        (decide (start ≤ j ∧ j < start + count) &&
          value.toNat.testBit (start + count - 1 - j))) := by
  -- the fuel bounds the number of pieces; the first one is peeled off and the rest begins where
  -- it ends
  induction fuel generalizing start count data with
  | zero =>
      have hj : ¬ (start ≤ j ∧ j < start + count) := by omega
      simp [piecesUpTo, hj]
  | succ fuel ih =>
      by_cases h0 : count = 0
      · have hj : ¬ (start ≤ j ∧ j < start + count) := by omega
        rw [piecesUpTo, if_pos h0, decide_eq_false hj]
        simp
      · obtain ⟨hw, hi, hs, hb⟩ := Piece.first_spec start h0
        rw [piecesUpTo, if_neg h0]
        generalize Piece.first start count = p at *
        have hin : p.index < data.size := by omega
        simp only [List.foldl_cons]
        rw [ih (by omega) (by omega) (by rw [Piece.size_deposit]; omega),
          bitAt_deposit (by omega) (by omega) hin, Bool.or_assoc]
        congr 1
        by_cases hj : j / 8 = p.index ∧ p.shift ≤ 7 - j % 8 ∧ 7 - j % 8 < p.shift + p.width
        · have hrest : ¬ (start + p.width ≤ j ∧ j < start + p.width + p.below) := by omega
          have hall : start ≤ j ∧ j < start + count := by omega
          have hbit : p.below + (7 - j % 8 - p.shift) = start + count - 1 - j := by omega
          rw [decide_eq_true hj, decide_eq_false hrest, decide_eq_true hall, hbit]
          simp
        · have hiff : start + p.width ≤ j ∧ j < start + p.width + p.below ↔
              start ≤ j ∧ j < start + count := by omega
          have hbit : start + p.width + p.below - 1 - j = start + count - 1 - j := by omega
          rw [decide_eq_false hj, hbit]
          simp [hiff]

/-- The reading loop moves the number it starts with up by `count` places and puts the bits it
takes below it, the first one highest. -/
theorem testBit_foldl_extract {fuel start count : Nat} (hf : count ≤ fuel) (hc : count ≤ 32)
    (data : Array UInt8) (acc : UInt32) (i : Nat) :
    ((piecesUpTo fuel start count).foldl
        (fun value p => (value <<< UInt32.ofNat p.width) ||| p.extract data) acc).toNat.testBit i =
      if i < count then bitAt data (start + count - 1 - i)
      else decide (i < 32) && acc.toNat.testBit (i - count) := by
  induction fuel generalizing start count acc with
  | zero =>
      have h0 : count = 0 := by omega
      rw [piecesUpTo, List.foldl_nil, testBit_word, h0]
      simp
  | succ fuel ih =>
      by_cases h0 : count = 0
      · rw [piecesUpTo, if_pos h0, List.foldl_nil, testBit_word, h0]
        simp
      · obtain ⟨hw, hi, hs, hb⟩ := Piece.first_spec start h0
        rw [piecesUpTo, if_neg h0]
        generalize Piece.first start count = p at *
        simp only [List.foldl_cons]
        rw [ih (by omega) (by omega), UInt32.toNat_or, UInt32.toNat_shiftLeft,
          toNat_ofNat_mod_32 (by omega), Nat.testBit_or, Nat.testBit_mod_two_pow,
          Nat.testBit_shiftLeft, testBit_extract (by omega)]
        -- bit `i` comes from the later pieces, from this one, or from the number before
        by_cases hbelow : i < p.below
        · have hlt : i < count := by omega
          have hbit : start + p.width + p.below - 1 - i = start + count - 1 - i := by omega
          rw [if_pos hbelow, if_pos hlt, hbit]
        · rw [if_neg hbelow]
          by_cases hlt : i < count
          · have hbit : 8 * p.index + (7 - (p.shift + (i - p.below))) = start + count - 1 - i := by
              omega
            have hle : ¬ p.width ≤ i - p.below := by omega
            have h32 : i < 32 := by omega
            have hpiece : i - p.below < p.width := by omega
            rw [if_pos hlt, hbit]
            simp [hle, h32, hpiece]
          · have hbit : i - p.below - p.width = i - count := by omega
            have hpiece : ¬ i - p.below < p.width := by omega
            have hle : p.width ≤ i - p.below := by omega
            rw [if_neg hlt, hbit]
            by_cases h32 : i < 32
            · have h32' : i - p.below < 32 := by omega
              simp [h32, h32', hle, hpiece]
            · simp [h32]

/-! ### Filling up with zeros -/

@[simp] theorem bitAt_reserve (data : Array UInt8) (count j : Nat) :
    bitAt (BitStream.reserve data count) j = bitAt data j := by
  have hget : (BitStream.reserve data count).getD (j / 8) 0 = data.getD (j / 8) 0 := by
    simp only [BitStream.reserve, Array.getD_eq_getD_getElem?, Array.getElem?_append,
      Array.getElem?_replicate]
    split
    · rfl
    · rename_i h
      rw [Array.getElem?_eq_none (by omega)]
      split <;> rfl
  rw [bitAt, hget, bitAt]

@[simp] theorem size_reserve (data : Array UInt8) (count : Nat) :
    (BitStream.reserve data count).size = max data.size ((count + 7) / 8) := by
  simp only [BitStream.reserve, Array.size_append, Array.size_replicate]
  omega

@[simp] theorem size_deposit (data : Array UInt8) (start : Nat) (value : UInt32) (count : Nat) :
    (BitStream.deposit data start value count).size = max data.size ((start + count + 7) / 8) := by
  have h (ps : List Piece) (data : Array UInt8) :
      (ps.foldl (fun data p => p.deposit value data) data).size = data.size := by
    induction ps generalizing data with
    | nil => rfl
    | cons p ps ih => rw [List.foldl_cons, ih, Piece.size_deposit]
  rw [BitStream.deposit, h, size_reserve]

/-! ### Consecutive positions -/

/-- Bit `i` of a word of `width` bits is bit `width - 1 - i` of the number. -/
theorem getElem_ofNat (width n i : Nat) (h : i < (ofNat width n).length) :
    (ofNat width n)[i] = n.testBit (width - 1 - i) := by
  induction width generalizing i with
  | zero => simp at h
  | succ width ih =>
      cases i with
      | zero => simp [ofNat]
      | succ i =>
          have hw : width + 1 - 1 - (i + 1) = width - 1 - i := by omega
          rw [hw, ← ih i (by simpa using h)]
          rfl

theorem eq_ofNat_iff {w : List Bool} {width n : Nat} (hw : w.length = width) :
    w = ofNat width n ↔ ∀ i (h : i < w.length), w[i] = n.testBit (width - 1 - i) := by
  constructor
  · rintro rfl i h
    exact getElem_ofNat width n i h
  · intro h
    refine List.ext_getElem (by simp [hw]) ?_
    intro i h₁ h₂
    rw [h i h₁, getElem_ofNat]

/-- The bits at `count` positions from `start` on. -/
def window (data : Array UInt8) (start count : Nat) : List Bool :=
  (List.range' start count).map (bitAt data)

@[simp] theorem length_window (data : Array UInt8) (start count : Nat) :
    (window data start count).length = count := by simp [window]

@[simp] theorem getElem_window (data : Array UInt8) (start count i : Nat)
    (h : i < (window data start count).length) :
    (window data start count)[i] = bitAt data (start + i) := by simp [window]

theorem window_append (data : Array UInt8) (start m n : Nat) :
    window data start m ++ window data (start + m) n = window data start (m + n) := by
  rw [window, window, window, ← List.map_append, List.range'_append_1]

theorem take_window (data : Array UInt8) {start m n : Nat} (h : n ≤ m) :
    (window data start m).take n = window data start n := by
  rw [← Nat.add_sub_of_le h, ← window_append, List.take_left' (length_window ..)]

theorem getElem_ofBytes (bytes : List UInt8) (i : Nat) (h : i < (ofBytes bytes).length) :
    (ofBytes bytes)[i] = (bytes.getD (i / 8) 0).toNat.testBit (7 - i % 8) := by
  induction bytes generalizing i with
  | nil => simp at h
  | cons byte bytes ih =>
      simp only [ofBytes_cons]
      by_cases hi : i < 8
      · have hdiv : i / 8 = 0 := by omega
        have hmod : i % 8 = i := by omega
        rw [List.getElem_append_left (by simpa using hi), getElem_ofNat, hdiv, hmod]
        rfl
      · have hdiv : i / 8 = (i - 8) / 8 + 1 := by omega
        have hmod : i % 8 = (i - 8) % 8 := by omega
        rw [List.getElem_append_right (by simp; omega), hdiv, hmod, List.getD_cons_succ]
        simpa using ih (i - 8) (by simp at h ⊢; omega)

/-- The bits of a run of bytes are those at its positions. -/
theorem ofBytes_eq_window (data : Array UInt8) :
    ofBytes data.toList = window data 0 (8 * data.size) := by
  refine List.ext_getElem (by simp) ?_
  intro i h₁ h₂
  rw [getElem_ofBytes, getElem_window, bitAt, Nat.zero_add]
  simp

/-! ### Packing -/

theorem testBit_toByte (w : List Bool) {k : Nat} (hk : k < 8) :
    (toByte w).toNat.testBit k = w.getD (7 - k) false := by
  have hlen : ((w ++ List.replicate 8 false).take 8).length = 8 := by simp
  have hword : (w ++ List.replicate 8 false).take 8 =
      ofNat 8 (toNat ((w ++ List.replicate 8 false).take 8)) := by
    have h := ofNat_toNat ((w ++ List.replicate 8 false).take 8)
    rw [hlen] at h
    exact h.symm
  have hbit := (eq_ofNat_iff hlen).1 hword (7 - k) (by omega)
  have hidx : 8 - 1 - (7 - k) = k := by omega
  rw [hidx] at hbit
  rw [toByte, UInt8.toNat_ofNat', Nat.testBit_mod_two_pow, ← hbit, List.getElem_take,
    List.getElem_append, decide_eq_true hk, Bool.true_and, List.getD_eq_getElem?_getD]
  split
  · rename_i h
    rw [List.getElem?_eq_getElem h, Option.getD_some]
  · rename_i h
    rw [List.getElem?_eq_none (by omega), List.getElem_replicate, Option.getD_none]

/-- Bytes that are as many as `n` bits need, and whose bits from the `n`-th on are zero, are the
packing of their first `n` bits. -/
theorem toBytes_window {data : Array UInt8} {n : Nat} (hsize : data.size = (n + 7) / 8)
    (hzero : ∀ j, n ≤ j → bitAt data j = false) : toBytes (window data 0 n) = data.toList := by
  refine List.ext_getElem (by simp [hsize]) ?_
  intro i h₁ h₂
  have hi : i < data.size := by simpa using h₂
  simp only [toBytes, List.getElem_map, List.getElem_range, Array.getElem_toList]
  refine byte_ext ?_
  intro k hk
  have hbyte : bitAt data (8 * i + (7 - k)) = data[i].toNat.testBit k := by
    have hdiv : (8 * i + (7 - k)) / 8 = i := by omega
    have hmod : 7 - (8 * i + (7 - k)) % 8 = k := by omega
    rw [bitAt, hdiv, hmod]
    simp [hi]
  rw [testBit_toByte _ hk, ← hbyte, List.getD_eq_getElem?_getD, List.getElem?_drop]
  by_cases hn : 8 * i + (7 - k) < n
  · rw [List.getElem?_eq_getElem (by simpa using hn), getElem_window, Nat.zero_add,
      Option.getD_some]
  · rw [List.getElem?_eq_none (by simpa using hn), hzero _ (by omega), Option.getD_none]

end Bits

end WireTree
