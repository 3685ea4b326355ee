/-
**Machine words.**

Shifts, masks and signs of machine words, in terms of the numbers they stand for.

Powers and sums of numbers are taken as in the core library, also where a library with algebraic
instances of its own is around, so that a definition means the same wherever it is read.

Main results:

* `WireTree.toNat_one_shiftLeft`, `WireTree.toNat_lowMask` — the word with one bit set and the word
  whose low bits are set;
* `WireTree.testBit_word`, `WireTree.byte_ext` — the bits of a word;
* `WireTree.toNat_eq_toInt_emod` — unsigned and signed words.
-/

set_option relaxedAutoImplicit false
set_option autoImplicit false

attribute [instance (2000)] instPowNat Zero.ofOfNat0
attribute [default_instance (20000)] instPowNat

namespace WireTree

/-! ### Shifts and masks -/

theorem toNat_ofNat_mod_32 {n : Nat} (h : n < 32) : (UInt32.ofNat n).toNat % 32 = n := by
  rw [UInt32.toNat_ofNat']
  omega

/-- The word whose bit `n` is set. -/
theorem toNat_one_shiftLeft {n : Nat} (h : n < 32) :
    (1 <<< UInt32.ofNat n : UInt32).toNat = 2 ^ n := by
  have hlt : 2 ^ n < 2 ^ 32 := Nat.pow_lt_pow_right (by omega) h
  rw [UInt32.toNat_shiftLeft, toNat_ofNat_mod_32 h, UInt32.toNat_one, Nat.one_shiftLeft,
    Nat.mod_eq_of_lt hlt]

/-- The word whose `n` lowest bits are set. -/
theorem toNat_lowMask {n : Nat} (h : n < 32) :
    ((1 <<< UInt32.ofNat n) - 1 : UInt32).toNat = 2 ^ n - 1 := by
  rw [UInt32.toNat_sub_of_le]
  · rw [toNat_one_shiftLeft h]
    rfl
  · rw [UInt32.le_iff_toNat_le, toNat_one_shiftLeft h]
    exact Nat.one_le_two_pow

/-! ### Bits -/

/-- A word has no bits from the thirty-second on. -/
theorem testBit_word (word : UInt32) (i : Nat) :
    word.toNat.testBit i = (decide (i < 32) && word.toNat.testBit i) := by
  by_cases h : i < 32
  · simp [h]
  · have hlt : word.toNat < 2 ^ i :=
      Nat.lt_of_lt_of_le word.toNat_lt (Nat.pow_le_pow_right (by omega) (by omega))
    simp [h, Nat.testBit_lt_two_pow hlt]

/-- A byte is known by its eight bits. -/
theorem byte_ext {a b : UInt8} (h : ∀ k < 8, a.toNat.testBit k = b.toNat.testBit k) : a = b := by
  refine UInt8.toNat_inj.1 (Nat.eq_of_testBit_eq ?_)
  intro k
  by_cases hk : k < 8
  · exact h k hk
  · have hpow : 2 ^ 8 ≤ 2 ^ k := Nat.pow_le_pow_right (by omega) (by omega)
    rw [Nat.testBit_lt_two_pow (Nat.lt_of_lt_of_le a.toNat_lt hpow),
      Nat.testBit_lt_two_pow (Nat.lt_of_lt_of_le b.toNat_lt hpow)]

/-! ### Signs -/

/-- A word as an unsigned integer is the signed one modulo its power of two. -/
theorem toNat_eq_toInt_emod {width : Nat} (word : BitVec width) :
    (word.toNat : Int) = word.toInt % 2 ^ width := by
  have hlt : (word.toNat : Int) < 2 ^ width := by exact_mod_cast word.isLt
  have hpow : ((2 ^ width : Nat) : Int) = 2 ^ width := by push_cast; rfl
  rw [BitVec.toInt_eq_toNat_bmod, ← hpow, Int.bmod_emod, hpow,
    Int.emod_eq_of_lt (Int.natCast_nonneg _) hlt]

theorem toNat_toUInt8_eq (n : Int8) : (n.toUInt8.toNat : Int) = n.toInt % 2 ^ 8 :=
  toNat_eq_toInt_emod n.toBitVec

theorem toNat_toUInt16_eq (n : Int16) : (n.toUInt16.toNat : Int) = n.toInt % 2 ^ 16 :=
  toNat_eq_toInt_emod n.toBitVec

theorem toNat_toUInt32_eq (n : Int32) : (n.toUInt32.toNat : Int) = n.toInt % 2 ^ 32 :=
  toNat_eq_toInt_emod n.toBitVec

end WireTree
