/-
**Words of bits.**

A word is a list of bits, most significant first.  It is the view in which everything that is
moved over a bit stream is described: a number occupies a word of a fixed width, and a word is
packed into bytes from the high end of the first byte on, a last partial byte being filled with
zeros.

Main definitions:

* `WireTree.Bits.ofNat`, `WireTree.Bits.toNat` — the low bits of a number as a word, and the
  number a word stands for;
* `WireTree.Bits.ofBytes`, `WireTree.Bits.toBytes` — the bits of a run of bytes, and the packing
  of a word into bytes.

Main results:

* `WireTree.Bits.length_ofNat`, `WireTree.Bits.toNat_lt` — widths;
* `WireTree.Bits.toNat_ofNat` — a word of `w` bits keeps a number modulo `2 ^ w`;
* `WireTree.Bits.ofNat_toNat` — a word is recovered from its number and its width.
-/

import WireTree.Words

set_option relaxedAutoImplicit false
set_option autoImplicit false

namespace WireTree.Bits

/-! ### Numbers as words -/

/-- The low `width` bits of `n`, most significant first. -/
def ofNat : (width : Nat) → (n : Nat) → List Bool
  | 0, _ => []
  | width + 1, n => n.testBit width :: ofNat width n

/-- The number a word stands for, most significant bit first. -/
def toNat : List Bool → Nat
  | [] => 0
  | b :: w => b.toNat * 2 ^ w.length + toNat w

@[simp] theorem ofNat_zero (n : Nat) : ofNat 0 n = [] := rfl

@[simp] theorem toNat_nil : toNat [] = 0 := rfl

@[simp] theorem length_ofNat (width n : Nat) : (ofNat width n).length = width := by
  induction width with
  | zero => rfl
  | succ width ih => simp [ofNat, ih]

theorem toNat_lt (w : List Bool) : toNat w < 2 ^ w.length := by
  induction w with
  | nil => simp
  | cons b w ih => cases b <;> simp [toNat, Nat.pow_succ] <;> omega

/-- A word of a given width keeps a number modulo that power of two. -/
theorem toNat_ofNat (width n : Nat) : toNat (ofNat width n) = n % 2 ^ width := by
  induction width with
  | zero => simp [Nat.mod_one]
  | succ width ih =>
    have hbit : (n.testBit width).toNat = n / 2 ^ width % 2 := by
      rw [Nat.testBit_eq_decide_div_mod_eq]
      rcases Nat.mod_two_eq_zero_or_one (n / 2 ^ width) with h | h <;> simp [h]
    rw [ofNat, toNat, ih, length_ofNat, hbit, Nat.pow_succ, Nat.mod_mul, Nat.mul_comm,
      Nat.add_comm]

/-- Bits above the width do not matter. -/
theorem ofNat_mod (width n : Nat) {m : Nat} (h : width ≤ m) :
    ofNat width (n % 2 ^ m) = ofNat width n := by
  induction width with
  | zero => rfl
  | succ width ih =>
    have hw : width < m := by omega
    rw [ofNat, ofNat, ih (by omega), Nat.testBit_mod_two_pow]
    simp [hw]

/-- A word is recovered from the number it stands for. -/
theorem ofNat_toNat (w : List Bool) : ofNat w.length (toNat w) = w := by
  induction w with
  | nil => rfl
  | cons b w ih =>
    have hlt : toNat w < 2 ^ w.length := toNat_lt w
    have hlow : (b.toNat * 2 ^ w.length + toNat w) % 2 ^ w.length = toNat w := by
      rw [Nat.mul_add_mod_self_right, Nat.mod_eq_of_lt hlt]
    rw [List.length_cons, ofNat, toNat]
    congr 1
    · rw [Nat.testBit_eq_decide_div_mod_eq, Nat.mul_comm,
        Nat.mul_add_div (Nat.two_pow_pos _), Nat.div_eq_of_lt hlt]
      cases b <;> simp
    · rw [← ofNat_mod w.length _ (Nat.le_refl _), hlow, ih]

/-! ### Bytes -/

/-- The bits of a run of bytes. -/
def ofBytes (bytes : List UInt8) : List Bool :=
  bytes.flatMap fun byte => ofNat 8 byte.toNat

/-- The byte whose high bits are the given ones, the bits after the eighth being left out and
missing ones being zero. -/
def toByte (w : List Bool) : UInt8 :=
  UInt8.ofNat (toNat ((w ++ List.replicate 8 false).take 8))

/-- A word packed into as many bytes as it needs. -/
def toBytes (w : List Bool) : List UInt8 :=
  (List.range ((w.length + 7) / 8)).map fun i => toByte (w.drop (8 * i))

@[simp] theorem ofBytes_nil : ofBytes [] = [] := rfl

@[simp] theorem ofBytes_cons (byte : UInt8) (bytes : List UInt8) :
    ofBytes (byte :: bytes) = ofNat 8 byte.toNat ++ ofBytes bytes := rfl

@[simp] theorem ofBytes_append (a b : List UInt8) : ofBytes (a ++ b) = ofBytes a ++ ofBytes b := by
  simp [ofBytes]

@[simp] theorem length_ofBytes (bytes : List UInt8) :
    (ofBytes bytes).length = 8 * bytes.length := by
  induction bytes with
  | nil => rfl
  | cons byte bytes ih => simp [ih]; omega

@[simp] theorem length_toBytes (w : List Bool) : (toBytes w).length = (w.length + 7) / 8 := by
  simp [toBytes]

end WireTree.Bits
