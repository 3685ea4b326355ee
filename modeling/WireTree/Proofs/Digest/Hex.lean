/-
**Which texts stand for bytes.**

The digits are told as two tables, one of either case.  A text stands for a number of bytes if it
has twice as many characters and all of them are digits, and the digits of these bytes are the text
in lower case.  Any other text is refused, and the reasons are told in the order in which they are
looked for, by the bytes of the text and not by its characters: a character beyond the digits has
up to four bytes, which count for the length, and the first of which is the one complained of.

Main definitions:

* `WireTree.Hex.IsDigit` — the characters that are digits;
* `WireTree.Hex.Refuses` — the reason for which a text is refused.

Main results:

* `WireTree.Hex.toList_encode` — the digits of bytes, from the table;
* `WireTree.Hex.decode_encode` — the digits of bytes stand for the bytes;
* `WireTree.Hex.exists_decode` — a text of digits stands for bytes;
* `WireTree.Hex.decode_of_refuses` — any other text is refused;
* `WireTree.Hex.isDigits_or_refuses` — there is no third kind of text.
-/

import WireTree.Digest.Hex
import WireTree.Proofs.Ascii

set_option relaxedAutoImplicit false
set_option autoImplicit false

namespace WireTree.Hex

/-! ### Digits -/

/-- The sixteen digits in lower case. -/
def lowerDigits : List Char := "0123456789abcdef".toList

/-- The sixteen digits in upper case. -/
def upperDigits : List Char := "0123456789ABCDEF".toList

/-- A digit of either case. -/
def IsDigit (c : Char) : Prop := c ∈ lowerDigits ∨ c ∈ upperDigits

instance : DecidablePred IsDigit := fun c => inferInstanceAs (Decidable (c ∈ _ ∨ c ∈ _))

variable {byte : UInt8} {n : Nat}

theorem digit_eq (h : n < 16) : digit n = lowerDigits.getD n '0' := by
  have hall : ∀ n : Fin 16, digit n = lowerDigits.getD n '0' := by decide
  exact hall ⟨n, h⟩

theorem digitValue_digit (h : n < 16) : digitValue (digit n).toUInt8 = some n := by
  have hall : ∀ n : Fin 16, digitValue (digit n).toUInt8 = some n.val := by decide
  exact hall ⟨n, h⟩

/-- A byte is read as a digit if it is one. -/
theorem isSome_digitValue (byte : UInt8) :
    (digitValue byte).isSome = true ↔ IsDigit (Char.ofUInt8 byte) := by
  have hall : ∀ n : Fin 256, (digitValue (UInt8.ofNat n)).isSome = true ↔
      IsDigit (Char.ofUInt8 (UInt8.ofNat n)) := by decide +kernel
  have h := hall ⟨byte.toNat, byte.toNat_lt⟩
  rwa [UInt8.ofNat_toNat] at h

theorem IsDigit.exists_digitValue (h : IsDigit (Char.ofUInt8 byte)) :
    ∃ n, digitValue byte = some n :=
  Option.isSome_iff_exists.1 ((isSome_digitValue byte).2 h)

theorem digitValue_eq_none_iff : digitValue byte = none ↔ ¬IsDigit (Char.ofUInt8 byte) := by
  rw [← isSome_digitValue, Bool.not_eq_true, Option.isSome_eq_false_iff, Option.isNone_iff_eq_none]

/-- What a byte is read as has the byte, in lower case, for its digit. -/
theorem digit_of_digitValue (h : digitValue byte = some n) :
    digit n = (Char.ofUInt8 byte).toLower := by
  have hall : ∀ m : Fin 256, ∀ n ∈ digitValue (UInt8.ofNat m),
      digit n = (Char.ofUInt8 (UInt8.ofNat m)).toLower := by decide +kernel
  have hbyte := hall ⟨byte.toNat, byte.toNat_lt⟩
  rw [UInt8.ofNat_toNat] at hbyte
  exact hbyte n h

theorem IsDigit.toNat_lt {c : Char} (h : IsDigit c) : c.toNat < 128 := by
  have hall : (lowerDigits ++ upperDigits).all (fun c => decide (c.toNat < 128)) = true := by
    decide +kernel
  exact of_decide_eq_true (List.all_eq_true.1 hall c (List.mem_append.2 h))

theorem digits_pair {high low : Nat} (hhigh : high < 16) (hlow : low < 16) :
    digits (UInt8.ofNat (16 * high + low)) = [digit high, digit low] := by
  have hnat : (UInt8.ofNat (16 * high + low)).toNat = 16 * high + low := by
    rw [UInt8.toNat_ofNat', Nat.mod_eq_of_lt (by omega)]
  rw [digits, hnat, show (16 * high + low) / 16 = high by omega,
    show (16 * high + low) % 16 = low by omega]

/-! ### The digits of bytes -/

/-- The digits of bytes, from the table, the high half of a byte first. -/
theorem toList_encode (bytes : List UInt8) : (encode bytes).toList = bytes.flatMap fun byte =>
    [lowerDigits.getD (byte.toNat / 16) '0', lowerDigits.getD (byte.toNat % 16) '0'] := by
  have hdigits : digits = fun byte =>
      [lowerDigits.getD (byte.toNat / 16) '0', lowerDigits.getD (byte.toNat % 16) '0'] := by
    funext byte
    have hbyte := byte.toNat_lt
    rw [digits, digit_eq (by omega), digit_eq (by omega)]
  rw [encode, String.toList_ofList, hdigits]

theorem mem_lowerDigits_of_mem_encode {bytes : List UInt8} {c : Char}
    (h : c ∈ (encode bytes).toList) : c ∈ lowerDigits := by
  have hmem (n : Nat) (hn : n < 16) : lowerDigits.getD n '0' ∈ lowerDigits := by
    have hall : ∀ n : Fin 16, lowerDigits.getD n '0' ∈ lowerDigits := by decide
    exact hall ⟨n, hn⟩
  rw [toList_encode] at h
  obtain ⟨byte, -, hc⟩ := List.mem_flatMap.1 h
  have hbyte := byte.toNat_lt
  obtain rfl | rfl : c = _ ∨ c = _ := by simpa using hc
  · exact hmem _ (by omega)
  · exact hmem _ (by omega)

theorem length_flatMap_digits (bytes : List UInt8) :
    (bytes.flatMap digits).length = 2 * bytes.length := by
  induction bytes with
  | nil => rfl
  | cons byte bytes ih =>
      rw [List.flatMap_cons, List.length_append, length_digits, ih, List.length_cons, Nat.mul_succ,
        Nat.add_comm]

/-- The digits of bytes stand for the bytes, wherever they are. -/
theorem decodePairs_flatMap_digits (position : Nat) (bytes : List UInt8) :
    decodePairs position ((bytes.flatMap digits).map Char.toUInt8) = .ok bytes := by
  induction bytes generalizing position with
  | nil => rfl
  | cons byte bytes ih =>
      have hbyte := byte.toNat_lt
      rw [List.flatMap_cons, List.map_append, digits, List.map_cons, List.map_cons, List.map_nil,
        List.cons_append, List.cons_append, List.nil_append, decodePairs,
        digitValue_digit (by omega), digitValue_digit (by omega)]
      simp only [ih, Nat.div_add_mod, UInt8.ofNat_toNat]

/-- The digits of bytes stand for the bytes. -/
theorem decode_encode (bytes : List UInt8) : decode bytes.length (encode bytes) = .ok bytes := by
  have hbytes : (encode bytes).toUTF8.data.toList = (bytes.flatMap digits).map Char.toUInt8 := by
    rw [bytes_of_chars, encode, String.toList_ofList]
    intro c hc
    exact IsDigit.toNat_lt (.inl (mem_lowerDigits_of_mem_encode hc))
  have hlen := length_flatMap_digits bytes
  rw [decode, hbytes, List.length_map, hlen]
  simp only [decodePairs_flatMap_digits]
  rw [if_neg (by omega), if_neg (by omega)]

/-! ### Texts of digits -/

theorem even_tail {high low : UInt8} {rest : List UInt8}
    (h : (high :: low :: rest).length % 2 = 0) : rest.length % 2 = 0 := by
  rwa [List.length_cons, List.length_cons, Nat.add_assoc, Nat.add_mod_right] at h

/-- Pairs of digits stand for bytes, whose digits are the same in lower case. -/
theorem exists_decodePairs (position : Nat) {bytes : List UInt8} (heven : bytes.length % 2 = 0)
    (h : ∀ b ∈ bytes, IsDigit (Char.ofUInt8 b)) : ∃ out, decodePairs position bytes = .ok out ∧
      out.flatMap digits = bytes.map fun b => (Char.ofUInt8 b).toLower := by
  induction position, bytes using decodePairs.induct with
  | case1 position high low rest hhigh =>
      exact absurd (h high (by simp)) (digitValue_eq_none_iff.1 hhigh)
  | case2 position high low rest _ hlow _ =>
      exact absurd (h low (by simp)) (digitValue_eq_none_iff.1 hlow)
  | case3 position high low rest hv lv hlow hhigh bytes _ ih =>
      obtain ⟨out, hout, hdigits⟩ := ih (even_tail heven) fun b hb => h b (by simp [hb])
      refine ⟨UInt8.ofNat (16 * hv + lv) :: out, by simp only [decodePairs, hhigh, hlow, hout], ?_⟩
      rw [List.flatMap_cons, hdigits, digits_pair (digitValue_lt hhigh) (digitValue_lt hlow),
        digit_of_digitValue hhigh, digit_of_digitValue hlow]
      rfl
  | case4 position high low rest hv lv hlow hhigh e herror ih =>
      obtain ⟨out, hout, -⟩ := ih (even_tail heven) fun b hb => h b (by simp [hb])
      cases herror.symm.trans hout
  | case5 bytes position hshort =>
      match bytes, hshort with
      | [], _ => exact ⟨[], by rw [decodePairs]; simp, rfl⟩
      | [_], _ => cases heven
      | high :: low :: rest, hshort => exact (hshort high low rest rfl).elim

/-- The first byte that is no digit is complained of. -/
theorem decodePairs_of_not_isDigit (position : Nat) {before after : List UInt8} {byte : UInt8}
    (heven : (before ++ byte :: after).length % 2 = 0)
    (hbefore : ∀ b ∈ before, IsDigit (Char.ofUInt8 b)) (h : ¬IsDigit (Char.ofUInt8 byte)) :
    decodePairs position (before ++ byte :: after) =
      .error (.noDigit byte (position + before.length)) := by
  have hbyte := digitValue_eq_none_iff.2 h
  match before, after with
  | [], low :: after => simp only [List.nil_append, decodePairs, hbyte]; rfl
  | [], [] => cases heven
  | [high], after =>
    obtain ⟨hv, hhigh⟩ := (hbefore high (by simp)).exists_digitValue
    simp only [List.cons_append, List.nil_append, decodePairs, hhigh, hbyte]
    rfl
  | high :: low :: before, after =>
    obtain ⟨hv, hhigh⟩ := (hbefore high (by simp)).exists_digitValue
    obtain ⟨lv, hlow⟩ := (hbefore low (by simp)).exists_digitValue
    have hrest := decodePairs_of_not_isDigit (position + 2)
      (show (before ++ byte :: after).length % 2 = 0 from even_tail heven)
      (fun b hb => hbefore b (by simp [hb])) h
    simp only [List.cons_append, decodePairs, hhigh, hlow, hrest]
    rw [List.length_cons, List.length_cons, Nat.add_assoc, Nat.add_comm 2]

/-- A text of twice as many digits stands for bytes, whose digits are the text in lower case. -/
theorem exists_decode {count : Nat} {text : String} (hlen : text.toList.length = 2 * count)
    (h : ∀ c ∈ text.toList, IsDigit c) : ∃ bytes, decode count text = .ok bytes ∧
      bytes.length = count ∧ encode bytes = String.ofList (text.toList.map Char.toLower) := by
  have hplain := bytes_of_chars fun c hc => (h c hc).toNat_lt
  have hback (c : Char) (hc : c ∈ text.toList) : Char.ofUInt8 c.toUInt8 = c :=
    ofUInt8_toUInt8 (h c hc).toNat_lt
  have heven : (text.toList.map Char.toUInt8).length % 2 = 0 := by
    rw [List.length_map, hlen, Nat.mul_mod_right]
  have hall : ∀ b ∈ text.toList.map Char.toUInt8, IsDigit (Char.ofUInt8 b) := by
    intro b hb
    obtain ⟨c, hc, rfl⟩ := List.mem_map.1 hb
    rw [hback c hc]
    exact h c hc
  obtain ⟨bytes, hdecode, hdigits⟩ := exists_decodePairs 0 heven hall
  have hlower : bytes.flatMap digits = text.toList.map Char.toLower := by
    rw [hdigits, List.map_map]
    exact List.map_congr_left fun c hc => congrArg Char.toLower (hback c hc)
  have hcount := congrArg List.length hlower
  rw [length_flatMap_digits, List.length_map, hlen] at hcount
  refine ⟨bytes, ?_, by omega, congrArg String.ofList hlower⟩
  rw [decode, hplain, List.length_map, hlen, if_neg (by omega), if_neg (by omega)]
  exact hdecode

/-! ### Reasons to refuse a text -/

/-- The reason for which a text does not stand for `count` bytes. -/
inductive Refuses (count : Nat) (text : String) : Fault → Prop
  /-- The number of bytes is odd. -/
  | oddLength : text.utf8ByteSize % 2 = 1 → Refuses count text .oddLength
  /-- The number of bytes is even, and is not twice the number asked for. -/
  | wrongLength : text.utf8ByteSize % 2 = 0 → text.utf8ByteSize ≠ 2 * count →
      Refuses count text .wrongLength
  /-- The number of bytes is right, and this is the first of them that is no digit. -/
  | noDigit (before : List UInt8) (byte : UInt8) (after : List UInt8) :
      text.utf8ByteSize = 2 * count → text.toUTF8.data.toList = before ++ byte :: after →
      (∀ b ∈ before, IsDigit (Char.ofUInt8 b)) → ¬IsDigit (Char.ofUInt8 byte) →
      Refuses count text (.noDigit byte before.length)

/-- A text is refused for the first reason there is. -/
theorem decode_of_refuses {count : Nat} {text : String} {fault : Fault}
    (h : Refuses count text fault) : decode count text = .error fault := by
  rw [decode, length_bytes]
  cases h with
  | oddLength hodd => rw [if_pos hodd]
  | wrongLength heven hlen => rw [if_neg (by omega), if_pos hlen]
  | noDigit before byte after hlen hbytes hbefore hbyte =>
      have hlength := length_bytes text
      rw [hbytes] at hlength
      rw [if_neg (by omega), if_neg (by omega), hbytes,
        decodePairs_of_not_isDigit 0 (by omega) hbefore hbyte, Nat.zero_add]

/-- A text stands for bytes or there is a reason to refuse it. -/
theorem isDigits_or_refuses (count : Nat) (text : String) :
    (text.toList.length = 2 * count ∧ ∀ c ∈ text.toList, IsDigit c) ∨
      ∃ fault, Refuses count text fault := by
  by_cases heven : text.utf8ByteSize % 2 = 0
  · by_cases hlen : text.utf8ByteSize = 2 * count
    · rcases hfind : text.toUTF8.data.toList.find? fun b => !decide (IsDigit (Char.ofUInt8 b))
        with _ | byte
      · -- all bytes are plain, so they are the characters
        left
        have hall : ∀ b ∈ text.toUTF8.data.toList, IsDigit (Char.ofUInt8 b) := by
          simpa using hfind
        have hchars := toList_of_bytes fun b hb => (hall b hb).toNat_lt
        rw [hchars, List.length_map, length_bytes]
        refine ⟨hlen, ?_⟩
        intro c hc
        obtain ⟨b, hb, rfl⟩ := List.mem_map.1 hc
        exact hall b hb
      · obtain ⟨hbyte, before, after, hbytes, hbefore⟩ := List.find?_eq_some_iff_append.1 hfind
        exact .inr ⟨_, .noDigit before byte after hlen hbytes (by simpa using hbefore)
          (by simpa using hbyte)⟩
    · exact .inr ⟨_, .wrongLength heven hlen⟩
  · exact .inr ⟨_, .oddLength (by omega)⟩

end WireTree.Hex
