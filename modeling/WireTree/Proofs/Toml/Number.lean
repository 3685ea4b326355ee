/-
**Numbers in decimal, read back.**

A value is tried as a text, a moment and a float before it is tried as an integer.  The digits of a
number are none of the former as long as they end where the number does: a date has a minus behind
its year, a time of day has a colon behind its hour, and a float a point or an exponent behind its
whole part.  So what stands behind the digits is kept general here, but for its first character,
which must be one that can end a value.

Main definitions:

* `WireTree.Toml.Delimits` — what may stand behind a number;
* `WireTree.Toml.digitValues` — the values of decimal digits.

Main results:

* `WireTree.Toml.moreDigits_append` — a run of digits is read to its end;
* `WireTree.Toml.readMoment_eq_none`, `WireTree.Toml.readDecimalReal_eq_none` — a run of digits is
  neither a moment nor a float;
* `WireTree.Toml.readValue_toDigits` — **a number in decimal is read as itself**, up to the largest
  integer.
-/

import WireTree.Toml.Value

set_option relaxedAutoImplicit false
set_option autoImplicit false

namespace WireTree.Toml

/-! ### What stands behind a number -/

/-- The characters that may stand behind a number. -/
def delimiters : List Char := [' ', '\t', '\n', '\r', ',', ']', '}', '#']

/-- Nothing follows, or a character that may stand behind a number. -/
def Delimits (rest : List Char) : Prop := ∀ c ∈ rest.head?, c ∈ delimiters

variable {cs rest : List Char} {c : Char}

theorem decimalValue_of_isDigit (h : c.isDigit = true) : decimalValue c = some (c.toNat - 48) :=
  if_pos (Char.isDigit_iff_toNat.1 h)

theorem decimalValue_of_mem_delimiters (h : c ∈ delimiters) : decimalValue c = none := by
  have hall : delimiters.all (fun c => (decimalValue c).isNone) = true := by decide
  exact Option.isNone_iff_eq_none.1 (List.all_eq_true.1 hall c h)

/-- The digits to the base ten are the decimal ones. -/
theorem digitValue_ten (c : Char) : digitValue 10 c = decimalValue c := by
  rw [digitValue, decimalValue]
  by_cases hrange : 48 ≤ c.toNat ∧ c.toNat ≤ 57
  · rw [if_pos hrange, if_pos hrange, Option.filter_some, if_pos]
    exact decide_eq_true (by omega)
  · rw [if_neg hrange, if_neg hrange]
    split
    · rw [Option.filter_some, if_neg]
      simp
      omega
    · split
      · rw [Option.filter_some, if_neg]
        simp
        omega
      · rfl

/-- Digits and what stands behind them begin with no other character. -/
theorem digits_ne_cons {other : Char} (hcs : ∀ c ∈ cs, c.isDigit = true) (hrest : Delimits rest)
    (hother : other.isDigit = false ∧ other ∉ delimiters) (tail : List Char) :
    cs ++ rest ≠ other :: tail := by
  intro h
  cases cs with
  | nil =>
      rw [List.nil_append] at h
      exact hother.2 (hrest other (by rw [h]; rfl))
  | cons c cs =>
      have hc := hcs c List.mem_cons_self
      rw [(List.cons.inj h).1, hother.1] at hc
      cases hc

/-! ### Runs of digits -/

/-- The values of decimal digits. -/
def digitValues (cs : List Char) : List Nat := cs.map fun c => c.toNat - 48

theorem ofDigits_digitValues (cs : List Char) :
    ofDigits 10 (digitValues cs) = Nat.ofDigitChars 10 cs 0 := by
  rw [ofDigits, digitValues, List.foldl_map]
  rfl

theorem moreDigits_of_delimits (h : Delimits rest) : moreDigits 10 rest = ([], rest) := by
  match rest with
  | [] => rfl
  | [c] => simp only [moreDigits, digitValue_ten, decimalValue_of_mem_delimiters (h c rfl)]
  | c :: c' :: rest =>
    have hc := h c rfl
    have hne : (c == '_') = false := by
      rw [beq_eq_false_iff_ne]
      rintro rfl
      exact absurd hc (by decide)
    simp only [moreDigits, digitValue_ten, decimalValue_of_mem_delimiters hc, hne]
    rfl

theorem moreDigits_cons {base d : Nat} (h : digitValue base c = some d) (cs : List Char) :
    moreDigits base (c :: cs) = (d :: (moreDigits base cs).1, (moreDigits base cs).2) := by
  cases cs with
  | nil => simp only [moreDigits, h]
  | cons c' cs => simp only [moreDigits, h]

/-- A run of digits is read to its end. -/
theorem moreDigits_append (hcs : ∀ c ∈ cs, c.isDigit = true) (hrest : Delimits rest) :
    moreDigits 10 (cs ++ rest) = (digitValues cs, rest) := by
  induction cs with
  | nil => exact moreDigits_of_delimits hrest
  | cons c cs ih =>
      obtain ⟨hc, hcs⟩ := List.forall_mem_cons.1 hcs
      have hvalue : digitValue 10 c = some (c.toNat - 48) := by
        rw [digitValue_ten, decimalValue_of_isDigit hc]
      rw [List.cons_append, moreDigits_cons hvalue, ih hcs]
      rfl

/-- Whatever number of digits is taken from a run, the rest is a run before the same end. -/
theorem exists_of_fixedDigits {count n m : Nat} {left : List Char}
    (hcs : ∀ c ∈ cs, c.isDigit = true) (hrest : Delimits rest)
    (h : fixedDigits count n (cs ++ rest) = some (m, left)) :
    ∃ ds, (∀ c ∈ ds, c.isDigit = true) ∧ left = ds ++ rest := by
  induction count generalizing n cs with
  | zero =>
      rw [fixedDigits] at h
      cases h
      exact ⟨cs, hcs, rfl⟩
  | succ count ih =>
      cases cs with
      | nil =>
          rw [List.nil_append] at h
          cases rest with
          | nil => cases h
          | cons c rest =>
              rw [fixedDigits, decimalValue_of_mem_delimiters (hrest c rfl)] at h
              cases h
      | cons c cs =>
          obtain ⟨hc, hcs⟩ := List.forall_mem_cons.1 hcs
          rw [List.cons_append, fixedDigits, decimalValue_of_isDigit hc] at h
          exact ih hcs h

/-! ### What the first character decides -/

theorem skipBlank_eq_self (hspace : ∀ tail, cs ≠ ' ' :: tail) (htab : ∀ tail, cs ≠ '\t' :: tail) :
    skipBlank cs = cs := by
  rw [skipBlank_eq_self_iff]
  intro c hc
  cases cs with
  | nil => cases hc
  | cons c' cs =>
      cases hc
      rw [isBlank, Bool.or_eq_false_iff, beq_eq_false_iff_ne, beq_eq_false_iff_ne]
      constructor
      · rintro rfl
        exact hspace cs rfl
      · rintro rfl
        exact htab cs rfl

theorem readShortText_eq_none (hdouble : ∀ tail, cs ≠ '"' :: tail)
    (hsingle : ∀ tail, cs ≠ '\'' :: tail) : readShortText cs = none := by
  unfold readShortText
  split
  · exact absurd rfl (hdouble _)
  · exact absurd rfl (hsingle _)
  · rfl

theorem readText_eq_none (hdouble : ∀ tail, cs ≠ '"' :: tail)
    (hsingle : ∀ tail, cs ≠ '\'' :: tail) : readText cs = none := by
  unfold readText
  split
  · exact absurd rfl (hdouble _)
  · exact absurd rfl (hsingle _)
  · exact readShortText_eq_none hdouble hsingle

theorem readSign_eq_self (hminus : ∀ tail, cs ≠ '-' :: tail) (hplus : ∀ tail, cs ≠ '+' :: tail) :
    readSign cs = (false, cs) := by
  unfold readSign
  split
  · exact absurd rfl (hminus _)
  · exact absurd rfl (hplus _)
  · rfl

theorem readReal_eq_readDecimalReal (hminus : ∀ tail, cs ≠ '-' :: tail)
    (hplus : ∀ tail, cs ≠ '+' :: tail) (hinf : ∀ tail, cs ≠ 'i' :: tail)
    (hnan : ∀ tail, cs ≠ 'n' :: tail) : readReal cs = readDecimalReal false cs := by
  unfold readReal
  rw [readSign_eq_self hminus hplus]
  split
  · rename_i h
    exact absurd (Prod.ext_iff.1 h).2 (hinf _)
  · rename_i h
    exact absurd (Prod.ext_iff.1 h).2 (hnan _)
  · rename_i h
    obtain ⟨rfl, rfl⟩ := Prod.ext_iff.1 h
    rfl

theorem readNested_eq_readPlainValue (depth : Nat) (harray : ∀ tail, cs ≠ '[' :: tail)
    (htable : ∀ tail, cs ≠ '{' :: tail) : readNested depth cs = readPlainValue cs := by
  cases depth with
  | zero => rfl
  | succ depth =>
      rw [readNested]
      · exact harray
      · exact htable

/-! ### What a run of digits is not -/

section

variable (hcs : ∀ c ∈ cs, c.isDigit = true) (hrest : Delimits rest)
include hcs hrest

theorem readDate_eq_none : readDate (cs ++ rest) = none := by
  unfold readDate
  split
  · rename_i year left hyear
    obtain ⟨ds, hds, hleft⟩ := exists_of_fixedDigits hcs hrest hyear
    exact absurd hleft.symm (digits_ne_cons hds hrest (by decide) _)
  · rfl

theorem readTime_eq_none : readTime (cs ++ rest) = none := by
  unfold readTime
  split
  · rename_i hour left hhour
    obtain ⟨ds, hds, hleft⟩ := exists_of_fixedDigits hcs hrest hhour
    exact absurd hleft.symm (digits_ne_cons hds hrest (by decide) _)
  · rfl

/-- A run of digits is no date and no time of day. -/
theorem readMoment_eq_none : readMoment (cs ++ rest) = none := by
  rw [readMoment, readDate_eq_none hcs hrest]
  simp only [readTime_eq_none hcs hrest]

end

theorem readFraction_of_delimits (h : Delimits rest) : readFraction rest = some (none, rest) := by
  unfold readFraction
  split
  · exact absurd (h _ rfl) (by decide)
  · rfl

theorem readExponent_of_delimits (h : Delimits rest) : readExponent rest = some (none, rest) := by
  cases rest with
  | nil => rfl
  | cons c rest =>
      have hall : delimiters.all (fun c => (c == 'e' || c == 'E') == false) = true := by decide
      have hc := eq_of_beq (List.all_eq_true.1 hall c (h c rfl))
      rw [readExponent, hc]
      rfl

/-- Digits are no float, since they have neither a fraction nor an exponent. -/
theorem readDecimalReal_eq_none {negative : Bool} {ds : List Nat} (hrest : Delimits rest)
    (h : readDecimal cs = some (ds, rest)) : readDecimalReal negative cs = none := by
  rw [readDecimalReal, h]
  simp only [readFraction_of_delimits hrest, readExponent_of_delimits hrest]
  rfl

/-! ### Numbers in decimal -/

theorem isDigit_of_mem_toDigits {n : Nat} : ∀ c ∈ Nat.toDigits 10 n, c.isDigit = true :=
  fun _ => Nat.isDigit_of_mem_toDigits (by decide) (by decide)

/-- A number has a first digit, and only digits behind it. -/
theorem exists_toDigits_eq_cons (n : Nat) : ∃ c cs, Nat.toDigits 10 n = c :: cs ∧
    c.isDigit = true ∧ ∀ c' ∈ cs, c'.isDigit = true := by
  have hall := isDigit_of_mem_toDigits (n := n)
  cases hdigits : Nat.toDigits 10 n with
  | nil => exact absurd hdigits Nat.toDigits_ne_nil
  | cons c cs => exact ⟨c, cs, rfl, List.forall_mem_cons.1 (hdigits ▸ hall)⟩

/-- A number other than zero does not begin with a zero. -/
theorem toDigits_ne_cons_zero {n : Nat} (h : n ≠ 0) (tail : List Char) :
    Nat.toDigits 10 n ≠ '0' :: tail := by
  induction n using Nat.strongRecOn generalizing tail with
  | _ n ih =>
      intro htail
      rw [Nat.toDigits_eq_if (by decide)] at htail
      split at htail
      · exact h (Nat.digitChar_eq_zero.1 (List.cons.inj htail).1)
      · cases hhigh : Nat.toDigits 10 (n / 10) with
        | nil => exact Nat.toDigits_ne_nil hhigh
        | cons c cs =>
            rw [hhigh, List.cons_append] at htail
            rw [(List.cons.inj htail).1] at hhigh
            exact ih (n / 10) (by omega) (by omega) cs hhigh

theorem toDigits_ne_cons (n : Nat) {other : Char} (hother : other.isDigit = false)
    (tail : List Char) : Nat.toDigits 10 n ++ rest ≠ other :: tail := by
  obtain ⟨c, cs, hdigits, hc, -⟩ := exists_toDigits_eq_cons n
  intro h
  rw [hdigits] at h
  rw [(List.cons.inj h).1, hother] at hc
  cases hc

section

variable (n : Nat) (hrest : Delimits rest)
include hrest

theorem readDecimal_toDigits :
    readDecimal (Nat.toDigits 10 n ++ rest) = some (digitValues (Nat.toDigits 10 n), rest) := by
  by_cases hn : n = 0
  · subst hn
    rfl
  · obtain ⟨c, cs, hdigits, hc, hcs⟩ := exists_toDigits_eq_cons n
    rw [hdigits, List.cons_append, readDecimal]
    · rw [digits, digitValue_ten, decimalValue_of_isDigit hc]
      simp only [moreDigits_append hcs hrest]
      rfl
    · intro tail h
      rw [(List.cons.inj h).1] at hdigits
      exact toDigits_ne_cons_zero hn cs hdigits

/-- Behind a zero no letter follows that would announce another base. -/
theorem toDigits_ne_zero_cons {base : Char} (hbase : base.isDigit = false ∧ base ∉ delimiters)
    (tail : List Char) : Nat.toDigits 10 n ++ rest ≠ '0' :: base :: tail := by
  obtain ⟨c, cs, hdigits, -, hcs⟩ := exists_toDigits_eq_cons n
  intro h
  rw [hdigits] at h
  exact digits_ne_cons hcs hrest hbase tail (List.cons.inj h).2

theorem readInteger_toDigits : readInteger (Nat.toDigits 10 n ++ rest) =
    if n < 2 ^ 63 then some ((n : Int), rest) else none := by
  unfold readInteger
  split
  · rename_i h
    exact absurd h (toDigits_ne_zero_cons n hrest (by decide) _)
  · rename_i h
    exact absurd h (toDigits_ne_zero_cons n hrest (by decide) _)
  · rename_i h
    exact absurd h (toDigits_ne_zero_cons n hrest (by decide) _)
  · rw [readSign_eq_self (toDigits_ne_cons n rfl) (toDigits_ne_cons n rfl)]
    simp only [readDecimal_toDigits n hrest, finishInteger, ofDigits_digitValues,
      Nat.ofDigitChars_ten_toDigits, integerOf, Bool.false_eq_true, if_false]
    by_cases hn : n < 2 ^ 63
    · simp only [if_pos hn]
    · simp only [if_neg hn]

theorem readPlainValue_toDigits : readPlainValue (Nat.toDigits 10 n ++ rest) =
    if n < 2 ^ 63 then some (.integer n, rest) else none := by
  unfold readPlainValue
  split
  · rename_i h
    exact absurd h (toDigits_ne_cons n rfl _)
  · rename_i h
    exact absurd h (toDigits_ne_cons n rfl _)
  · have htext : readText (Nat.toDigits 10 n ++ rest) = none :=
      readText_eq_none (toDigits_ne_cons n rfl) (toDigits_ne_cons n rfl)
    have hmoment : readMoment (Nat.toDigits 10 n ++ rest) = none :=
      readMoment_eq_none isDigit_of_mem_toDigits hrest
    have hreal : readReal (Nat.toDigits 10 n ++ rest) = none := by
      rw [readReal_eq_readDecimalReal (toDigits_ne_cons n rfl) (toDigits_ne_cons n rfl)
        (toDigits_ne_cons n rfl) (toDigits_ne_cons n rfl)]
      exact readDecimalReal_eq_none hrest (readDecimal_toDigits n hrest)
    simp only [htext, hmoment, hreal, readInteger_toDigits n hrest]
    by_cases hn : n < 2 ^ 63
    · simp only [if_pos hn]
    · simp only [if_neg hn]

/-- **A number in decimal is read as itself**, unless it is too large for an integer. -/
theorem readValue_toDigits : readValue (Nat.toDigits 10 n ++ rest) =
    if n < 2 ^ 63 then some (.integer n, rest) else none := by
  rw [readValue, readNested_eq_readPlainValue maxDepth (toDigits_ne_cons n rfl)
    (toDigits_ne_cons n rfl), readPlainValue_toDigits n hrest]

end

end WireTree.Toml
