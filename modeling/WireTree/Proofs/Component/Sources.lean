/-
**One reader, two sources.**

A reader may be given any source of bits, and cannot tell two of them apart that serve it alike.
What a reader asks for is told in this way: two sources that agree on the transfers of at most
`maxTransferBits` bits, and perhaps on no others, are read with the same result and to the same end,
and this could not be if a wider transfer were asked for.

That no transfer is too wide rests on invariants kept elsewhere: the bounds of an integer are at
most 32 bits apart, also those of a count field, and a word of a bit set has at most 32 bits.  Texts
are read a byte at a time, and how many bytes there may be does not matter here.

Main definitions:

* `WireTree.WireError.OfRead` — the failures that a read can end in;
* `WireTree.Alongside` — two runs that answer alike;
* `WireTree.ServeAlike` — two sources that serve alike.

Main results:

* `WireTree.Kind.read_alongside` — **a tree is read alike from sources that serve alike**.
-/

import WireTree.Proofs.Component.InTurn

set_option relaxedAutoImplicit false
set_option autoImplicit false

namespace WireTree

/-! ### Failures -/

/-- The failures that a read can end in: bits that are missing from a transfer that is not too wide,
bytes that are no text, a text that is too long, and a number of elements out of bounds. -/
def WireError.OfRead : WireError → Prop
  | underrun requested available => available < requested ∧ requested ≤ maxTransferBits
  | invalidText _ | textTooLong _ _ | countOutOfRange _ _ _ => True
  | _ => False

/-- All of them lie in the bits received. -/
theorem WireError.OfRead.isProtocolViolation {e : WireError} (h : e.OfRead) :
    e.isProtocolViolation = true := by
  cases e <;> first | rfl | exact h.elim

/-! ### Two runs -/

section Alongside

variable {α β γ κ : Type}

/-- Two runs answer alike and leave related states; if they fail, then as a read may. -/
inductive Alongside (R : β → γ → Prop) : Outcome β α → Outcome γ α → Prop
  | ok {a : α} {s : β} {t : γ} : R s t → Alongside R (.ok a, s) (.ok a, t)
  | error {e : WireError} {s : β} {t : γ} :
      e.OfRead → R s t → Alongside R (.error e, s) (.error e, t)

/-- The same object beside related states. -/
def Beside (R : β → γ → Prop) (x : κ × β) (y : κ × γ) : Prop := x.1 = y.1 ∧ R x.2 y.2

variable {R : β → γ → Prop}

theorem Alongside.cases {x : Outcome β α} {y : Outcome γ α} (h : Alongside R x y) :
    (∃ e s t, x = (.error e, s) ∧ y = (.error e, t) ∧ e.OfRead ∧ R s t) ∨
    ∃ a s t, x = (.ok a, s) ∧ y = (.ok a, t) ∧ R s t := by
  cases h with
  | ok hst => exact .inr ⟨_, _, _, rfl, rfl, hst⟩
  | error he hst => exact .inl ⟨_, _, _, rfl, rfl, he, hst⟩

/-- Two reads that answer alike leave the same object beside their states. -/
theorem Alongside.cases_beside {x : Outcome (κ × β) α} {y : Outcome (κ × γ) α}
    (h : Alongside (Beside R) x y) :
    (∃ e k s t, x = (.error e, k, s) ∧ y = (.error e, k, t) ∧ e.OfRead ∧ R s t) ∨
    ∃ a k s t, x = (.ok a, k, s) ∧ y = (.ok a, k, t) ∧ R s t := by
  rcases h.cases with
    ⟨e, ⟨k, s⟩, ⟨k', t⟩, hx, hy, he, hk, hst⟩ | ⟨a, ⟨k, s⟩, ⟨k', t⟩, hx, hy, hk, hst⟩
  · cases hk
    exact .inl ⟨e, k, s, t, hx, hy, he, hst⟩
  · cases hk
    exact .inr ⟨a, k, s, t, hx, hy, hst⟩

variable [BitSource β] [BitSource γ]

/-- Two sources serve transfers that are not too wide alike, and admit texts of the same length.  On
wider transfers they need not agree. -/
structure ServeAlike (R : β → γ → Prop) : Prop where
  /-- Transfers that are not too wide. -/
  readBits : ∀ {s : β} {t : γ} {width : Nat}, width ≤ maxTransferBits → R s t →
    Alongside R (BitSource.readBits s width) (BitSource.readBits t width)
  /-- The limits on texts. -/
  maxTextBytes : ∀ {s : β} {t : γ}, R s t → BitSource.maxTextBytes s = BitSource.maxTextBytes t

end Alongside

section ServeAlike

variable {β γ : Type} [BitSource β] [BitSource γ] {R : β → γ → Prop} {s : β} {t : γ}
  (hR : ServeAlike R)

include hR

/-! ### Leaves -/

namespace BitSource

theorem readWords_alongside {widths : List Nat}
    (hwidths : ∀ width ∈ widths, width ≤ maxTransferBits) (hst : R s t) :
    Alongside R (readWords s widths) (readWords t widths) := by
  induction widths generalizing s t with
  | nil => exact .ok hst
  | cons width widths ih =>
      obtain ⟨hwidth, hwidths⟩ := List.forall_mem_cons.1 hwidths
      rw [readWords, readWords]
      rcases (hR.readBits hwidth hst).cases with
        ⟨e, s₁, t₁, hs, ht, he, hst₁⟩ | ⟨word, s₁, t₁, hs, ht, hst₁⟩ <;> simp only [hs, ht]
      · exact .error he hst₁
      · rcases (ih hwidths hst₁).cases with
          ⟨e, s₂, t₂, hs, ht, he, hst₂⟩ | ⟨words, s₂, t₂, hs, ht, hst₂⟩ <;> simp only [hs, ht]
        · exact .error he hst₂
        · exact .ok hst₂

theorem readTerminated_alongside (room : Nat) (taken : Array UInt8) (hst : R s t) :
    Alongside R (readTerminated room taken s) (readTerminated room taken t) := by
  have h8 : 8 ≤ maxTransferBits := by decide
  induction room generalizing taken s t with
  | zero =>
      rw [readTerminated, readTerminated]
      rcases (hR.readBits h8 hst).cases with
        ⟨e, s₁, t₁, hs, ht, he, hst₁⟩ | ⟨byte, s₁, t₁, hs, ht, hst₁⟩ <;> simp only [hs, ht]
      · exact .error he hst₁
      · split
        · exact .ok hst₁
        · exact .error trivial hst₁
  | succ room ih =>
      rw [readTerminated, readTerminated]
      rcases (hR.readBits h8 hst).cases with
        ⟨e, s₁, t₁, hs, ht, he, hst₁⟩ | ⟨byte, s₁, t₁, hs, ht, hst₁⟩ <;> simp only [hs, ht]
      · exact .error he hst₁
      · split
        · exact .ok hst₁
        · exact ih _ hst₁

theorem readText_alongside (hst : R s t) : Alongside R (readText s) (readText t) := by
  rw [readText, readText, hR.maxTextBytes hst]
  rcases (readTerminated_alongside hR (maxTextBytes t) #[] hst).cases with
    ⟨e, s₁, t₁, hs, ht, he, hst₁⟩ | ⟨bytes, s₁, t₁, hs, ht, hst₁⟩ <;> simp only [hs, ht]
  · exact .error he hst₁
  · split
    · exact .ok hst₁
    · exact .error trivial hst₁

end BitSource

theorem Scalar.read_alongside {v : Scalar} (hv : v.WellFormed) (hst : R s t) :
    Alongside (Beside R) (v.read s) (v.read t) := by
  by_cases htext : v.variant = .text
  · obtain ⟨text, rfl⟩ := eq_text_of_variant htext
    rw [read, read]
    rcases (BitSource.readText_alongside hR hst).cases with
      ⟨e, s₁, t₁, hs, ht, he, hst₁⟩ | ⟨text', s₁, t₁, hs, ht, hst₁⟩ <;> simp only [hs, ht]
    · exact .error he ⟨rfl, hst₁⟩
    · exact .ok ⟨rfl, hst₁⟩
  · have hwidths : ∀ width ∈ v.widths, width ≤ maxTransferBits := by
      intro width hwidth
      obtain ⟨c, hc, rfl⟩ := List.mem_map.1 hwidth
      exact hv.width_le c hc
    rw [read_words htext, read_words htext]
    rcases (BitSource.readWords_alongside hR hwidths hst).cases with
      ⟨e, s₁, t₁, hs, ht, he, hst₁⟩ | ⟨words, s₁, t₁, hs, ht, hst₁⟩ <;> simp only [hs, ht]
    · exact .error he ⟨rfl, hst₁⟩
    · exact .ok ⟨rfl, hst₁⟩

/-- A set of bits is read a word at a time, and a word never holds more than 32 of them. -/
theorem BitSet.read_alongside (b : BitSet) (hst : R s t) :
    Alongside (Beside R) (b.read s) (b.read t) := by
  have hwidths : ∀ width ∈ b.widths, width ≤ maxTransferBits := by
    intro width hwidth
    obtain ⟨i, -, rfl⟩ := List.mem_map.1 hwidth
    exact Nat.min_le_left ..
  rw [read, read]
  rcases (BitSource.readWords_alongside hR hwidths hst).cases with
    ⟨e, s₁, t₁, hs, ht, he, hst₁⟩ | ⟨words, s₁, t₁, hs, ht, hst₁⟩ <;> simp only [hs, ht]
  · exact .error he ⟨rfl, hst₁⟩
  · exact .ok ⟨rfl, hst₁⟩

/-! ### Trees -/

/-- The bounds of a count field are at most 32 bits apart. -/
theorem ArrayOf.readCount_alongside {a : ArrayField} (ha : a.Consistent) (hst : R s t) :
    Alongside R (a.readCount s) (a.readCount t) := by
  have hwidth : a.countField.width ≤ maxTransferBits := by
    rw [ha.countField_wellFormed.width_eq]
    exact bitsForSpan_le _ _
  rw [readCount, readCount]
  rcases (hR.readBits hwidth hst).cases with
    ⟨e, s₁, t₁, hs, ht, he, hst₁⟩ | ⟨word, s₁, t₁, hs, ht, hst₁⟩ <;> simp only [hs, ht]
  · exact .error he hst₁
  · exact .ok hst₁

namespace Kind

omit hR in
theorem readPresent_alongside {cs : List Component}
    (hcs : ∀ c ∈ cs, ∀ {s : β} {t : γ}, R s t →
      Alongside (Beside R) (c.kind.read s) (c.kind.read t)) (marks : List Bool) (hst : R s t) :
    Alongside (Beside R) (readPresent marks cs s) (readPresent marks cs t) := by
  induction cs generalizing marks s t with
  | nil => cases marks <;> exact .ok ⟨rfl, hst⟩
  | cons c cs ih =>
      obtain ⟨hc, hcs⟩ := List.forall_mem_cons.1 hcs
      rcases marks with _ | ⟨_ | _, marks⟩
      · exact .ok ⟨rfl, hst⟩
      · rw [readPresent, readPresent, if_neg Bool.false_ne_true, if_neg Bool.false_ne_true]
        rcases (ih hcs marks hst).cases_beside with
          ⟨e, cs', s₁, t₁, hs, ht, he, hst₁⟩ | ⟨n, cs', s₁, t₁, hs, ht, hst₁⟩ <;> simp only [hs, ht]
        · exact .error he ⟨rfl, hst₁⟩
        · exact .ok ⟨rfl, hst₁⟩
      · rw [readPresent, readPresent, if_pos rfl, if_pos rfl]
        rcases (hc hst).cases_beside with
          ⟨e, kind, s₁, t₁, hs, ht, he, hst₁⟩ | ⟨n, kind, s₁, t₁, hs, ht, hst₁⟩ <;>
          simp only [hs, ht]
        · exact .error he ⟨rfl, hst₁⟩
        · rcases (ih hcs marks hst₁).cases_beside with
            ⟨e, cs', s₂, t₂, hs, ht, he, hst₂⟩ | ⟨m, cs', s₂, t₂, hs, ht, hst₂⟩ <;>
            simp only [hs, ht]
          · exact .error he ⟨rfl, hst₂⟩
          · exact .ok ⟨rfl, hst₂⟩

omit hR in
theorem readAll_alongside {cs : List Component}
    (hcs : ∀ c ∈ cs, ∀ {s : β} {t : γ}, R s t →
      Alongside (Beside R) (c.kind.read s) (c.kind.read t)) (hst : R s t) :
    Alongside (Beside R) (readAll cs s) (readAll cs t) := by
  rw [readAll_eq, readAll_eq]
  exact readPresent_alongside hcs _ hst

/-- **A tree is read alike from sources that serve alike.** -/
theorem read_alongside {k : Kind} (hk : k.WellFormed) (hst : R s t) :
    Alongside (Beside R) (k.read s) (k.read t) := by
  induction hk generalizing s t with
  | scalar hv =>
      rw [read, read]
      rcases (Scalar.read_alongside hR hv hst).cases_beside with
        ⟨e, v', s₁, t₁, hs, ht, he, hst₁⟩ | ⟨n, v', s₁, t₁, hs, ht, hst₁⟩ <;> simp only [hs, ht]
      · exact .error he ⟨rfl, hst₁⟩
      · exact .ok ⟨rfl, hst₁⟩
  | @array a hcons _ _ ih _ =>
      rw [read_array, read_array]
      rcases (ArrayOf.readCount_alongside hR hcons hst).cases with
        ⟨e, s₁, t₁, hs, ht, he, hst₁⟩ | ⟨count, s₁, t₁, hs, ht, hst₁⟩ <;> simp only [hs, ht]
      · exact .error he ⟨rfl, hst₁⟩
      · split
        · -- the elements are read like a list of copies of the prototype
          have hcopies : ∀ c ∈ List.replicate count a.prototype, ∀ {s : β} {t : γ}, R s t →
              Alongside (Beside R) (c.kind.read s) (c.kind.read t) := by
            intro c hc
            rw [List.eq_of_mem_replicate hc]
            exact ih
          rw [ArrayOf.readCopies_eq, ArrayOf.readCopies_eq]
          rcases (readAll_alongside hcopies hst₁).cases_beside with
            ⟨e, cs, s₂, t₂, hs, ht, he, hst₂⟩ | ⟨n, cs, s₂, t₂, hs, ht, hst₂⟩ <;>
            simp only [hs, ht]
          · exact .error he ⟨rfl, hst₂⟩
          · exact .ok ⟨rfl, hst₂⟩
        · exact .error trivial ⟨rfl, hst₁⟩
  | @group g _ _ _ ihreq ihopt =>
      rw [read, read]
      simp only [GroupOf.forget]
      rcases (readAll_alongside ihreq hst).cases_beside with
        ⟨e, required, s₁, t₁, hs, ht, he, hst₁⟩ | ⟨n, required, s₁, t₁, hs, ht, hst₁⟩ <;>
        simp only [hs, ht]
      · exact .error he ⟨rfl, hst₁⟩
      · rcases (g.indicator.read_alongside hR hst₁).cases_beside with
          ⟨e, indicator, s₂, t₂, hs, ht, he, hst₂⟩ | ⟨m, indicator, s₂, t₂, hs, ht, hst₂⟩ <;>
          simp only [hs, ht]
        · exact .error he ⟨rfl, hst₂⟩
        · rcases (readPresent_alongside ihopt indicator.toList hst₂).cases_beside with
            ⟨e, optional, s₃, t₃, hs, ht, he, hst₃⟩ | ⟨l, optional, s₃, t₃, hs, ht, hst₃⟩ <;>
            simp only [hs, ht]
          · exact .error he ⟨rfl, hst₃⟩
          · exact .ok ⟨rfl, hst₃⟩

end Kind

end ServeAlike

end WireTree
