/-
**The digits stay in step.**

The digits of a digest are made anew only when the bytes change.  That is enough: whatever is done
to a digest, and whether or not it goes through, the digits are those of the bytes.  A text gives a
digest other bytes if it is 32 digits, of either case; the digits are then the text in lower case.
Any other text, and any read that fails, leaves the digest as it was.

Main definitions:

* `WireTree.DigestCall`, `WireTree.Digest.perform` — what is done to a digest;
* `WireTree.Digest.Origin` — the ways to make one.

Main results:

* `WireTree.Digest.WellFormed.exists_setText` — a text of digits is accepted;
* `WireTree.Digest.setText_of_refuses` — any other text is refused;
* `WireTree.Digest.digits_stay_in_step` — **whole runs**.
-/

import WireTree.Component.Edit
import WireTree.Proofs.Calls
import WireTree.Proofs.Digest
import WireTree.Proofs.Digest.Hex

set_option relaxedAutoImplicit false
set_option autoImplicit false

namespace WireTree

/-! ### Calls -/

/-- What is done to a digest. -/
inductive DigestCall where
  /-- Give it the bytes that a text stands for. -/
  | setText (text : String)
  /-- Give it other bytes. -/
  | setBytes (bytes : Vector UInt8 16)
  /-- Make all bytes zero. -/
  | clear
  /-- Take the bytes from a stream. -/
  | read (s : BitStream)

namespace Digest

/-- Carries a call out on a digest. -/
def perform (d : Digest) : DigestCall → Outcome Digest Unit
  | .setText text =>
    match d.setText text with
    | .ok d => (.ok (), d)
    | .error e => (.error e, d)
  | .setBytes bytes => (.ok (), d.setBytes bytes)
  | .clear => (.ok (), d.clear)
  | .read s =>
    match Edit.read s .digest d with
    | ((answer, _), d) => (answer.map fun _ => (), d)

/-- The ways to make a digest. -/
inductive Origin where
  /-- All bytes zero. -/
  | zero
  /-- The given bytes. -/
  | ofBytes (bytes : Vector UInt8 16)
  /-- The bytes that a text stands for. -/
  | ofText (text : String)

/-- A new digest, if there is one. -/
def Origin.digest : Origin → Except WireError Digest
  | zero => .ok .zero
  | ofBytes bytes => .ok (Digest.ofBytes bytes)
  | ofText text => Digest.ofText text

variable {d d' : Digest} {text : String}

/-! ### One call -/

theorem read_cases (d : Digest) (s : BitStream) :
    (∃ words s', Edit.read s .digest d = ((.ok 128, s'), d.ofWords words)) ∨
      ∃ e s', Edit.read s .digest d = ((.error e, s'), d) := by
  rcases hw : s.readWords (Scalar.digest d).widths with ⟨e | words, s'⟩
  · refine .inr ⟨e, s', Edit.read_eq ?_⟩
    simp only [Kind.ofContent, Kind.read, Scalar.read, BitSource.readWords_stream, hw]
  · refine .inl ⟨words, s', Edit.read_eq ?_⟩
    simp only [Kind.ofContent, Kind.read, Scalar.read, BitSource.readWords_stream, hw]
    rfl

theorem WellFormed.ofWords (h : d.WellFormed) (words : List UInt32) :
    (d.ofWords words).WellFormed := by
  rw [Digest.ofWords]
  exact h.setBytes _

/-- A call keeps the digits in step with the bytes. -/
theorem WellFormed.perform (h : d.WellFormed) (call : DigestCall) :
    (d.perform call).2.WellFormed := by
  cases call with
  | setText text =>
      rw [Digest.perform]
      rcases hset : d.setText text with e | d'
      · exact h
      · exact h.setText hset
  | setBytes bytes => exact h.setBytes bytes
  | clear => exact h.setBytes _
  | read s =>
      rw [Digest.perform]
      obtain ⟨words, s', hread⟩ | ⟨e, s', hread⟩ := read_cases d s
      · simp only [hread]
        exact h.ofWords words
      · rwa [hread]

/-- A call that fails changes nothing. -/
theorem perform_of_error {call : DigestCall} {e : WireError} (h : (d.perform call).1 = .error e) :
    (d.perform call).2 = d := by
  cases call with
  | setText text =>
      rw [perform] at h ⊢
      rcases hset : d.setText text with e | d' <;> simp only [hset] at h ⊢
      cases h
  | setBytes bytes => cases h
  | clear => cases h
  | read s =>
      rw [perform] at h ⊢
      obtain ⟨words, s', hread⟩ | ⟨e, s', hread⟩ := read_cases d s <;> rw [hread] at h ⊢
      cases h

theorem Origin.wellFormed_digest {o : Origin} (h : o.digest = .ok d) : d.WellFormed := by
  cases o with
  | zero =>
      cases h
      exact wellFormed_ofBytes _
  | ofBytes bytes =>
      cases h
      exact wellFormed_ofBytes bytes
  | ofText text =>
      have hzero : Digest.zero.WellFormed := wellFormed_ofBytes _
      rw [Origin.digest, Digest.ofText] at h
      exact hzero.setText h

/-! ### Texts -/

/-- A text of 32 digits is accepted, and the digits are the text in lower case. -/
theorem WellFormed.exists_setText (h : d.WellFormed) (hlen : text.toList.length = 32)
    (hdigits : ∀ c ∈ text.toList, Hex.IsDigit c) :
    ∃ d', d.setText text = .ok d' ∧ d'.text = text.toLower := by
  obtain ⟨bytes, hdecode, hcount, hencode⟩ :=
    Hex.exists_decode (show text.toList.length = 2 * byteCount from hlen) hdigits
  refine ⟨d.setBytes (pack bytes), by rw [Digest.setText, hdecode], ?_⟩
  rw [text_setBytes h, toList_pack hcount, hencode, ← String.toList_map, String.ofList_toList]
  rfl

/-- Any other text is refused, and the reason is told. -/
theorem setText_of_refuses (d : Digest) {fault : Hex.Fault} (h : Hex.Refuses 16 text fault) :
    d.setText text = .error (.invalidDigest ("'" ++ text ++ "': " ++ fault.message)) := by
  rw [setText, byteCount, Hex.decode_of_refuses h]

/-- The digits stand for the bytes, so to set them changes nothing. -/
theorem WellFormed.setText_text (h : d.WellFormed) : d.setText d.text = .ok d := by
  have hlen : d.bytes.toList.length = 16 := Vector.length_toList ..
  have hdecode := Hex.decode_encode d.bytes.toList
  rw [hlen, ← h] at hdecode
  have hpack : pack d.bytes.toList = d.bytes := Vector.toList_inj.1 (toList_pack hlen)
  rw [Digest.setText, byteCount, hdecode]
  simp only [hpack, Digest.setBytes, if_pos]

/-- Only texts of 32 digits are accepted. -/
theorem isDigits_of_setText (h : d.setText text = .ok d') :
    text.toList.length = 32 ∧ ∀ c ∈ text.toList, Hex.IsDigit c := by
  obtain hright | ⟨fault, hfault⟩ := Hex.isDigits_or_refuses 16 text
  · exact hright
  · cases h.symm.trans (d.setText_of_refuses hfault)

/-! ### Whole runs -/

/-- **Whole runs.**  From every new digest, and after every list of calls, those that fail included,
the digits are those of the bytes.  A text is accepted if it is 32 digits of either case, and only
then; the digits are the text in lower case, and to set the digits changes nothing.  Any other text
is refused for the first reason there is, and that or any other call that fails leaves the digest as
it was. -/
theorem digits_stay_in_step {o : Origin} {d₀ : Digest} (h : o.digest = .ok d₀)
    (calls : List DigestCall) :
    let d := (runCalls perform d₀ calls).2
    (d.text.toList = d.bytes.toList.flatMap fun byte =>
      [Hex.lowerDigits.getD (byte.toNat / 16) '0', Hex.lowerDigits.getD (byte.toNat % 16) '0']) ∧
    d.setText d.text = .ok d ∧
    (∀ text, (∃ d', d.setText text = .ok d') ↔
      text.toList.length = 32 ∧ ∀ c ∈ text.toList, Hex.IsDigit c) ∧
    (∀ text d', d.setText text = .ok d' → d.perform (.setText text) = (.ok (), d') ∧
      d'.text = text.toLower ∧ d'.setText d'.text = .ok d') ∧
    (∀ text, (¬∃ d', d.setText text = .ok d') → ∃ fault, Hex.Refuses 16 text fault) ∧
    (∀ text fault, Hex.Refuses 16 text fault → d.perform (.setText text) =
      (.error (.invalidDigest ("'" ++ text ++ "': " ++ fault.message)), d)) ∧
    ∀ call e, (d.perform call).1 = .error e → (d.perform call).2 = d := by
  intro d
  have hwf : d.WellFormed :=
    runCalls_keeps (fun _ call hd => hd.perform call) (Origin.wellFormed_digest h) calls
  refine ⟨by rw [hwf, Hex.toList_encode], hwf.setText_text, ?_, ?_, ?_, ?_, ?_⟩
  · intro text
    refine ⟨fun ⟨d', hset⟩ => isDigits_of_setText hset, ?_⟩
    rintro ⟨hlen, hdigits⟩
    obtain ⟨d', hset, -⟩ := hwf.exists_setText hlen hdigits
    exact ⟨d', hset⟩
  · intro text d' hset
    obtain ⟨hlen, hdigits⟩ := isDigits_of_setText hset
    obtain ⟨d'', hset', hlower⟩ := hwf.exists_setText hlen hdigits
    obtain rfl := Except.ok.inj (hset'.symm.trans hset)
    exact ⟨by rw [perform, hset], hlower, (hwf.setText hset).setText_text⟩
  · intro text hnone
    obtain ⟨hlen, hdigits⟩ | hfault := Hex.isDigits_or_refuses 16 text
    · obtain ⟨d', hset, -⟩ := hwf.exists_setText hlen hdigits
      exact absurd ⟨d', hset⟩ hnone
    · exact hfault
  · intro text fault hfault
    rw [perform, d.setText_of_refuses hfault]
  · intro call e hcall
    exact perform_of_error hcall

/-- Two calls fail and the digits that were set stay, in lower case.  A text whose 31st character is
beyond the digits is as long in bytes as it should be, and the first byte of that character is
complained of. -/
theorem digits_stay_in_step_beyond_digits : ∃ d₀ d : Digest,
    Origin.digest (.ofText "0123456789ABCDEF0123456789ABCDEF") = .ok d₀ ∧
    (runCalls perform d₀ [.setText "abc", .read (.ofBytes #[7, 7])]).2 = d ∧
    d.text = "0123456789abcdef0123456789abcdef" ∧ d.setText d.text = .ok d ∧
    d.perform (.setText "0123456789abcdef0123456789abcdé") =
      (.error (.invalidDigest ("'0123456789abcdef0123456789abcdé': " ++
        "Invalid character 'Ã' at position 30")), d) := by
  have horigin : Origin.digest (.ofText "0123456789ABCDEF0123456789ABCDEF") =
      .ok ⟨⟨#[1, 35, 69, 103, 137, 171, 205, 239, 1, 35, 69, 103, 137, 171, 205, 239], rfl⟩,
        "0123456789abcdef0123456789abcdef"⟩ := by decide +kernel
  obtain ⟨-, hsame, -, -, -, hrefused, -⟩ :=
    digits_stay_in_step horigin [.setText "abc", .read (.ofBytes #[7, 7])]
  refine ⟨_, _, horigin, rfl, ?_, hsame, ?_⟩
  · decide +kernel
  · rw [hrefused _ (.noDigit 195 30) (.noDigit "0123456789abcdef0123456789abcd".toUTF8.data.toList
      195 [169] (by decide +kernel) (by decide +kernel) (by decide +kernel) (by decide +kernel))]
    decide +kernel

end Digest

end WireTree
