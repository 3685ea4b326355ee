/-
**Components use a stream through transfers only.**

Writing a tree is a run of single writes and reading one a run of single reads, also when it fails
in the middle.  So what single transfers preserve of a stream is preserved by components, and the
streams that writes leave are among those that come up.

Main results:

* `WireTree.Kind.write_preserves`, `WireTree.Kind.read_preserves` — what transfers preserve,
  components preserve;
* `WireTree.BitStream.Reachable.write` — the streams that writes leave come up.
-/

import WireTree.Proofs.Component.Emitted
import WireTree.Proofs.Component.WellFormed

set_option relaxedAutoImplicit false
set_option autoImplicit false

namespace WireTree

variable {P : BitStream → Prop}

/-! ### Writing -/

section Write

variable (hP : ∀ (s : BitStream) (value : UInt32) (count : Nat),
  P s → P (s.writeBits value count).2)

include hP

theorem BitStream.writeCells_preserves (cells : List Cell) {s : BitStream} (hs : P s) :
    P (s.writeCells cells).2 := by
  induction cells generalizing s with
  | nil => exact hs
  | cons c cells ih =>
      have hs₁ := hP s c.word c.width hs
      rw [BitStream.writeCells]
      rcases h : s.writeBits c.word c.width with ⟨_ | _, s₁⟩ <;> rw [h] at hs₁
      · exact hs₁
      · exact ih hs₁

theorem Scalar.write_preserves (v : Scalar) {s : BitStream} (hs : P s) : P (v.write s).2 := by
  by_cases htext : v.variant = .text
  · obtain ⟨t, rfl⟩ := eq_text_of_variant htext
    have hs₁ : P (s.writeText t).2 := by
      cases hf : s.textFault t with
      | some e => rwa [BitStream.writeText_of_fault hf]
      | none =>
          rw [BitStream.writeText_of_admitted hf]
          exact BitStream.writeCells_preserves hP _ hs
    rw [write]
    rcases h : s.writeText t with ⟨_ | _, s₁⟩ <;> rw [h] at hs₁ <;> exact hs₁
  · have hs₁ := BitStream.writeCells_preserves hP v.cells hs
    rw [write_of_ne_text htext]
    rcases h : s.writeCells v.cells with ⟨_ | _, s₁⟩ <;> rw [h] at hs₁ <;> exact hs₁

namespace Kind

omit hP in
theorem writeAll_preserves {cs : List Component}
    (hcs : ∀ c ∈ cs, ∀ {s : BitStream}, P s → P (c.kind.write s).2) (n : Nat) {s : BitStream}
    (hs : P s) : P (writeAll cs n s).2 := by
  induction cs generalizing n s with
  | nil => exact hs
  | cons c cs ih =>
      obtain ⟨hc, hcs⟩ := List.forall_mem_cons.1 hcs
      have hs₁ := hc hs
      rw [writeAll]
      rcases h : c.kind.write s with ⟨_ | m, s₁⟩ <;> rw [h] at hs₁
      · exact hs₁
      · exact ih hcs (n + m) hs₁

/-- What single writes preserve, writing a tree preserves. -/
theorem write_preserves (k : Kind) {s : BitStream} (hs : P s) : P (k.write s).2 := by
  induction k using Kind.induction generalizing s with
  | scalar v =>
      rw [write]
      exact v.write_preserves hP hs
  | array a _ ih =>
      unfold write
      split
      · have hs₁ := hP s a.countField.offset a.countField.width hs
        rcases h : s.writeBits a.countField.offset a.countField.width with ⟨_ | _, s₁⟩ <;>
          rw [h] at hs₁
        · exact hs₁
        · exact writeAll_preserves (fun c hc => ih c hc) _ hs₁
      · exact hs
  | group g ihreq ihopt =>
      have hs₁ := writeAll_preserves (fun c hc => ihreq c hc) 0 hs
      rw [write]
      rcases h₁ : writeAll g.required 0 s with ⟨_ | n, s₁⟩ <;> rw [h₁] at hs₁
      · exact hs₁
      · have hs₂ := Scalar.write_preserves hP (.bits g.indicator) hs₁
        rw [← BitSet.write_eq] at hs₂
        simp only
        rcases h₂ : g.indicator.write s₁ with ⟨_ | m, s₂⟩ <;> rw [h₂] at hs₂
        · exact hs₂
        · have hpresent : ∀ c ∈ marked g.indicator.toList g.optional,
              ∀ {s : BitStream}, P s → P (c.kind.write s).2 := by
            intro c hc
            exact ihopt c (mem_of_mem_marked hc)
          simp only [writePresent_eq]
          exact writeAll_preserves hpresent _ hs₂

end Kind

end Write

/-! ### Reading -/

section Read

variable (hP : ∀ (s : BitStream) (count : Nat), P s → P (s.readBits count).2)

include hP

namespace BitStream

theorem readWords_preserves (widths : List Nat) {s : BitStream} (hs : P s) :
    P (s.readWords widths).2 := by
  induction widths generalizing s with
  | nil => exact hs
  | cons width widths ih =>
      -- the stream that one word leaves is the same whether it was read or not
      have hs₁ := hP s width hs
      rw [readWords_cons]
      rcases h : s.readBits width with ⟨_ | word, s₁⟩ <;> rw [h] at hs₁
      · exact hs₁
      · have hs₂ := ih hs₁
        simp only
        rcases h₂ : s₁.readWords widths with ⟨_ | words, s₂⟩ <;> rw [h₂] at hs₂ <;> exact hs₂

open BitSource (readTerminated)

theorem readTerminated_preserves (room : Nat) (taken : Array UInt8) {s : BitStream} (hs : P s) :
    P (readTerminated room taken s).2 := by
  induction room generalizing taken s with
  | zero =>
      have hs₁ := hP s 8 hs
      rw [readTerminated, BitSource.readBits_stream]
      rcases h : s.readBits 8 with ⟨_ | byte, s₁⟩ <;> rw [h] at hs₁
      · exact hs₁
      · simp only
        split <;> exact hs₁
  | succ room ih =>
      have hs₁ := hP s 8 hs
      rw [readTerminated, BitSource.readBits_stream]
      rcases h : s.readBits 8 with ⟨_ | byte, s₁⟩ <;> rw [h] at hs₁
      · exact hs₁
      · simp only
        split
        · exact hs₁
        · exact ih _ hs₁

theorem readText_preserves {s : BitStream} (hs : P s) : P s.readText.2 := by
  have hs₁ := readTerminated_preserves hP s.maxTextBytes #[] hs
  rw [readText, BitSource.readText, BitSource.maxTextBytes_stream]
  rcases h : readTerminated s.maxTextBytes #[] s with ⟨_ | bytes, s₁⟩ <;> rw [h] at hs₁
  · exact hs₁
  · simp only
    split <;> exact hs₁

end BitStream

theorem Scalar.read_preserves (v : Scalar) {s : BitStream} (hs : P s) : P (v.read s).2.2 := by
  by_cases htext : v.variant = .text
  · obtain ⟨t, rfl⟩ := eq_text_of_variant htext
    have hs₁ := BitStream.readText_preserves hP hs
    rw [read, BitSource.readText_stream]
    rcases h : s.readText with ⟨_ | t', s₁⟩ <;> rw [h] at hs₁ <;> exact hs₁
  · have hs₁ := BitStream.readWords_preserves hP v.widths hs
    rw [read_of_ne_text htext]
    rcases h : s.readWords v.widths with ⟨_ | words, s₁⟩ <;> rw [h] at hs₁ <;> exact hs₁

theorem BitSet.read_preserves (b : BitSet) {s : BitStream} (hs : P s) : P (b.read s).2.2 := by
  have hs₁ := BitStream.readWords_preserves hP b.widths hs
  rw [read, BitSource.readWords_stream]
  rcases h : s.readWords b.widths with ⟨_ | words, s₁⟩ <;> rw [h] at hs₁ <;> exact hs₁

omit hP in
theorem ArrayOf.readCopies_preserves {α : Type} {readCopy : BitStream → Outcome (α × BitStream) Nat}
    (hcopy : ∀ {s : BitStream}, P s → P (readCopy s).2.2) (count n : Nat) (done : List α)
    {s : BitStream} (hs : P s) : P (readCopies readCopy count n done s).2 := by
  induction count generalizing n done s with
  | zero => exact hs
  | succ count ih =>
      have hs₁ := hcopy hs
      rw [readCopies]
      rcases h : readCopy s with ⟨_ | m, c, s₁⟩ <;> rw [h] at hs₁
      · exact hs₁
      · exact ih _ _ hs₁

namespace Kind

omit hP in
theorem readAll_preserves {cs : List Component}
    (hcs : ∀ c ∈ cs, ∀ {s : BitStream}, P s → P (c.kind.read s).2.2) {s : BitStream}
    (hs : P s) : P (readAll cs s).2.2 := by
  induction cs generalizing s with
  | nil => exact hs
  | cons c cs ih =>
      obtain ⟨hc, hcs⟩ := List.forall_mem_cons.1 hcs
      have hs₁ := hc hs
      rw [readAll]
      rcases h : c.kind.read s with ⟨_ | n, kind, s₁⟩ <;> rw [h] at hs₁
      · exact hs₁
      · have hs₂ := ih hcs hs₁
        simp only
        rcases h₂ : readAll cs s₁ with ⟨_ | m, cs', s₂⟩ <;> rw [h₂] at hs₂ <;> exact hs₂

omit hP in
theorem readPresent_preserves {cs : List Component}
    (hcs : ∀ c ∈ cs, ∀ {s : BitStream}, P s → P (c.kind.read s).2.2) (marks : List Bool)
    {s : BitStream} (hs : P s) : P (readPresent marks cs s).2.2 := by
  induction cs generalizing marks s with
  | nil => cases marks <;> exact hs
  | cons c cs ih =>
      obtain ⟨hc, hcs⟩ := List.forall_mem_cons.1 hcs
      rcases marks with _ | ⟨_ | _, marks⟩
      · exact hs
      · exact ih hcs marks hs
      · have hs₁ := hc hs
        rw [readPresent, if_pos rfl]
        rcases h : c.kind.read s with ⟨_ | n, kind, s₁⟩ <;> rw [h] at hs₁
        · exact hs₁
        · have hs₂ := ih hcs marks hs₁
          simp only
          rcases h₂ : readPresent marks cs s₁ with ⟨_ | m, cs', s₂⟩ <;> rw [h₂] at hs₂ <;>
            exact hs₂

/-- What single reads preserve, reading a tree preserves. -/
theorem read_preserves (k : Kind) {s : BitStream} (hs : P s) : P (k.read s).2.2 := by
  induction k using Kind.induction generalizing s with
  | scalar v =>
      rw [read]
      exact v.read_preserves hP hs
  | array a ih _ =>
      have hs₁ := hP s a.countField.width hs
      rw [read_array, ArrayOf.readCount, BitSource.readBits_stream]
      rcases h : s.readBits a.countField.width with ⟨_ | word, s₁⟩ <;> rw [h] at hs₁
      · exact hs₁
      · simp only
        split
        · have hcopy {s : BitStream} (hs : P s) : P (readCopy a.prototype s).2.2 := ih hs
          have hs₂ := ArrayOf.readCopies_preserves hcopy
            (a.countField.ofOffset word).value.toInt.toNat a.countField.width [] hs₁
          split <;> rename_i h₂ <;> rw [h₂] at hs₂ <;> exact hs₂
        · exact hs₁
  | group g ihreq ihopt =>
      -- wherever the three parts stop, the last stream has the property
      have hs₁ := readAll_preserves (fun c hc => ihreq c hc) hs
      rw [read]
      simp only [GroupOf.forget]
      rcases h₁ : readAll g.required s with ⟨_ | n, required, s₁⟩ <;> rw [h₁] at hs₁
      · exact hs₁
      · have hs₂ := g.indicator.read_preserves hP hs₁
        simp only
        rcases h₂ : g.indicator.read s₁ with ⟨_ | m, indicator, s₂⟩ <;> rw [h₂] at hs₂
        · exact hs₂
        · have hs₃ := readPresent_preserves (fun c hc => ihopt c hc) indicator.toList hs₂
          simp only
          rcases h₃ : readPresent indicator.toList g.optional s₂ with ⟨_ | l, optional, s₃⟩ <;>
            rw [h₃] at hs₃ <;> exact hs₃

end Kind

end Read

/-! ### The streams that writes leave -/

theorem BitStream.Reachable.write {s : BitStream} (hs : s.Reachable) (k : Kind) :
    (k.write s).2.Reachable := by
  refine k.write_preserves ?_ hs
  intro s value count hs
  have h := Reachable.perform (.write value count) hs
  rw [BitStream.perform] at h
  rcases hw : s.writeBits value count with ⟨_ | _, s₁⟩ <;> rw [hw] at h <;> exact h

end WireTree
