/-
**Two streams in step.**

A component is read from two streams, or written to two, and what is asked is whether the one that
has less, fewer bits or lower limits, makes a difference.  It does at one point at most: as long as
the single transfers agree the two runs agree, and the first transfer on which they do not agree
ends the run on the poorer stream.  Nothing that happens on the other stream after that is undone.

So two runs go *in step*: either they answer alike, leave the same object and leave streams that are
still related, or the first has been stopped by an error of a known kind, and the second stream is
ahead.  What makes a poorer stream poorer is left open here; if single transfers go in step, whole
trees do.

Main definitions:

* `WireTree.Pace` — the errors that stop the first run, and how the two streams stand to each other;
* `WireTree.Pace.InStep`, `WireTree.Pace.ReadInStep` — two runs in step, without and with an object
  that is read;
* `WireTree.Pace.Reads`, `WireTree.Pace.Writes` — single transfers go in step.

Main results:

* `WireTree.Pace.Reads.kind`, `WireTree.Pace.Writes.kind` — **reading and writing trees goes in
  step**.
-/

import WireTree.Proofs.BitSet.FlagOrder
import WireTree.Proofs.Component.InTurn
import WireTree.Proofs.Component.Safety
import WireTree.Proofs.Component.Transfers

set_option relaxedAutoImplicit false
set_option autoImplicit false

namespace WireTree

/-- How two streams stand to each other while the same is done on both. -/
structure Pace where
  /-- The errors that stop the run on the first stream. -/
  stop : WireError → Prop
  /-- The streams as long as nothing has stopped. -/
  related : BitStream → BitStream → Prop
  /-- The streams after the first run has stopped. -/
  ahead : BitStream → BitStream → Prop

namespace Pace

variable (p : Pace) {α κ : Type}

/-- Two runs answer alike and leave related streams, or the first has been stopped. -/
inductive InStep : Outcome BitStream α → Outcome BitStream α → Prop
  | same {r : Except WireError α} {s t : BitStream} : p.related s t → InStep (r, s) (r, t)
  | stopped {e : WireError} {s : BitStream} {y : Outcome BitStream α} :
      p.stop e → p.ahead s y.2 → InStep (.error e, s) y

/-- Two reads answer alike, leave the same object and leave related streams, or the first has been
stopped. -/
inductive ReadInStep : Outcome (κ × BitStream) α → Outcome (κ × BitStream) α → Prop
  | same {r : Except WireError α} {k : κ} {s t : BitStream} :
      p.related s t → ReadInStep (r, k, s) (r, k, t)
  | stopped {e : WireError} {k : κ} {s : BitStream} {y : Outcome (κ × BitStream) α} :
      p.stop e → p.ahead s y.2.2 → ReadInStep (.error e, k, s) y

/-- The streams have the same limit on texts, or a text that is too long for the first stops the
run. -/
def Limits : Prop :=
  ∀ {s t : BitStream}, p.related s t → s.maxTextBytes = t.maxTextBytes ∨
    s.maxTextBytes ≤ t.maxTextBytes ∧ p.ahead s t ∧ ∀ len max, p.stop (.textTooLong len max)

/-- Single reads go in step, and a stream that is ahead stays ahead when more is read from it. -/
structure Reads : Prop where
  /-- Reading a number. -/
  bits : ∀ {s t : BitStream} (count : Nat), p.related s t →
    p.InStep (s.readBits count) (t.readBits count)
  /-- The limits on texts. -/
  limits : p.Limits
  /-- Reading on. -/
  ahead : ∀ {s t : BitStream} (count : Nat), p.ahead s t → p.ahead s (t.readBits count).2

/-- Single writes go in step, and a stream that is ahead stays ahead when more is written to it. -/
structure Writes : Prop where
  /-- Writing a number. -/
  bits : ∀ {s t : BitStream} (value : UInt32) (count : Nat), p.related s t →
    p.InStep (s.writeBits value count) (t.writeBits value count)
  /-- The limits on texts. -/
  limits : p.Limits
  /-- Writing on. -/
  ahead : ∀ {s t : BitStream} (value : UInt32) (count : Nat), p.ahead s t →
    p.ahead s (t.writeBits value count).2

variable {p} {β κ' : Type} {s t : BitStream}

/-! ### One after the other -/

/-- What follows a run that goes in step goes in step: it hands a failure on, goes in step after a
success, and leaves a stream ahead that is ahead. -/
theorem InStep.next {x y : Outcome BitStream α} {x' y' : Outcome BitStream β} (h : p.InStep x y)
    (herror : ∀ e s, x = (.error e, s) → x' = (.error e, s))
    (herror' : ∀ e t, y = (.error e, t) → y' = (.error e, t))
    (hok : ∀ a s t, x = (.ok a, s) → y = (.ok a, t) → p.related s t → p.InStep x' y')
    (hahead : ∀ a s t, y = (.ok a, t) → p.ahead s t → p.ahead s y'.2) : p.InStep x' y' := by
  cases h with
  | @same r s t hst =>
      cases r with
      | error e =>
          rw [herror e s rfl, herror' e t rfl]
          exact .same hst
      | ok a => exact hok a s t rfl rfl hst
  | @stopped e s y hstop hst =>
      obtain ⟨r, t⟩ := y
      rw [herror e s rfl]
      refine .stopped hstop ?_
      cases r with
      | error e' => rwa [herror' e' t rfl]
      | ok a => exact hahead a s t rfl hst

/-- A read that follows a run that goes in step goes in step; `l` is the object that it leaves if
the run fails. -/
theorem InStep.nextRead {x y : Outcome BitStream α} {x' y' : Outcome (κ × BitStream) β}
    (h : p.InStep x y) (l : κ)
    (herror : ∀ e s, x = (.error e, s) → x' = (.error e, l, s))
    (herror' : ∀ e t, y = (.error e, t) → y' = (.error e, l, t))
    (hok : ∀ a s t, x = (.ok a, s) → y = (.ok a, t) → p.related s t → p.ReadInStep x' y')
    (hahead : ∀ a s t, y = (.ok a, t) → p.ahead s t → p.ahead s y'.2.2) : p.ReadInStep x' y' := by
  cases h with
  | @same r s t hst =>
      cases r with
      | error e =>
          rw [herror e s rfl, herror' e t rfl]
          exact .same hst
      | ok a => exact hok a s t rfl rfl hst
  | @stopped e s y hstop hst =>
      obtain ⟨r, t⟩ := y
      rw [herror e s rfl]
      refine .stopped hstop ?_
      cases r with
      | error e' => rwa [herror' e' t rfl]
      | ok a => exact hahead a s t rfl hst

/-- A read that follows a read that goes in step goes in step; `l` is what it makes of the object
that the first leaves if that fails. -/
theorem ReadInStep.next {x y : Outcome (κ × BitStream) α} {x' y' : Outcome (κ' × BitStream) β}
    (h : p.ReadInStep x y) (l : κ → κ')
    (herror : ∀ e k s, x = (.error e, k, s) → x' = (.error e, l k, s))
    (herror' : ∀ e k t, y = (.error e, k, t) → y' = (.error e, l k, t))
    (hok : ∀ a k s t, x = (.ok a, k, s) → y = (.ok a, k, t) → p.related s t →
      p.ReadInStep x' y')
    (hahead : ∀ a k s t, y = (.ok a, k, t) → p.ahead s t → p.ahead s y'.2.2) :
    p.ReadInStep x' y' := by
  cases h with
  | @same r k s t hst =>
      cases r with
      | error e =>
          rw [herror e k s rfl, herror' e k t rfl]
          exact .same hst
      | ok a => exact hok a k s t rfl rfl hst
  | @stopped e k s y hstop hst =>
      obtain ⟨r, k', t⟩ := y
      rw [herror e k s rfl]
      refine .stopped hstop ?_
      cases r with
      | error e' => rwa [herror' e' k' t rfl]
      | ok a => exact hahead a k' s t rfl hst

/-- What is made of the object that is left does not matter. -/
theorem ReadInStep.map {x y : Outcome (κ × BitStream) α} (h : p.ReadInStep x y) (f : κ → κ') :
    p.ReadInStep (x.1, f x.2.1, x.2.2) (y.1, f y.2.1, y.2.2) := by
  cases h with
  | same hst => exact .same hst
  | stopped hstop hst => exact .stopped hstop hst

/-! ### Writing -/

namespace Writes

variable (hp : p.Writes)

include hp

theorem cells (cells : List Cell) (h : p.related s t) :
    p.InStep (s.writeCells cells) (t.writeCells cells) := by
  induction cells generalizing s t with
  | nil => exact .same h
  | cons c cells ih =>
      rw [BitStream.writeCells, BitStream.writeCells]
      refine (hp.bits c.word c.width h).next ?_ ?_ ?_ ?_
      · intro e s h
        rw [h]
      · intro e t h
        rw [h]
      · intro _ s t h h' hst
        rw [h, h']
        exact ih hst
      · intro _ s t h hst
        rw [h]
        exact BitStream.writeCells_preserves (fun _ => hp.ahead) cells hst

theorem text (text : String) (h : p.related s t) :
    p.InStep (s.writeText text) (t.writeText text) := by
  have hsame (hfault : s.textFault text = t.textFault text) :
      p.InStep (s.writeText text) (t.writeText text) := by
    cases hf : t.textFault text with
    | some e =>
        rw [BitStream.writeText_of_fault hf, BitStream.writeText_of_fault (hfault.trans hf)]
        exact .same h
    | none =>
        rw [BitStream.writeText_of_admitted hf, BitStream.writeText_of_admitted (hfault.trans hf)]
        exact hp.cells _ h
  rcases hp.limits h with heq | ⟨hle, hahead, hstop⟩
  · exact hsame (by rw [BitStream.textFault, BitStream.textFault, heq])
  · by_cases hlong : s.maxTextBytes < text.utf8ByteSize
    · -- the text is too long for the first stream, whatever the second makes of it
      rw [BitStream.writeText_of_fault (if_pos hlong)]
      refine .stopped (hstop _ _) ?_
      cases hf : t.textFault text with
      | some e => rwa [BitStream.writeText_of_fault hf]
      | none =>
          rw [BitStream.writeText_of_admitted hf]
          exact BitStream.writeCells_preserves (fun _ => hp.ahead) _ hahead
    · have hlong' : ¬ t.maxTextBytes < text.utf8ByteSize := by omega
      exact hsame (by rw [BitStream.textFault, BitStream.textFault, if_neg hlong, if_neg hlong'])

theorem scalar (v : Scalar) (h : p.related s t) : p.InStep (v.write s) (v.write t) := by
  -- a text is admitted before it is written, other leaves are runs of cells
  by_cases htext : v.variant = .text
  · obtain ⟨text, rfl⟩ := Scalar.eq_text_of_variant htext
    rw [Scalar.write, Scalar.write]
    refine (hp.text text h).next ?_ ?_ ?_ ?_
    · intro e s h
      simp only [h]
    · intro e t h
      simp only [h]
    · intro _ s t h h' hst
      simp only [h, h']
      exact .same hst
    · intro _ s t h hst
      simp only [h]
      exact hst
  · rw [Scalar.write_of_ne_text htext, Scalar.write_of_ne_text htext]
    refine (hp.cells v.cells h).next ?_ ?_ ?_ ?_
    · intro e s h
      rw [h]
    · intro e t h
      rw [h]
    · intro _ s t h h' hst
      rw [h, h']
      exact .same hst
    · intro _ s t h hst
      rw [h]
      exact hst

theorem bitSet (b : BitSet) (h : p.related s t) : p.InStep (b.write s) (b.write t) := by
  rw [BitSet.write_eq, BitSet.write_eq]
  exact hp.scalar (.bits b) h

theorem ahead_all (cs : List Component) (n : Nat) (h : p.ahead s t) :
    p.ahead s (Kind.writeAll cs n t).2 :=
  Kind.writeAll_preserves (fun c _ _ => c.kind.write_preserves fun _ => hp.ahead) n h

theorem all {cs : List Component}
    (hcs : ∀ c ∈ cs, ∀ {s t : BitStream}, p.related s t →
      p.InStep (c.kind.write s) (c.kind.write t)) (n : Nat) (h : p.related s t) :
    p.InStep (Kind.writeAll cs n s) (Kind.writeAll cs n t) := by
  induction cs generalizing n s t with
  | nil => exact .same h
  | cons c cs ih =>
      obtain ⟨hc, hcs⟩ := List.forall_mem_cons.1 hcs
      rw [Kind.writeAll, Kind.writeAll]
      refine (hc h).next ?_ ?_ ?_ ?_
      · intro e s h
        rw [h]
      · intro e t h
        rw [h]
      · intro m s t h h' hst
        rw [h, h']
        exact ih hcs (n + m) hst
      · intro m s t h hst
        rw [h]
        exact hp.ahead_all cs (n + m) hst

/-- Writing trees goes in step. -/
theorem kind (k : Kind) (h : p.related s t) : p.InStep (k.write s) (k.write t) := by
  induction k using Kind.induction generalizing s t with
  | scalar v =>
      rw [Kind.write, Kind.write]
      exact hp.scalar v h
  | array a _ ih =>
      rw [Kind.write, Kind.write]
      by_cases hadm : a.admits a.len
      · rw [if_pos hadm, if_pos hadm]
        refine (hp.bits a.countField.offset a.countField.width h).next ?_ ?_ ?_ ?_
        · intro e s h
          rw [h]
        · intro e t h
          rw [h]
        · intro _ s t h h' hst
          rw [h, h']
          exact hp.all (fun c hc _ _ => ih c hc) _ hst
        · intro _ s t h hst
          rw [h]
          exact hp.ahead_all _ _ hst
      · rw [if_neg hadm, if_neg hadm]
        exact .same h
  | group g ihreq ihopt =>
      rw [Kind.write, Kind.write]
      -- the present fields are written like any list of fields
      simp only [Kind.writePresent_eq]
      refine (hp.all (fun c hc _ _ => ihreq c hc) 0 h).next ?_ ?_ ?_ ?_
      · intro e s h
        rw [h]
      · intro e t h
        rw [h]
      · intro n s t h h' hst
        rw [h, h']
        refine (hp.bitSet g.indicator hst).next ?_ ?_ ?_ ?_
        · intro e s h
          simp only [h]
        · intro e t h
          simp only [h]
        · intro m s t h h' hst
          simp only [h, h']
          exact hp.all (fun c hc _ _ => ihopt c (mem_of_mem_marked hc)) _ hst
        · intro m s t h hst
          simp only [h]
          exact hp.ahead_all _ _ hst
      · intro n s t h hst
        have hmarks := (Scalar.bits g.indicator).write_preserves (fun _ => hp.ahead) hst
        rw [← BitSet.write_eq] at hmarks
        rw [h]
        simp only
        rcases hw : g.indicator.write t with ⟨_ | m, t₁⟩ <;> rw [hw] at hmarks
        · exact hmarks
        · exact hp.ahead_all _ _ hmarks

end Writes

/-! ### Reading -/

namespace Reads

open BitSource (readTerminated)

variable (hp : p.Reads)

include hp

/-- The bytes of a text are read in step, if on either stream there is room for as many as it
admits. -/
theorem terminated {room room' : Nat} (taken : Array UInt8) (h : p.related s t)
    (hroom : room + taken.size = s.maxTextBytes) (hroom' : room' + taken.size = t.maxTextBytes) :
    p.InStep (readTerminated room taken s) (readTerminated room' taken t) := by
  induction room using Nat.strongRecOn generalizing room' taken s t with
  | ind room ih =>
      rw [readTerminated, readTerminated, BitSource.readBits_stream, BitSource.readBits_stream]
      refine (hp.bits 8 h).next ?_ ?_ ?_ ?_
      · intro e s h
        rw [h]
      · intro e t h
        rw [h]
      · intro byte s₁ t₁ h h' hst
        obtain ⟨rfl, -⟩ := BitStream.eq_advance_of_readBits h
        obtain ⟨rfl, -⟩ := BitStream.eq_advance_of_readBits h'
        have hlimits := hp.limits hst
        rw [BitStream.maxTextBytes_advance, BitStream.maxTextBytes_advance] at hlimits
        rw [h, h']
        simp only
        by_cases hzero : byte = 0
        · rw [if_pos hzero, if_pos hzero]
          exact .same hst
        · rw [if_neg hzero, if_neg hzero]
          cases room with
          | succ room =>
              obtain ⟨room', rfl⟩ : ∃ k, room' = k + 1 := ⟨room' - 1, by omega⟩
              refine ih room (Nat.lt_succ_self room) _ hst ?_ ?_ <;>
                rw [Array.size_push, BitStream.maxTextBytes_advance] <;> omega
          | zero =>
              -- the first stream admits no more; the second may, if its limit is a looser one
              rcases hlimits with heq | ⟨-, hahead, hstop⟩
              · obtain rfl : room' = 0 := by omega
                exact .same hst
              · refine .stopped (hstop _ _) ?_
                cases room' with
                | zero => exact hahead
                | succ room' =>
                    exact BitStream.readTerminated_preserves (fun _ => hp.ahead) _ _ hahead
      · intro byte s t h hst
        rw [h]
        simp only
        split
        · exact hst
        · cases room' with
          | zero => exact hst
          | succ room' => exact BitStream.readTerminated_preserves (fun _ => hp.ahead) _ _ hst

theorem text (h : p.related s t) : p.InStep s.readText t.readText := by
  rw [BitStream.readText, BitStream.readText, BitSource.readText, BitSource.readText,
    BitSource.maxTextBytes_stream, BitSource.maxTextBytes_stream]
  refine (hp.terminated #[] h rfl rfl).next ?_ ?_ ?_ ?_
  · intro e s h
    rw [h]
  · intro e t h
    rw [h]
  · intro bytes s t h h' hst
    rw [h, h']
    cases hutf8 : String.fromUTF8? ⟨bytes⟩ with
    | none =>
        simp only [hutf8]
        exact .same hst
    | some text =>
        simp only [hutf8]
        exact .same hst
  · intro bytes s t h hst
    rw [h]
    simp only
    split <;> exact hst

theorem words (widths : List Nat) (h : p.related s t) :
    p.InStep (s.readWords widths) (t.readWords widths) := by
  induction widths generalizing s t with
  | nil => exact .same h
  | cons width widths ih =>
      rw [BitStream.readWords_cons, BitStream.readWords_cons]
      refine (hp.bits width h).next ?_ ?_ ?_ ?_
      · intro e s h
        rw [h]
      · intro e t h
        rw [h]
      · intro word s t h h' hst
        rw [h, h']
        refine (ih hst).next ?_ ?_ ?_ ?_
        · intro e s h
          simp only [h]
        · intro e t h
          simp only [h]
        · intro words s t h h' hst
          simp only [h, h']
          exact .same hst
        · intro words s t h hst
          simp only [h]
          exact hst
      · intro word s t h hst
        have hrest := BitStream.readWords_preserves (fun _ => hp.ahead) widths hst
        rw [h]
        simp only
        rcases hw : t.readWords widths with ⟨_ | words, t₁⟩ <;> rw [hw] at hrest <;> exact hrest

theorem scalar (v : Scalar) (h : p.related s t) : p.ReadInStep (v.read s) (v.read t) := by
  -- a failure leaves the leaf as it was
  by_cases htext : v.variant = .text
  · obtain ⟨text, rfl⟩ := Scalar.eq_text_of_variant htext
    rw [Scalar.read, Scalar.read, BitSource.readText_stream, BitSource.readText_stream]
    refine (hp.text h).nextRead (.text text) ?_ ?_ ?_ ?_
    · intro e s h
      rw [h]
    · intro e t h
      rw [h]
    · intro _ s t h h' hst
      rw [h, h']
      exact .same hst
    · intro _ s t h hst
      rw [h]
      exact hst
  · rw [Scalar.read_of_ne_text htext, Scalar.read_of_ne_text htext]
    refine (hp.words v.widths h).nextRead v ?_ ?_ ?_ ?_
    · intro e s h
      rw [h]
    · intro e t h
      rw [h]
    · intro _ s t h h' hst
      rw [h, h']
      exact .same hst
    · intro _ s t h hst
      rw [h]
      exact hst

theorem bitSet (b : BitSet) (h : p.related s t) : p.ReadInStep (b.read s) (b.read t) := by
  rw [BitSet.read, BitSet.read, BitSource.readWords_stream, BitSource.readWords_stream]
  refine (hp.words b.widths h).nextRead b ?_ ?_ ?_ ?_
  · intro e s h
    rw [h]
  · intro e t h
    rw [h]
  · intro _ s t h h' hst
    rw [h, h']
    exact .same hst
  · intro _ s t h hst
    rw [h]
    exact hst

theorem ahead_present (marks : List Bool) (cs : List Component) (h : p.ahead s t) :
    p.ahead s (Kind.readPresent marks cs t).2.2 :=
  Kind.readPresent_preserves (fun c _ _ => c.kind.read_preserves fun _ => hp.ahead) marks h

theorem present {cs : List Component}
    (hcs : ∀ c ∈ cs, ∀ {s t : BitStream}, p.related s t →
      p.ReadInStep (c.kind.read s) (c.kind.read t)) (marks : List Bool) (h : p.related s t) :
    p.ReadInStep (Kind.readPresent marks cs s) (Kind.readPresent marks cs t) := by
  induction cs generalizing marks s t with
  | nil => rcases marks with _ | ⟨_, marks⟩ <;> exact .same h
  | cons c cs ih =>
      obtain ⟨hc, hcs⟩ := List.forall_mem_cons.1 hcs
      rcases marks with _ | ⟨_ | _, marks⟩
      · exact .same h
      · -- an absent field is passed over on both streams
        exact (ih hcs marks h).map (c :: ·)
      · rw [Kind.readPresent, Kind.readPresent, if_pos rfl, if_pos rfl]
        refine (hc h).next (fun kind => c.withKind kind :: cs) ?_ ?_ ?_ ?_
        · intro e kind s h
          rw [h]
        · intro e kind t h
          rw [h]
        · intro n kind s t h h' hst
          rw [h, h']
          refine (ih hcs marks hst).next (c.withKind kind :: ·) ?_ ?_ ?_ ?_
          · intro e cs s h
            simp only [h]
          · intro e cs t h
            simp only [h]
          · intro m cs s t h h' hst
            simp only [h, h']
            exact .same hst
          · intro m cs s t h hst
            simp only [h]
            exact hst
        · intro n kind s t h hst
          have hrest := hp.ahead_present marks cs hst
          rw [h]
          simp only
          rcases hr : Kind.readPresent marks cs t with ⟨_ | m, cs', t₁⟩ <;> rw [hr] at hrest <;>
            exact hrest

theorem all {cs : List Component}
    (hcs : ∀ c ∈ cs, ∀ {s t : BitStream}, p.related s t →
      p.ReadInStep (c.kind.read s) (c.kind.read t)) (h : p.related s t) :
    p.ReadInStep (Kind.readAll cs s) (Kind.readAll cs t) := by
  rw [Kind.readAll_eq, Kind.readAll_eq]
  exact hp.present hcs _ h

/-- The elements of an array are read in step. -/
theorem copies {prototype : Component}
    (hproto : ∀ {s t : BitStream}, p.related s t →
      p.ReadInStep (prototype.kind.read s) (prototype.kind.read t)) (count n : Nat)
    (h : p.related s t) :
    p.InStep (ArrayOf.readCopies (Kind.readCopy prototype) count n [] s)
      (ArrayOf.readCopies (Kind.readCopy prototype) count n [] t) := by
  have hcopy : ∀ c ∈ List.replicate count prototype, ∀ {s t : BitStream}, p.related s t →
      p.ReadInStep (c.kind.read s) (c.kind.read t) := by
    intro c hc
    rw [List.eq_of_mem_replicate hc]
    exact hproto
  have hcopies := hp.all hcopy h
  rw [ArrayOf.readCopies_eq, ArrayOf.readCopies_eq]
  generalize Kind.readAll (List.replicate count prototype) s = x at hcopies ⊢
  generalize Kind.readAll (List.replicate count prototype) t = y at hcopies ⊢
  cases hcopies with
  | @same r cs _ _ hst => cases r <;> exact .same hst
  | @stopped e cs _ y hstop hst =>
      rcases y with ⟨_ | _, cs', t₁⟩ <;> exact .stopped hstop hst

theorem count (a : ArrayField) (h : p.related s t) : p.InStep (a.readCount s) (a.readCount t) := by
  rw [ArrayOf.readCount, ArrayOf.readCount, BitSource.readBits_stream, BitSource.readBits_stream]
  refine (hp.bits a.countField.width h).next ?_ ?_ ?_ ?_
  · intro e s h
    rw [h]
  · intro e t h
    rw [h]
  · intro _ s t h h' hst
    rw [h, h']
    exact .same hst
  · intro _ s t h hst
    rw [h]
    exact hst

/-- Reading trees goes in step. -/
theorem kind (k : Kind) (h : p.related s t) : p.ReadInStep (k.read s) (k.read t) := by
  induction k using Kind.induction generalizing s t with
  | scalar v =>
      rw [Kind.read, Kind.read]
      exact (hp.scalar v h).map Kind.scalar
  | array a ih _ =>
      rw [Kind.read_array, Kind.read_array]
      -- whatever fails, the array stays as it was
      refine (hp.count a h).nextRead (.array a) ?_ ?_ ?_ ?_
      · intro e s h
        rw [h]
      · intro e t h
        rw [h]
      · intro count s t h h' hst
        rw [h, h']
        simp only
        by_cases hadm : a.admits count
        · rw [if_pos hadm, if_pos hadm]
          refine (hp.copies ih count a.countField.width hst).nextRead (.array a) ?_ ?_ ?_ ?_
          · intro e s h
            rw [h]
          · intro e t h
            rw [h]
          · intro _ s t h h' hst
            rw [h, h']
            exact .same hst
          · intro _ s t h hst
            rw [h]
            exact hst
        · rw [if_neg hadm, if_neg hadm]
          exact .same hst
      · intro count s t h hst
        have hcopy {t : BitStream} (hst : p.ahead s t) :
            p.ahead s (Kind.readCopy a.prototype t).2.2 :=
          a.prototype.kind.read_preserves (fun _ => hp.ahead) hst
        have hcopies :=
          ArrayOf.readCopies_preserves hcopy count a.countField.width [] hst
        rw [h]
        simp only
        split
        · split <;> rename_i hr <;> rw [hr] at hcopies <;> exact hcopies
        · exact hst
  | group g ihreq ihopt =>
      rw [Kind.read, Kind.read]
      simp only [GroupOf.forget]
      refine (hp.all (fun c hc _ _ => ihreq c hc) h).next
        (fun required => .group { g with required, cachedSize := none }) ?_ ?_ ?_ ?_
      · intro e required s h
        rw [h]
      · intro e required t h
        rw [h]
      · intro n required s t h h' hst
        rw [h, h']
        refine (hp.bitSet g.indicator hst).next
          (fun indicator => .group { g with required, indicator, cachedSize := none }) ?_ ?_ ?_ ?_
        · intro e indicator s h
          simp only [h]
        · intro e indicator t h
          simp only [h]
        · intro m indicator s t h h' hst
          simp only [h, h']
          refine (hp.present (fun c hc _ _ => ihopt c hc) indicator.toList hst).next
            (fun optional => .group { g with required, indicator, optional, cachedSize := none })
            ?_ ?_ ?_ ?_
          · intro e optional s h
            rw [h]
          · intro e optional t h
            rw [h]
          · intro l optional s t h h' hst
            rw [h, h']
            exact .same hst
          · intro l optional s t h hst
            rw [h]
            exact hst
        · intro m indicator s t h hst
          have hrest := hp.ahead_present indicator.toList g.optional hst
          simp only [h]
          rcases hr : Kind.readPresent indicator.toList g.optional t with ⟨_ | l, optional, t₁⟩ <;>
            rw [hr] at hrest <;> exact hrest
      · intro n required s t h hst
        have hmarks := g.indicator.read_preserves (fun _ => hp.ahead) hst
        rw [h]
        simp only
        rcases hr : g.indicator.read t with ⟨_ | m, indicator, t₁⟩ <;> rw [hr] at hmarks
        · exact hmarks
        · have hrest := hp.ahead_present indicator.toList g.optional hmarks
          simp only
          rcases hr : Kind.readPresent indicator.toList g.optional t₁ with ⟨_ | l, optional, t₂⟩ <;>
            rw [hr] at hrest <;> exact hrest

end Reads

end Pace

end WireTree
