/-
**Reading and writing texts, to the bit.**

A text has no length in front of it.  A reader takes whole bytes, from wherever the stream stands,
until one of three things ends it: a zero byte, one byte more than the stream admits, or fewer than
eight bits left.  Which of them it is depends on the whole bytes ahead alone, and on the order in
which the three are looked at: a zero byte is looked for before the limit, so that a text that is as
long as the stream admits is still read, and bits must be there before either.

What has been taken stays taken, also where the read fails.  A writer refuses just the texts that no
reader with the same limit can return, before it has written a bit.

Main definitions:

* `WireTree.Bits.wholeBytes` — the whole bytes of a word.

Main results:

* `WireTree.Bits.ofBytes_wholeBytes` — they make up all of the word but the last few bits;
* `WireTree.BitStream.readTerminated_of_overlong`, `WireTree.BitStream.readTerminated_of_end` — the
  two ways in which the loop over the bytes fails;
* `WireTree.BitStream.readText_writeText_exactly` — **both directions**.
-/

import WireTree.Proofs.BitStream.Queue
import WireTree.Proofs.BitStream.Runs

set_option relaxedAutoImplicit false
set_option autoImplicit false

namespace WireTree

/-! ### Whole bytes -/

namespace Bits

/-- The whole bytes of a word; the bits after the last of them are left out. -/
def wholeBytes (w : List Bool) : List UInt8 :=
  (List.range (w.length / 8)).map fun i => toByte (w.drop (8 * i))

@[simp] theorem length_wholeBytes (w : List Bool) : (wholeBytes w).length = w.length / 8 := by
  simp [wholeBytes]

/-- The whole bytes make up all of the word but the last few bits. -/
theorem ofBytes_wholeBytes (w : List Bool) :
    ofBytes (wholeBytes w) = w.take (8 * (w.length / 8)) := by
  refine List.ext_getElem (by simp; omega) ?_
  intro i h₁ h₂
  have hi : i < 8 * (w.length / 8) := by simpa using h₁
  have hbyte : (wholeBytes w).getD (i / 8) 0 = toByte (w.drop (8 * (i / 8))) := by
    have hlt : i / 8 < w.length / 8 := by omega
    simp [wholeBytes, hlt]
  have hidx : 8 * (i / 8) + (7 - (7 - i % 8)) = i := by omega
  rw [getElem_ofBytes, hbyte, testBit_toByte _ (by omega), List.getD_eq_getElem?_getD,
    List.getElem?_drop, hidx, List.getElem_take, List.getElem?_eq_getElem, Option.getD_some]

end Bits

namespace BitStream

variable {s s' : BitStream} {text : String}

theorem unread_eq_wholeBytes (s : BitStream) : s.unread =
    Bits.ofBytes (Bits.wholeBytes s.unread) ++ s.unread.drop (8 * (s.unread.length / 8)) := by
  rw [Bits.ofBytes_wholeBytes, List.take_append_drop]

theorem length_wholeBytes_unread (hs : s.WellFormed) :
    (Bits.wholeBytes s.unread).length = s.remaining / 8 := by
  rw [Bits.length_wholeBytes, hs.length_unread]

/-! ### The loop over the bytes -/

open BitSource (readTerminated)

/-- Bytes up to one more than there is room for, none of them zero, end the loop. -/
theorem readTerminated_of_overlong (hs : s.WellFormed) {room : Nat} {bytes : List UInt8}
    {rest : List Bool} (h : s.unread = Bits.ofBytes bytes ++ rest)
    (hzero : 0 ∉ bytes.take (room + 1)) (hlong : room < bytes.length) :
    readTerminated room #[] s =
      (.error (.textTooLong (room + 1) room), s.advance (8 * (room + 1))) := by
  have hlen : (bytes.take room).length = room := by
    rw [List.length_take]
    omega
  -- there is room for the first of the bytes, and then there is one more
  rw [← List.take_append_getElem hlong, List.mem_append, List.mem_singleton, not_or] at hzero
  rw [← List.take_append_drop room bytes, ← List.getElem_cons_drop hlong,
    Bits.ofBytes_append, Bits.ofBytes_cons, List.append_assoc, List.append_assoc] at h
  obtain ⟨hs', h'⟩ := hs.advance (Bits.length_ofBytes ..) h
  have htaken := readTerminated_append hs 0 #[] h hzero.1
  rw [hlen, Nat.zero_add] at htaken
  rw [hlen] at hs' h'
  rw [htaken, readTerminated_of_byte hs' _ _ h', if_neg (Ne.symm hzero.2), advance_advance,
    Array.empty_append, List.size_toArray, hlen, Nat.mul_add_one]

/-- Bytes that are not zero, and not too many, are taken to the last one; then bits are missing. -/
theorem readTerminated_of_end (hs : s.WellFormed) {room : Nat} {more : List UInt8}
    {rest : List Bool} (h : s.unread = Bits.ofBytes more ++ rest) (hzero : 0 ∉ more)
    (hroom : more.length ≤ room) (hrest : rest.length < 8) :
    readTerminated room #[] s =
      (.error (.underrun 8 rest.length), s.advance (8 * more.length)) := by
  obtain ⟨left, rfl⟩ : ∃ left, room = left + more.length := ⟨room - more.length, by omega⟩
  obtain ⟨hs', h'⟩ := hs.advance (Bits.length_ofBytes ..) h
  have hleft : (s.advance (8 * more.length)).remaining = rest.length := by
    rw [← hs'.length_unread, h']
  have hshort := readBits_of_remaining_lt (by decide : 8 ≤ maxTransferBits) (hleft ▸ hrest)
  rw [readTerminated_append hs _ _ h hzero, readTerminated, BitSource.readBits_stream, hshort,
    hleft]

/-! ### Zero bytes -/

theorem not_mem_takeWhile (bytes : List UInt8) : 0 ∉ bytes.takeWhile (· != 0) := by
  intro h
  simpa using List.all_eq_true.1 (List.all_takeWhile (p := (· != 0)) (l := bytes)) 0 h

/-- A list with a zero is the bytes before the first one, the zero, and what is behind it. -/
theorem exists_eq_append_zero {bytes : List UInt8} (h : 0 ∈ bytes) :
    ∃ behind, bytes = bytes.takeWhile (· != 0) ++ 0 :: behind := by
  induction bytes with
  | nil => simp at h
  | cons byte bytes ih =>
      by_cases hbyte : byte = 0
      · subst hbyte
        exact ⟨bytes, rfl⟩
      · obtain ⟨behind, hbehind⟩ := ih ((List.mem_cons.1 h).resolve_left (Ne.symm hbyte))
        refine ⟨behind, ?_⟩
        rw [List.takeWhile_cons_of_pos (by simpa using hbyte), List.cons_append, ← hbehind]

/-- A zero among the first `n` bytes has fewer than `n` bytes before it. -/
theorem length_takeWhile_lt {bytes : List UInt8} {n : Nat} (h : 0 ∈ bytes.take n) :
    (bytes.takeWhile (· != 0)).length < n := by
  induction bytes generalizing n with
  | nil => simp at h
  | cons byte bytes ih =>
      obtain ⟨n, rfl⟩ := Nat.exists_eq_add_one_of_ne_zero (by rintro rfl; simp at h : n ≠ 0)
      by_cases hbyte : byte = 0
      · subst hbyte
        exact Nat.succ_pos n
      · rw [List.take_succ_cons, List.mem_cons] at h
        rw [List.takeWhile_cons_of_pos (by simpa using hbyte)]
        exact Nat.succ_lt_succ (ih (h.resolve_left (Ne.symm hbyte)))

/-! ### Reading -/

/-- With a zero byte soon enough, the text is what is before it, if that is text at all. -/
theorem readText_of_zero (hs : s.WellFormed) {found : List UInt8}
    (hfound : (Bits.wholeBytes s.unread).takeWhile (· != 0) = found)
    (hzero : 0 ∈ Bits.wholeBytes s.unread) (hmax : found.length ≤ s.maxTextBytes) :
    (∀ text : String, text.toUTF8.data.toList = found →
      s.readText = (.ok text, s.advance (8 * (found.length + 1)))) ∧
    ((∀ text : String, text.toUTF8.data.toList ≠ found) → s.readText =
      (.error (.invalidText WireError.notUtf8), s.advance (8 * (found.length + 1)))) := by
  have hunread := s.unread_eq_wholeBytes
  generalize Bits.wholeBytes s.unread = whole at hzero hfound hunread
  obtain ⟨behind, hbehind⟩ := exists_eq_append_zero hzero
  have hnone := not_mem_takeWhile whole
  rw [hfound] at hbehind hnone
  rw [hbehind, Bits.ofBytes_append, Bits.ofBytes_cons, List.append_assoc,
    List.append_assoc] at hunread
  have hread := readTerminated_of_unread hs _ #[] hunread hnone hmax
  rw [Array.empty_append] at hread
  refine ⟨?_, ?_⟩
  · intro text htext
    exact readText_eq_ok_iff.2 ⟨_, hread, Array.toList_inj.1 htext⟩
  · intro hnot
    have hinvalid : String.fromUTF8? ⟨found.toArray⟩ = none := by
      rw [Option.eq_none_iff_forall_ne_some]
      intro text htext
      exact hnot text (congrArg Array.toList (fromUTF8?_eq_some_iff.1 htext))
    simp only [readText, BitSource.readText, BitSource.maxTextBytes_stream, hread, hinvalid]

/-- Without one, a byte more than the stream admits ends the read, if there are so many. -/
theorem readText_of_full (hs : s.WellFormed)
    (hzero : 0 ∉ (Bits.wholeBytes s.unread).take (s.maxTextBytes + 1))
    (hlen : s.maxTextBytes < (Bits.wholeBytes s.unread).length) :
    s.readText = (.error (.textTooLong (s.maxTextBytes + 1) s.maxTextBytes),
      s.advance (8 * (s.maxTextBytes + 1))) := by
  rw [readText, BitSource.readText, BitSource.maxTextBytes_stream,
    readTerminated_of_overlong hs s.unread_eq_wholeBytes hzero hlen]

/-- Otherwise the read takes all whole bytes and finds bits missing. -/
theorem readText_of_end (hs : s.WellFormed) (hzero : 0 ∉ Bits.wholeBytes s.unread)
    (hlen : (Bits.wholeBytes s.unread).length ≤ s.maxTextBytes) :
    s.readText = (.error (.underrun 8 (s.remaining % 8)),
      s.advance (8 * (Bits.wholeBytes s.unread).length)) := by
  have hleft : (s.unread.drop (8 * (s.unread.length / 8))).length = s.remaining % 8 := by
    rw [List.length_drop, hs.length_unread]
    omega
  have hread := readTerminated_of_end hs s.unread_eq_wholeBytes hzero hlen (by rw [hleft]; omega)
  rw [readText, BitSource.readText, BitSource.maxTextBytes_stream, hread, hleft]

/-! ### Writing -/

/-- The texts that a reader with a limit can return are those that a writer with the limit takes. -/
theorem exists_readText_iff {max : Nat} :
    (∃ t : BitStream, t.Reachable ∧ t.maxTextBytes = max ∧ ∃ t', t.readText = (.ok text, t')) ↔
      text.utf8ByteSize ≤ max ∧ (0 : UInt8) ∉ text.toUTF8.data := by
  constructor
  · rintro ⟨t, ht, rfl, t', hread⟩
    exact textFault_eq_none_iff.1 (takes_of_readText ht.wellFormed hread).2
  · intro hadmitted
    have hreach : ((Origin.received (text.toUTF8.data.push 0)).stream.withMaxTextBytes
        max).Reachable := .withMaxTextBytes _ (.origin _)
    have hunread : ((Origin.received (text.toUTF8.data.push 0)).stream.withMaxTextBytes
        max).unread = textBits text ++ [] := by
      refine (unread_ofBytes _).trans ?_
      rw [Array.toList_push, Bits.ofBytes_append, List.append_nil]
      rfl
    exact ⟨_, hreach, rfl, _,
      readText_of_unread hreach.wellFormed (textFault_eq_none_iff.2 hadmitted) hunread⟩

/-- A text is written exactly if it is admitted and there is room for it and a zero byte. -/
theorem exists_writeText_iff (hs : s.WellFormed) : (∃ s', s.writeText text = (.ok (), s')) ↔
    s.textFault text = none ∧ s.writePos + 8 * (text.utf8ByteSize + 1) ≤ s.capacityBits := by
  constructor
  · rintro ⟨s', hwrite⟩
    obtain ⟨happ, hfault⟩ := appends_of_writeText hs hwrite
    refine ⟨hfault, ?_⟩
    rw [← length_textBits, ← happ.writePos_eq hs, ← happ.capacityBits_eq]
    exact happ.wellFormed.writePos_le
  · rintro ⟨hfault, hroom⟩
    exact exists_writeText hs hfault hroom

/-- **Texts, to the bit.**  A reader looks at the whole bytes ahead, wherever the stream stands.  If
there is a zero among them and no more bytes before the first one than the stream admits, it takes
them and the zero, and returns them if they are UTF-8.  Otherwise, if there is a byte more than the
stream admits, none of the bytes up to there is zero, and it fails with them taken.  Otherwise it
takes all whole bytes and fails for want of the next.  A writer takes the texts that some reader
with the same limit returns, room permitting, and refuses the others before it has written a bit;
and what it has written is returned. -/
theorem readText_writeText_exactly {s : BitStream} (hs : s.Reachable) :
    let max := s.maxTextBytes
    let whole := Bits.wholeBytes s.unread
    let found := whole.takeWhile (· != 0)
    (whole.length = s.remaining / 8 ∧
      s.unread = Bits.ofBytes whole ++ s.unread.drop (8 * whole.length)) ∧
    (0 ∈ whole ∧ found.length ≤ max →
      (∀ text : String, text.toUTF8.data.toList = found →
        s.readText = (.ok text, s.advance (8 * (found.length + 1)))) ∧
      ((∀ text : String, text.toUTF8.data.toList ≠ found) → s.readText =
        (.error (.invalidText WireError.notUtf8), s.advance (8 * (found.length + 1))))) ∧
    (¬ (0 ∈ whole ∧ found.length ≤ max) →
      (max + 1 ≤ whole.length → 0 ∉ whole.take (max + 1) ∧
        s.readText = (.error (.textTooLong (max + 1) max), s.advance (8 * (max + 1)))) ∧
      (whole.length < max + 1 →
        s.readText = (.error (.underrun 8 (s.remaining % 8)), s.advance (8 * whole.length)))) ∧
    ∀ text : String,
      let returned := ∃ t : BitStream, t.Reachable ∧ t.maxTextBytes = max ∧
        ∃ t', t.readText = (.ok text, t')
      (returned ↔ text.utf8ByteSize ≤ max ∧ (0 : UInt8) ∉ text.toUTF8.data) ∧
      ((∃ s', s.writeText text = (.ok (), s')) ↔
        returned ∧ s.writePos + 8 * (text.utf8ByteSize + 1) ≤ s.capacityBits) ∧
      (¬ returned → ∃ e, s.writeText text = (.error e, s) ∧
        e = if max < text.utf8ByteSize then .textTooLong text.utf8ByteSize max
          else .invalidText WireError.interiorNul) ∧
      ∀ s', s.writeText text = (.ok (), s') → ∃ w, Appends s w s' ∧
        ∀ t : BitStream, t.Reachable → max ≤ t.maxTextBytes → ∀ rest, t.unread = w ++ rest →
          t.readText = (.ok text, t.advance w.length) := by
  intro max whole found
  have hwf := hs.wellFormed
  refine ⟨⟨length_wholeBytes_unread hwf, ?_⟩, ?_, ?_, ?_⟩
  · rw [Bits.length_wholeBytes]
    exact s.unread_eq_wholeBytes
  · rintro ⟨hzero, hmax⟩
    exact readText_of_zero hwf rfl hzero hmax
  · intro hnot
    refine ⟨?_, ?_⟩
    · intro hlen
      have hzero : 0 ∉ whole.take (max + 1) := by
        intro h
        exact hnot ⟨List.mem_of_mem_take h, Nat.le_of_lt_succ (length_takeWhile_lt h)⟩
      exact ⟨hzero, readText_of_full hwf hzero hlen⟩
    · intro hlen
      have hzero : 0 ∉ whole := by
        intro h
        have hle : found.length ≤ whole.length := (List.takeWhile_sublist _).length_le
        exact hnot ⟨h, by omega⟩
      exact readText_of_end hwf hzero (Nat.le_of_lt_succ hlen)
  · intro text returned
    have hreturned : returned ↔ s.textFault text = none :=
      exists_readText_iff.trans textFault_eq_none_iff.symm
    refine ⟨exists_readText_iff, ?_, ?_, ?_⟩
    · rw [hreturned]
      exact exists_writeText_iff hwf
    · intro hnot
      rw [hreturned, ← ne_eq, Option.ne_none_iff_exists'] at hnot
      obtain ⟨e, he⟩ := hnot
      refine ⟨e, writeText_of_fault he, ?_⟩
      rw [textFault] at he
      split at he
      · rename_i hlong
        rw [if_pos hlong]
        exact (Option.some.inj he).symm
      · rename_i hshort
        rw [if_neg hshort]
        split at he <;> cases he
        rfl
    · intro s' hwrite
      obtain ⟨happ, hfault⟩ := appends_of_writeText hwf hwrite
      refine ⟨_, happ, ?_⟩
      intro t ht hmax rest h
      obtain ⟨hsize, hzero⟩ := textFault_eq_none_iff.1 hfault
      rw [length_textBits]
      exact readText_of_unread ht.wellFormed
        (textFault_eq_none_iff.2 ⟨Nat.le_trans hsize hmax, hzero⟩) h

/-- Three bits into a byte there are two letters and a zero.  With room for two bytes they are read,
with room for one the second letter is too many, and without the zero nothing ends them. -/
theorem readText_writeText_exactly_unaligned : ∃ s short : BitStream, s.Reachable ∧
    short.Reachable ∧ s.readPos % 8 = 3 ∧ s.maxTextBytes = 2 ∧
    s.readText = (.ok "hi", s.advance 24) ∧
    (s.withMaxTextBytes 1).readText =
      (.error (.textTooLong 2 1), (s.withMaxTextBytes 1).advance 16) ∧
    short.readText = (.error (.underrun 8 5), short.advance 16) := by
  have hs (data : Array UInt8) (max : Nat) :
      (((Origin.received data).stream.perform (.read 3)).2.withMaxTextBytes max).Reachable :=
    .withMaxTextBytes max (.perform _ (.origin _))
  obtain ⟨-, hread, -, -⟩ := readText_writeText_exactly (hs #[173, 13, 32, 1] 2)
  obtain ⟨-, -, hlong, -⟩ := readText_writeText_exactly (hs #[173, 13, 32, 1] 1)
  obtain ⟨-, -, hend, -⟩ := readText_writeText_exactly (hs #[173, 13, 32] 2)
  exact ⟨_, _, hs #[173, 13, 32, 1] 2, hs #[173, 13, 32] 2, by decide, rfl,
    (hread (by decide)).1 "hi" (by decide), ((hlong (by decide)).1 (by decide)).2,
    (hend (by decide)).2 (by decide)⟩

end BitStream

end WireTree
