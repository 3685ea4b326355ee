/-
**A set of bits is a list of flags, through whole runs.**

The operations on a set of bits are described by what they do to the list of its bits: one flag is
replaced, the list is cut off or filled up, one flag is taken out.  What is read is the list whose
flags, in wire order, are the bits that were taken.  This module defines these operations on plain
lists and proves that a set and its list give the same answers through every run, however the
operations follow each other; in particular flags that were lost when a set became shorter do not
come back when it grows again.

Main definitions:

* `WireTree.FlagCall`, `WireTree.FlagAnswer` — the operations, and what they answer;
* `WireTree.BitSet.perform`, `WireTree.Flags.perform` — the operations on a set and on a list;
* `WireTree.BitSet.Origin` — the ways to make a set;
* `WireTree.BitSet.Shows`, `WireTree.BitSet.Travels` — what can be seen of a set, and what happens
  to it on the wire.

Main results:

* `WireTree.BitSet.WellFormed.perform` — one operation;
* `WireTree.BitSet.run_eq_flags_run` — **whole runs**.
-/

import WireTree.Proofs.BitSet.FlagOrder
import WireTree.Proofs.Calls
import WireTree.Proofs.Component.FieldLists

set_option relaxedAutoImplicit false
set_option autoImplicit false

namespace WireTree

/-! ### Operations -/

/-- The operations that change a set of bits. -/
inductive FlagCall where
  /-- Give the flag at an index a value. -/
  | set (i : Nat) (value : Bool)
  /-- Make all flags false. -/
  | clear
  /-- Change the number of flags. -/
  | resize (len : Nat)
  /-- Take the flag at an index out. -/
  | remove (i : Nat)
  /-- Take all flags from a stream. -/
  | read (s : BitStream) (hs : s.Reachable)

/-- What an operation answers. -/
inductive FlagAnswer where
  /-- It is done. -/
  | done
  /-- The flag that was taken out. -/
  | removed (flag : Bool)
  /-- The number of bits that were read, and the stream they leave. -/
  | taken (count : Nat) (rest : BitStream)
deriving DecidableEq

/-- Carries an operation out on a set. -/
def BitSet.perform (b : BitSet) : FlagCall → Outcome BitSet FlagAnswer
  | .set i value =>
    match b.set i value with
    | .ok b => (.ok .done, b)
    | .error e => (.error e, b)
  | .clear => (.ok .done, b.clear)
  | .resize len => (.ok .done, b.resize len)
  | .remove i =>
    match b.remove i with
    | .ok (flag, b) => (.ok (.removed flag), b)
    | .error e => (.error e, b)
  | .read s _ =>
    match b.read s with
    | (.ok count, b, s) => (.ok (.taken count s), b)
    | (.error e, b, _) => (.error e, b)

/-- Carries an operation out on a list of flags. -/
def Flags.perform (flags : List Bool) : FlagCall → Outcome (List Bool) FlagAnswer
  | .set i value =>
    if i < flags.length then (.ok .done, flags.set i value)
    else (.error (.bitIndex i flags.length), flags)
  | .clear => (.ok .done, List.replicate flags.length false)
  | .resize len => (.ok .done, flags.take len ++ List.replicate (len - flags.length) false)
  | .remove i =>
    match flags[i]? with
    | some flag => (.ok (.removed flag), flags.eraseIdx i)
    | none => (.error (.bitIndex i flags.length), flags)
  | .read s _ =>
    if flags.length ≤ s.remaining then
      (.ok (.taken flags.length (s.advance flags.length)), flagBits (s.unread.take flags.length))
    else
      -- the pieces of 32 that are there as a whole are taken before the failure
      (.error (.underrun (min 32 (flags.length - 32 * (s.remaining / 32))) (s.remaining % 32)),
        flags)

namespace BitSet

variable {b b' : BitSet}

/-! ### One operation -/

/-- Flags that are there are read, and are the ones whose wire order is what was taken. -/
theorem WellFormed.read_of_le (h : b.WellFormed) {s : BitStream} (hs : s.WellFormed)
    (hr : b.len ≤ s.remaining) :
    ∃ b', b.read s = (.ok b.len, b', s.advance b.len) ∧ b'.WellFormed ∧
      b'.toList = flagBits (s.unread.take b.len) := by
  obtain ⟨words, hwords⟩ := exists_readWords_pieceWidths hr
  have hread : b.read s = (.ok b.len, b.withWords words, s.advance b.len) := by
    rw [BitSet.read, BitSource.readWords_stream, h.widths_eq, hwords]
  obtain ⟨-, htakes⟩ := takes_of_read hs h hread
  have hlen : (flagBits (b.withWords words).toList).length = b.len := by simp
  refine ⟨_, hread, ?_, ?_⟩
  · have hwf := h.read s
    rwa [hread] at hwf
  · rw [htakes.unread_eq, ← hlen, List.take_left, flagBits_flagBits]

/-- If flags are missing nothing of the set changes. -/
theorem WellFormed.read_of_lt (h : b.WellFormed) {s : BitStream} (hr : s.remaining < b.len) :
    b.read s =
      (.error (.underrun (min 32 (b.len - 32 * (s.remaining / 32))) (s.remaining % 32)), b,
        s.advance (32 * (s.remaining / 32))) := by
  rw [BitSet.read, BitSource.readWords_stream, h.widths_eq, readWords_pieceWidths_of_lt hr]

/-- **One operation.**  On a well-formed set it answers and does what it answers and does on the
list of its bits, and the set stays well-formed. -/
theorem WellFormed.perform (h : b.WellFormed) (call : FlagCall) :
    (b.perform call).1 = (Flags.perform b.toList call).1 ∧ (b.perform call).2.WellFormed ∧
      (b.perform call).2.toList = (Flags.perform b.toList call).2 := by
  cases call with
  | set i value =>
      rw [BitSet.perform, Flags.perform, length_toList]
      by_cases hi : i < b.len
      · obtain ⟨b', hset⟩ : ∃ b', b.set i value = .ok b' := ⟨_, if_pos hi⟩
        rw [hset, if_pos hi]
        exact ⟨rfl, h.set hset, h.toList_of_set hset⟩
      · rw [set_eq_error_iff.2 ⟨Nat.not_lt.1 hi, rfl⟩, if_neg hi]
        exact ⟨rfl, h, rfl⟩
  | clear =>
      refine ⟨rfl, h.clear, ?_⟩
      rw [Flags.perform, length_toList]
      exact b.toList_clear
  | resize len =>
      refine ⟨rfl, .resize b len, ?_⟩
      rw [Flags.perform, length_toList]
      exact h.toList_resize len
  | remove i =>
      rw [BitSet.perform, Flags.perform]
      by_cases hi : i < b.len
      · obtain ⟨b', hremove⟩ : ∃ b', b.remove i = .ok (b.get i, b') := ⟨_, if_pos hi⟩
        have hflag : b.toList[i]? = some (b.get i) := by simp [toList, hi]
        rw [hremove, hflag]
        exact ⟨rfl, .remove hremove, (h.toList_of_remove hremove).2⟩
      · have hnone : b.toList[i]? = none := List.getElem?_eq_none (by simpa using hi)
        rw [remove_eq_error_iff.2 ⟨Nat.not_lt.1 hi, rfl⟩, hnone, length_toList]
        exact ⟨rfl, h, rfl⟩
  | read s hs =>
      rw [BitSet.perform, Flags.perform, length_toList]
      by_cases hr : b.len ≤ s.remaining
      · obtain ⟨b', hread, hwf, hbits⟩ := h.read_of_le hs.wellFormed hr
        rw [hread, if_pos hr]
        exact ⟨rfl, hwf, hbits⟩
      · rw [h.read_of_lt (Nat.not_le.1 hr), if_neg hr]
        exact ⟨rfl, h, rfl⟩

/-- An operation that fails changes nothing. -/
theorem perform_of_error {call : FlagCall} {e : WireError} (h : (b.perform call).1 = .error e) :
    (b.perform call).2 = b := by
  cases call with
  | set i value =>
      rw [BitSet.perform] at h ⊢
      cases hset : b.set i value with
      | error e' => rfl
      | ok b' => simp [hset] at h
  | clear => cases h
  | resize len => cases h
  | remove i =>
      rw [BitSet.perform] at h ⊢
      cases hremove : b.remove i with
      | error e' => rfl
      | ok removed => simp [hremove] at h
  | read s hs =>
      rw [BitSet.perform] at h ⊢
      rcases hread : b.read s with ⟨_ | count, b', s'⟩ <;> rw [hread] at h
      · exact eq_of_read_error hread
      · cases h

/-! ### What can be seen of a set -/

/-- The set has the given flags, in as few words as they need, and nothing else in these words. -/
structure Shows (b : BitSet) (flags : List Bool) : Prop where
  /-- The number of words. -/
  size_words : b.words.size = (flags.length + 31) / 32
  /-- What belongs to no flag is zero. -/
  tail_eq : ∀ i, flags.length ≤ i → (b.words.getD (i / 32) 0).toNat.testBit (i % 32) = false
  /-- The number of flags. -/
  len_eq : b.len = flags.length
  /-- Single flags; past the end they are false. -/
  get_eq : ∀ i, b.get i = flags.getD i false
  /-- All flags, in order. -/
  toList_eq : b.toList = flags
  /-- The number of flags that are true. -/
  count_eq : b.count = flags.count true

theorem WellFormed.shows (h : b.WellFormed) : b.Shows b.toList where
  size_words := by
    rw [length_toList]
    exact h.size_words
  tail_eq i hi := h.tail i (by rwa [length_toList] at hi)
  len_eq := b.length_toList.symm
  get_eq i := by
    by_cases hi : i < b.len
    · simp [toList, hi]
    · simp [toList, hi, get_of_le (Nat.not_lt.1 hi)]
  toList_eq := rfl
  count_eq := h.count_eq

/-! ### On the wire -/

/-- The set is written as the given flags, piece by piece and in each piece the last flag first, and
read back into every set of its length. -/
structure Travels (b : BitSet) (flags : List Bool) : Prop where
  /-- It is written exactly if there is room for all flags. -/
  goes_iff : ∀ s : BitStream, s.Reachable →
    ((∃ n s', b.write s = (.ok n, s')) ↔ s.writePos + flags.length ≤ s.capacityBits)
  /-- The number of bits written is the number of flags. -/
  moves : ∀ (s s' : BitStream) (n : Nat), s.Reachable → b.write s = (.ok n, s') →
    n = flags.length ∧ ∃ w, s'.bits = s.bits ++ w ∧ w.length = flags.length ∧
      ∀ i < flags.length, w[flagPlace flags.length i]? = flags[i]?
  /-- In a piece later flags come before earlier ones. -/
  order : ∀ i j, i < j → j < flags.length → i / 32 = j / 32 →
    flagPlace flags.length j < flagPlace flags.length i
  /-- What was written is read back. -/
  returns : ∀ (s s' t : BitStream) (d : BitSet) (n : Nat) (w rest : List Bool), s.Reachable →
    b.write s = (.ok n, s') → s'.bits = s.bits ++ w → d.Reachable → d.len = b.len →
    t.Reachable → t.unread = w ++ rest → d.read t = (.ok flags.length, b, t.advance flags.length)

theorem WellFormed.travels (h : b.WellFormed) : b.Travels b.toList where
  goes_iff s hs := by
    rw [length_toList]
    constructor
    · rintro ⟨n, s', hw⟩
      obtain ⟨-, happ⟩ := appends_of_write hs.wellFormed h hw
      have hpos := happ.writePos_eq hs.wellFormed
      have hcap := happ.wellFormed.writePos_le
      rw [length_flagBits, length_toList] at hpos
      rwa [hpos, happ.capacityBits_eq] at hcap
    · intro hroom
      obtain ⟨s', hw⟩ := exists_write hs.wellFormed h hroom
      exact ⟨_, s', hw⟩
  moves s s' n hs hw := by
    obtain ⟨hn, happ⟩ := appends_of_write hs.wellFormed h hw
    refine ⟨by rw [hn, length_toList], _, happ.bits_eq, length_flagBits _, ?_⟩
    intro i hi
    exact getElem_flagBits hi
  order i j := flagPlace_lt_of_lt
  returns s s' t d n w rest hs hw hbits hd hlen ht hunread := by
    obtain ⟨-, happ⟩ := appends_of_write hs.wellFormed h hw
    have hw' : w = flagBits b.toList := List.append_cancel_left (hbits.symm.trans happ.bits_eq)
    rw [hw'] at hunread
    rw [length_toList]
    exact read_of_unread ht.wellFormed hd.wellFormed h hlen hunread

/-! ### Whole runs -/

/-- The ways to make a set of bits. -/
inductive Origin where
  /-- A number of clear bits. -/
  | clear (len : Nat)
  /-- The given flags. -/
  | ofFlags (flags : List Bool)

/-- A new set. -/
def Origin.bitSet : Origin → BitSet
  | clear len => .replicate len
  | ofFlags flags => .ofList flags

/-- A new list of flags. -/
def Origin.list : Origin → List Bool
  | clear len => List.replicate len false
  | ofFlags flags => flags

theorem wellFormed_bitSet (o : Origin) : o.bitSet.WellFormed := by
  cases o with
  | clear len => exact .replicate len
  | ofFlags flags => exact .ofList flags

theorem toList_bitSet (o : Origin) : o.bitSet.toList = o.list := by
  cases o with
  | clear len =>
      refine toList_eq_iff.2 ⟨by simp [Origin.bitSet, Origin.list], ?_⟩
      intro i hi
      simp [Origin.bitSet, Origin.list, get_replicate]
  | ofFlags flags => exact toList_ofList flags

/-- **Whole runs.**  From every new set, every list of operations has the answers that it has on the
list of flags, those that fail included.  The set that is left shows the flags that are left, no
word too many and no stray bit among them; an operation that fails changes nothing; and on the wire
the set is its flags, which any set of the same length reads back. -/
theorem run_eq_flags_run (o : Origin) (calls : List FlagCall) :
    let (answers, b) := runCalls perform o.bitSet calls
    let (expected, flags) := runCalls Flags.perform o.list calls
    answers = expected ∧ b.Shows flags ∧
      (∀ call e, (b.perform call).1 = .error e → (b.perform call).2 = b) ∧ b.Travels flags := by
  have hstep (b : BitSet) (flags : List Bool) (call : FlagCall)
      (h : b.WellFormed ∧ b.toList = flags) :
      (b.perform call).1 = (Flags.perform flags call).1 ∧ (b.perform call).2.WellFormed ∧
        (b.perform call).2.toList = (Flags.perform flags call).2 := by
    obtain ⟨hwf, rfl⟩ := h
    exact hwf.perform call
  obtain ⟨hanswers, hwf, hbits⟩ :=
    runCalls_simulates hstep ⟨wellFormed_bitSet o, toList_bitSet o⟩ calls
  simp only
  rw [← hbits]
  exact ⟨hanswers, hwf.shows, fun call e => perform_of_error, hwf.travels⟩

/-- The last two flags are lost and do not come back; the index of one of them is out of range in
between. -/
example : (runCalls perform (ofList [true, false, true, true])
      [.resize 2, .set 3 true, .resize 4]).2.toList = [true, false, false, false] ∧
    ((ofList [true, false, true, true]).resize 2).set 3 true = .error (.bitIndex 3 2) := by
  decide +kernel

end BitSet

end WireTree
