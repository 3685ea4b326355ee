/-
**A bit stream is a bounded queue of bits.**

The behaviour of a stream is that of a much simpler thing: a list of bits, a position up to which
it has been read, and a capacity.  Numbers are appended to the list and taken off at the position;
there are no bytes, pieces, shifts or masks.  This module defines that queue and proves that a
stream and its queue give the same answers through every run of calls, however writes, reads,
rewinds and clears follow each other, and that the bytes of the stream are the packing of the list
at every moment.

The well-formedness of a stream is the invariant that carries the proof: it holds of every new
stream, every call keeps it, and on a well-formed stream one call does what the queue does.

Main definitions:

* `WireTree.BitQueue` — the list of bits, the read position and the capacity;
* `WireTree.BitCall`, `WireTree.BitCall.run` — the calls, and runs of them on anything that
  answers calls;
* `WireTree.BitStream.Origin` — the ways to make a stream;
* `WireTree.BitStream.TransfersInRange` — no byte index and no shift is out of range;
* `WireTree.BitStream.Reachable` — the streams that come up.

Main results:

* `WireTree.BitStream.perform_queue` — one call on a well-formed stream;
* `WireTree.BitStream.run_eq_queue_run` — **whole runs**;
* `WireTree.BitStream.Reachable.wellFormed` — every stream that comes up is well-formed.
-/

import WireTree.Proofs.BitStream.Transfer

set_option relaxedAutoImplicit false
set_option autoImplicit false

namespace WireTree

/-! ### Calls -/

/-- The calls that change a stream. -/
inductive BitCall where
  /-- Append the low `count` bits of a number. -/
  | write (value : UInt32) (count : Nat)
  /-- Take a number of `count` bits. -/
  | read (count : Nat)
  /-- Move the read position back to the first bit. -/
  | rewind
  /-- Discard all bits. -/
  | clear
deriving DecidableEq

namespace BitCall

variable {σ : Type}

/-- The answers to a list of calls, and what they leave.  A call that fails does not end the
run. -/
def run (perform : σ → BitCall → Outcome σ (Option UInt32)) :
    σ → List BitCall → List (Except WireError (Option UInt32)) × σ
  | s, [] => ([], s)
  | s, c :: calls =>
    match perform s c with
    | (answer, s) =>
      match run perform s calls with
      | (answers, s) => (answer :: answers, s)

end BitCall

/-! ### The queue -/

/-- A list of bits with a read position and a capacity. -/
structure BitQueue where
  /-- The bits written, in order. -/
  bits : List Bool
  /-- The number of bits read. -/
  readPos : Nat
  /-- The most bits that may be written. -/
  capacityBits : Nat
deriving DecidableEq

namespace BitQueue

/-- Appends the low `count` bits of a number, the most significant one first. -/
def writeBits (q : BitQueue) (value : UInt32) (count : Nat) : Outcome BitQueue Unit :=
  if 32 < count then (.error (.transferTooWide count), q)
  else if q.capacityBits < q.bits.length + count then
    (.error (.overflow (q.bits.length + count) q.capacityBits), q)
  else (.ok (), { q with bits := q.bits ++ Bits.ofNat count value.toNat })

/-- Takes the number whose bits are the next `count` ones. -/
def readBits (q : BitQueue) (count : Nat) : Outcome BitQueue UInt32 :=
  if 32 < count then (.error (.transferTooWide count), q)
  else if q.bits.length - q.readPos < count then
    (.error (.underrun count (q.bits.length - q.readPos)), q)
  else
    (.ok (UInt32.ofNat (Bits.toNat ((q.bits.drop q.readPos).take count))),
      { q with readPos := q.readPos + count })

/-- Carries out a call; the answer is the number read, if the call reads one. -/
def perform (q : BitQueue) : BitCall → Outcome BitQueue (Option UInt32)
  | .write value count =>
    match q.writeBits value count with
    | (.ok _, q) => (.ok none, q)
    | (.error e, q) => (.error e, q)
  | .read count =>
    match q.readBits count with
    | (.ok word, q) => (.ok (some word), q)
    | (.error e, q) => (.error e, q)
  | .rewind => (.ok none, { q with readPos := 0 })
  | .clear => (.ok none, { q with bits := [], readPos := 0 })

end BitQueue

namespace BitStream

/-! ### Streams and their queues -/

/-- Carries out a call; the answer is the number read, if the call reads one. -/
def perform (s : BitStream) : BitCall → Outcome BitStream (Option UInt32)
  | .write value count =>
    match s.writeBits value count with
    | (.ok _, s) => (.ok none, s)
    | (.error e, s) => (.error e, s)
  | .read count =>
    match s.readBits count with
    | (.ok word, s) => (.ok (some word), s)
    | (.error e, s) => (.error e, s)
  | .rewind => (.ok none, s.rewind)
  | .clear => (.ok none, s.clear)

/-- The queue that a stream is. -/
def queue (s : BitStream) : BitQueue := ⟨s.bits, s.readPos, s.capacityBits⟩

/-- The ways to make a stream. -/
inductive Origin where
  /-- An empty stream with limits. -/
  | limits (l : Limits)
  /-- Received bytes. -/
  | received (bytes : Array UInt8)

/-- A new stream. -/
def Origin.stream : Origin → BitStream
  | limits l => ofLimits l
  | received bytes => ofBytes bytes

/-- A new queue: nothing in it, or the bits of the received bytes, which always fit. -/
def Origin.queue : Origin → BitQueue
  | limits l => ⟨[], 0, l.capacityBits⟩
  | received bytes => ⟨Bits.ofBytes bytes.toList, 0, max 65536 (8 * bytes.size)⟩

theorem wellFormed_stream (o : Origin) : o.stream.WellFormed := by
  cases o with
  | limits l => exact .ofLimits l
  | received bytes => exact .ofBytes bytes

theorem queue_stream (o : Origin) : o.stream.queue = o.queue := by
  cases o with
  | limits l => rfl
  | received bytes =>
      have htake : (Bits.ofBytes bytes.toList).take (8 * bytes.size) =
          Bits.ofBytes bytes.toList := List.take_of_length_le (by simp)
      simp only [Origin.stream, Origin.queue, queue, bits, ofBytes, htake]
      rfl

/-- All bits of received bytes are there to be read. -/
theorem unread_ofBytes (bytes : Array UInt8) : (ofBytes bytes).unread = Bits.ofBytes bytes.toList :=
  congrArg (fun q => q.bits.drop q.readPos) (queue_stream (.received bytes))

/-! ### One call -/

theorem queue_writeBits {s : BitStream} (hs : s.WellFormed) (value : UInt32) (count : Nat) :
    (s.writeBits value count).1 = (s.queue.writeBits value count).1 ∧
      (s.writeBits value count).2.queue = (s.queue.writeBits value count).2 ∧
      (s.writeBits value count).2.WellFormed := by
  have hlen : s.queue.bits.length = s.writePos := hs.length_bits
  by_cases hc : count ≤ maxTransferBits
  · have hc32 : ¬ 32 < count := Nat.not_lt.2 hc
    by_cases hroom : s.writePos + count ≤ s.capacityBits
    · have happ := appends_deposit hs hc hroom value
      have hroom' : ¬ s.queue.capacityBits < s.writePos + count := Nat.not_lt.2 hroom
      rw [writeBits_of_le hc hroom, BitQueue.writeBits, hlen, if_neg hc32, if_neg hroom']
      refine ⟨rfl, ?_, happ.wellFormed⟩
      rw [queue, happ.bits_eq]
      rfl
    · have hroom' : s.queue.capacityBits < s.writePos + count := Nat.not_le.1 hroom
      rw [writeBits_of_capacity_lt hc (Nat.not_le.1 hroom), BitQueue.writeBits, hlen,
        if_neg hc32, if_pos hroom']
      exact ⟨rfl, rfl, hs⟩
  · have hc32 : 32 < count := Nat.not_le.1 hc
    rw [writeBits_of_lt hc32, BitQueue.writeBits, if_pos hc32]
    exact ⟨rfl, rfl, hs⟩

theorem queue_readBits {s : BitStream} (hs : s.WellFormed) (count : Nat) :
    (s.readBits count).1 = (s.queue.readBits count).1 ∧
      (s.readBits count).2.queue = (s.queue.readBits count).2 ∧
      (s.readBits count).2.WellFormed := by
  have hlen : s.queue.bits.length - s.queue.readPos = s.remaining := by
    rw [remaining, ← hs.length_bits]
    rfl
  by_cases hc : count ≤ maxTransferBits
  · have hc32 : ¬ 32 < count := Nat.not_lt.2 hc
    by_cases hr : count ≤ s.remaining
    · have htake := takes_of_readBits hs (readBits_of_le hc hr)
      have hpeek : s.peek count = UInt32.ofNat (Bits.toNat (s.unread.take count)) := by
        rw [← toNat_peek hs hc hr, UInt32.ofNat_toNat]
      rw [readBits_of_le hc hr, BitQueue.readBits, hlen, if_neg hc32, if_neg (Nat.not_lt.2 hr)]
      exact ⟨congrArg Except.ok hpeek, rfl, htake.wellFormed hs⟩
    · rw [readBits_of_remaining_lt hc (Nat.not_le.1 hr), BitQueue.readBits, hlen, if_neg hc32,
        if_pos (Nat.not_le.1 hr)]
      exact ⟨rfl, rfl, hs⟩
  · have hc32 : 32 < count := Nat.not_le.1 hc
    rw [readBits_of_lt hc32, BitQueue.readBits, if_pos hc32]
    exact ⟨rfl, rfl, hs⟩

/-- **One call.**  On a well-formed stream it answers and does what it answers and does on the
queue, and the stream stays well-formed. -/
theorem perform_queue {s : BitStream} (hs : s.WellFormed) (c : BitCall) :
    (s.perform c).1 = (s.queue.perform c).1 ∧
      (s.perform c).2.queue = (s.queue.perform c).2 ∧ (s.perform c).2.WellFormed := by
  cases c with
  | write value count =>
      obtain ⟨hanswer, hqueue, hwf⟩ := queue_writeBits hs value count
      simp only [perform, BitQueue.perform]
      -- the answers are equal, so both calls fail or both go through
      rcases h : s.writeBits value count with ⟨_ | _, s'⟩ <;>
        rcases h' : s.queue.writeBits value count with ⟨_ | _, q'⟩ <;>
        rw [h, h'] at hanswer hqueue <;> rw [h] at hwf <;>
        simp_all
  | read count =>
      obtain ⟨hanswer, hqueue, hwf⟩ := queue_readBits hs count
      simp only [perform, BitQueue.perform]
      rcases h : s.readBits count with ⟨_ | _, s'⟩ <;>
        rcases h' : s.queue.readBits count with ⟨_ | _, q'⟩ <;>
        rw [h, h'] at hanswer hqueue <;> rw [h] at hwf <;>
        simp_all
  | rewind => exact ⟨rfl, rfl, hs.rewind⟩
  | clear => exact ⟨rfl, rfl, .clear s⟩

/-- A call that fails changes nothing. -/
theorem perform_of_error {s : BitStream} {c : BitCall} {e : WireError}
    (h : (s.perform c).1 = .error e) : (s.perform c).2 = s := by
  cases c with
  | write value count =>
      rcases hw : s.writeBits value count with ⟨_ | _, s'⟩
      · simp only [perform, hw]
        exact eq_of_writeBits_error hw
      · simp [perform, hw] at h
  | read count =>
      rcases hr : s.readBits count with ⟨_ | _, s'⟩
      · simp only [perform, hr]
        exact eq_of_readBits_error hr
      · simp [perform, hr] at h
  | rewind => simp [perform] at h
  | clear => simp [perform] at h

/-! ### Bytes and shifts in range -/

/-- A piece can be moved in bytes of the given number: its byte exists, it lies inside that byte,
and no shift is as wide as the word it shifts. -/
structure PieceInRange (size : Nat) (p : Piece) : Prop where
  /-- The byte exists. -/
  index_lt : p.index < size
  /-- The piece, shifted into its place, does not leave the byte. -/
  shift_add_width_le : p.shift + p.width ≤ 8
  /-- The shift that brings the piece to the low end of the value moved is one of a word. -/
  below_lt : p.below < 32

/-- No byte index and no shift of either loop is out of range, in any transfer that gets as far as
its loop. -/
structure TransfersInRange (s : BitStream) : Prop where
  /-- Reading. -/
  read : ∀ count ≤ maxTransferBits, count ≤ s.remaining →
    ∀ p ∈ pieces s.readPos count, PieceInRange s.data.size p
  /-- Writing, into the bytes that have been made room in. -/
  write : ∀ count ≤ maxTransferBits, s.writePos + count ≤ s.capacityBits →
    ∀ p ∈ pieces s.writePos count,
      PieceInRange (reserve s.data (s.writePos + count)).size p

theorem WellFormed.transfersInRange {s : BitStream} (hs : s.WellFormed) : s.TransfersInRange := by
  have hsize := hs.size_data
  have hread := hs.readPos_le
  constructor
  · intro count hc hr p hp
    obtain ⟨hw, hin, hbelow, -, hindex⟩ := mem_pieces hp
    rw [maxTransferBits] at hc
    rw [remaining] at hr
    exact ⟨by omega, hin, by omega⟩
  · intro count hc _ p hp
    obtain ⟨hw, hin, hbelow, -, hindex⟩ := mem_pieces hp
    rw [maxTransferBits] at hc
    refine ⟨?_, hin, by omega⟩
    rw [Bits.size_reserve]
    omega

/-! ### Runs -/

theorem run_queue {s : BitStream} (hs : s.WellFormed) (calls : List BitCall) :
    (BitCall.run perform s calls).1 = (BitCall.run BitQueue.perform s.queue calls).1 ∧
      (BitCall.run perform s calls).2.queue =
        (BitCall.run BitQueue.perform s.queue calls).2 ∧
      (BitCall.run perform s calls).2.WellFormed := by
  induction calls generalizing s with
  | nil => exact ⟨rfl, rfl, hs⟩
  | cons c calls ih =>
      obtain ⟨hanswer, hqueue, hwf⟩ := perform_queue hs c
      obtain ⟨hanswers, hqueues, hwfs⟩ := ih hwf
      rw [hqueue] at hanswers hqueues
      simp only [BitCall.run]
      exact ⟨by rw [hanswer, hanswers], hqueues, hwfs⟩

/-- **Whole runs.**  From every new stream, every list of calls has the answers that it has on the
queue of bits.  The stream that is left has the bits, the positions and the capacity of the queue
that is left; its bytes are as many as the bits need and are their packing.  There and in every
further transfer no byte index and no shift is out of range, and a further call that fails changes
nothing. -/
theorem run_eq_queue_run (o : Origin) (calls : List BitCall) :
    let (answers, s) := BitCall.run perform o.stream calls
    let (expected, q) := BitCall.run BitQueue.perform o.queue calls
    answers = expected ∧
      (s.bits = q.bits ∧ s.writePos = q.bits.length ∧ s.readPos = q.readPos ∧
        q.readPos ≤ q.bits.length ∧ s.capacityBits = q.capacityBits) ∧
      (s.data.size = (q.bits.length + 7) / 8 ∧ s.data.toList = Bits.toBytes q.bits) ∧
      s.TransfersInRange ∧
      ∀ c e, (s.perform c).1 = .error e → (s.perform c).2 = s := by
  obtain ⟨hanswers, hqueue, hwf⟩ := run_queue (wellFormed_stream o) calls
  rw [queue_stream] at hanswers hqueue
  have hlen := hwf.length_bits
  refine ⟨hanswers, ?_, ?_, hwf.transfersInRange, fun c e => perform_of_error⟩
  · rw [← hqueue]
    exact ⟨rfl, hlen.symm, rfl, by simpa [queue, hlen] using hwf.readPos_le, rfl⟩
  · rw [← hqueue]
    exact ⟨by simpa [queue, hlen] using hwf.size_data, hwf.data_eq⟩

/-! ### The streams that come up -/

/-- The streams that come up: new ones, what calls leave, and the same seen through a buffer that
imposes another limit on texts. -/
inductive Reachable : BitStream → Prop
  | origin (o : Origin) : Reachable o.stream
  | perform {s : BitStream} (c : BitCall) : Reachable s → Reachable (s.perform c).2
  | withMaxTextBytes {s : BitStream} (n : Nat) : Reachable s → Reachable (s.withMaxTextBytes n)

/-- Every stream that comes up is well-formed. -/
theorem Reachable.wellFormed {s : BitStream} (h : s.Reachable) : s.WellFormed := by
  induction h with
  | origin o => exact wellFormed_stream o
  | perform c _ ih => exact (perform_queue ih c).2.2
  | withMaxTextBytes n _ ih => exact ih.withMaxTextBytes n

end BitStream

end WireTree
