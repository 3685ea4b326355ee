/-
**Runs of numbers and texts as words.**

A run of cells is written as the words of the cells one after the other, and reading back gives
the numbers of the cells without the bits outside their widths.  A text is its bytes and a zero
byte; since a text that is written has no zero byte of its own, the reader stops where the writer
did, and no two texts are written alike.

Main definitions:

* `WireTree.Cell.bits`, `WireTree.Cell.allBits` — the word of a cell, and of a run of cells;
* `WireTree.Cell.low` — the number of a cell without the bits outside its width;
* `WireTree.textBits` — a text as it is written.

Main results:

* `WireTree.BitStream.appends_of_writeCells`, `WireTree.BitStream.appends_of_writeText` — what a
  write that goes through has appended;
* `WireTree.BitStream.takes_of_readWords`, `WireTree.BitStream.takes_of_readText` — what a read
  that goes through has taken;
* `WireTree.BitStream.readWords_of_unread`, `WireTree.BitStream.readText_of_unread` — what was
  written is read back.
-/

import Mathlib.Data.List.Forall2
import WireTree.BitStream.Text
import WireTree.Proofs.BitStream.Transfer

set_option relaxedAutoImplicit false
set_option autoImplicit false

namespace WireTree

/-! ### The word of a run of cells -/

namespace Cell

/-- The word of a cell. -/
def bits (c : Cell) : List Bool := Bits.ofNat c.width c.word.toNat

/-- The words of a run of cells, one after the other. -/
def allBits (cells : List Cell) : List Bool := cells.flatMap bits

/-- The number of a cell without the bits outside its width. -/
def low (c : Cell) : UInt32 := UInt32.ofNat (c.word.toNat % 2 ^ c.width)

@[simp] theorem allBits_nil : allBits [] = [] := rfl

@[simp] theorem allBits_cons (c : Cell) (cells : List Cell) :
    allBits (c :: cells) = c.bits ++ allBits cells := rfl

@[simp] theorem length_allBits (cells : List Cell) :
    (allBits cells).length = totalWidth cells := by
  induction cells with
  | nil => rfl
  | cons c cells ih => simp [bits, ih]

/-- A number of the width of its cell has no other bits. -/
theorem low_of_lt {c : Cell} (h : c.word.toNat < 2 ^ c.width) : c.low = c.word := by
  rw [low, Nat.mod_eq_of_lt h, UInt32.ofNat_toNat]

@[simp] theorem low_full (word : UInt32) : low ⟨word, 32⟩ = word := low_of_lt word.toNat_lt

end Cell

namespace BitStream

variable {s s' : BitStream}

/-! ### Runs of cells -/

theorem writeCells_cons_eq_ok_iff {c : Cell} {cells : List Cell} :
    s.writeCells (c :: cells) = (.ok (), s') ↔
      ∃ s₁, s.writeBits c.word c.width = (.ok (), s₁) ∧ s₁.writeCells cells = (.ok (), s') := by
  grind [writeCells]

theorem readWords_cons_eq_ok_iff {width : Nat} {widths : List Nat} {words : List UInt32} :
    s.readWords (width :: widths) = (.ok words, s') ↔
      ∃ word s₁ words', s.readBits width = (.ok word, s₁) ∧
        s₁.readWords widths = (.ok words', s') ∧ words = word :: words' := by
  grind [readWords_cons]

theorem appends_of_writeCells (hs : s.WellFormed) {cells : List Cell}
    (h : s.writeCells cells = (.ok (), s')) : Appends s (Cell.allBits cells) s' := by
  induction cells generalizing s with
  | nil =>
      cases h
      exact .refl hs
  | cons c cells ih =>
      obtain ⟨s₁, h₁, h₂⟩ := writeCells_cons_eq_ok_iff.1 h
      have happ := (appends_of_writeBits hs h₁).1
      exact happ.trans (ih happ.wellFormed h₂)

/-- A run of cells goes through if each is narrow enough and there is room for all. -/
theorem exists_writeCells (hs : s.WellFormed) {cells : List Cell}
    (hw : ∀ c ∈ cells, c.width ≤ maxTransferBits)
    (hroom : s.writePos + Cell.totalWidth cells ≤ s.capacityBits) :
    ∃ s', s.writeCells cells = (.ok (), s') := by
  induction cells generalizing s with
  | nil => exact ⟨s, rfl⟩
  | cons c cells ih =>
      rw [Cell.totalWidth_cons] at hroom
      obtain ⟨hc, hcells⟩ := List.forall_mem_cons.1 hw
      obtain ⟨s₁, h₁, happ⟩ := exists_writeBits hs c.word hc
        (by omega : s.writePos + c.width ≤ s.capacityBits)
      have hpos := happ.writePos_eq hs
      rw [Bits.length_ofNat] at hpos
      obtain ⟨s₂, h₂⟩ := ih happ.wellFormed hcells (by rw [hpos, happ.capacityBits_eq]; omega)
      exact ⟨s₂, writeCells_cons_eq_ok_iff.2 ⟨s₁, h₁, h₂⟩⟩

/-- Reading a run of words takes the words of the numbers it gives. -/
theorem takes_of_readWords (hs : s.WellFormed) {widths : List Nat} {words : List UInt32}
    (h : s.readWords widths = (.ok words, s')) :
    Takes s (Cell.allBits (List.zipWith Cell.mk words widths)) s' := by
  induction widths generalizing s words with
  | nil =>
      cases h
      exact .refl _
  | cons width widths ih =>
      obtain ⟨word, s₁, words', h₁, h₂, rfl⟩ := readWords_cons_eq_ok_iff.1 h
      have htake := takes_of_readBits hs h₁
      exact htake.trans (ih (htake.wellFormed hs) h₂)

/-- Every number read is of its width. -/
theorem forall₂_lt_of_readWords {widths : List Nat} {words : List UInt32}
    (h : s.readWords widths = (.ok words, s')) :
    List.Forall₂ (fun word width => word.toNat < 2 ^ width) words widths := by
  induction widths generalizing s words with
  | nil =>
      cases h
      exact .nil
  | cons width widths ih =>
      obtain ⟨word, s₁, words', h₁, h₂, rfl⟩ := readWords_cons_eq_ok_iff.1 h
      exact .cons (toNat_lt_of_readBits h₁) (ih h₂)

/-- The numbers of a run of cells are read back. -/
theorem readWords_of_unread (hs : s.WellFormed) {cells : List Cell}
    (hw : ∀ c ∈ cells, c.width ≤ maxTransferBits) {rest : List Bool}
    (h : s.unread = Cell.allBits cells ++ rest) :
    s.readWords (cells.map Cell.width) =
      (.ok (cells.map Cell.low), s.advance (Cell.totalWidth cells)) := by
  induction cells generalizing s with
  | nil => rfl
  | cons c cells ih =>
      rw [Cell.allBits_cons, List.append_assoc] at h
      obtain ⟨hc, hcells⟩ := List.forall_mem_cons.1 hw
      have h₁ := readBits_of_unread hs hc h
      obtain ⟨hs', h'⟩ := hs.advance (Bits.length_ofNat ..) h
      have h₂ := ih hs' hcells h'
      rw [advance_advance, ← Cell.totalWidth_cons] at h₂
      exact readWords_cons_eq_ok_iff.2 ⟨_, _, _, h₁, h₂, rfl⟩

end BitStream

/-! ### Texts -/

/-- A text as it is written: the bits of its bytes and of a zero byte. -/
def textBits (text : String) : List Bool :=
  Bits.ofBytes text.toUTF8.data.toList ++ Bits.ofNat 8 0

theorem allBits_textCells (text : String) : Cell.allBits (textCells text) = textBits text := by
  have h (bytes : List UInt8) : Cell.allBits (bytes.map fun byte : UInt8 => ⟨byte.toUInt32, 8⟩) =
      Bits.ofBytes bytes := by
    induction bytes with
    | nil => rfl
    | cons byte bytes ih => simp [ih, Cell.bits]
  rw [textCells, h, Bits.ofBytes_append, textBits]
  rfl

theorem length_textBits (text : String) : (textBits text).length = 8 * (text.utf8ByteSize + 1) := by
  have hsize : text.toUTF8.data.toList.length = text.utf8ByteSize := rfl
  rw [textBits, List.length_append, Bits.length_ofBytes, Bits.length_ofNat, hsize]
  omega

/-- Bytes make up a text exactly when they are its bytes. -/
theorem fromUTF8?_eq_some_iff {bytes : Array UInt8} {text : String} :
    String.fromUTF8? ⟨bytes⟩ = some text ↔ text.toUTF8.data = bytes := by
  rw [String.fromUTF8?]
  split
  · rw [Option.some.injEq, ← String.toByteArray_inj, ByteArray.ext_iff]
    exact eq_comm
  · rename_i hvalid
    constructor
    · intro h
      cases h
    · rintro rfl
      exact absurd text.isValidUTF8 hvalid

namespace BitStream

variable {s s' : BitStream}

theorem appends_of_writeText (hs : s.WellFormed) {text : String}
    (h : s.writeText text = (.ok (), s')) :
    Appends s (textBits text) s' ∧ s.textFault text = none := by
  cases hf : s.textFault text with
  | some e =>
      rw [writeText_of_fault hf] at h
      cases h
  | none =>
      rw [writeText_of_admitted hf] at h
      rw [← allBits_textCells]
      exact ⟨appends_of_writeCells hs h, rfl⟩

theorem exists_writeText (hs : s.WellFormed) {text : String} (hf : s.textFault text = none)
    (hroom : s.writePos + 8 * (text.utf8ByteSize + 1) ≤ s.capacityBits) :
    ∃ s', s.writeText text = (.ok (), s') := by
  have hlen : Cell.totalWidth (textCells text) = 8 * (text.utf8ByteSize + 1) := by
    rw [← Cell.length_allBits, allBits_textCells, length_textBits]
  rw [writeText_of_admitted hf]
  refine exists_writeCells hs ?_ (by rw [hlen]; exact hroom)
  intro c hc
  obtain ⟨byte, -, rfl⟩ := List.mem_map.1 hc
  exact (by decide : 8 ≤ maxTransferBits)

open BitSource (readTerminated)

/-- The loop over the bytes of a text ends with the first zero byte, or goes on behind another byte
if there is room for it. -/
theorem readTerminated_eq_ok_iff {room : Nat} {taken bytes : Array UInt8} :
    readTerminated room taken s = (.ok bytes, s') ↔
      ∃ byte s₁, s.readBits 8 = (.ok byte, s₁) ∧
        (byte = 0 ∧ bytes = taken ∧ s' = s₁ ∨ byte ≠ 0 ∧ ∃ left, room = left + 1 ∧
          readTerminated left (taken.push byte.toUInt8) s₁ = (.ok bytes, s')) := by
  rw [readTerminated, BitSource.readBits_stream]
  rcases s.readBits 8 with ⟨_ | byte, s₁⟩
  · simp
  · by_cases hzero : byte = 0
    · simp only [if_pos hzero]
      grind
    · simp only [if_neg hzero]
      cases room <;> grind

/-- The bytes up to the next zero byte are taken with it; none of them is zero, and there is room
for all of them. -/
theorem takes_of_readTerminated (hs : s.WellFormed) {room : Nat} {taken bytes : Array UInt8}
    (h : readTerminated room taken s = (.ok bytes, s')) :
    ∃ more : List UInt8, bytes = taken ++ more.toArray ∧ 0 ∉ more ∧
      Takes s (Bits.ofBytes more ++ Bits.ofNat 8 0) s' ∧ more.length ≤ room := by
  induction room generalizing s taken with
  | zero =>
      obtain ⟨_, s₁, h₁, ⟨rfl, rfl, rfl⟩ | ⟨-, left, hleft, -⟩⟩ := readTerminated_eq_ok_iff.1 h
      · exact ⟨[], by simp, by simp, takes_of_readBits hs h₁, Nat.le_refl _⟩
      · cases hleft
  | succ room ih =>
      obtain ⟨byte, s₁, h₁, ⟨rfl, rfl, rfl⟩ | ⟨hzero, left, hleft, h⟩⟩ :=
        readTerminated_eq_ok_iff.1 h
      · exact ⟨[], by simp, by simp, takes_of_readBits hs h₁, Nat.zero_le _⟩
      · cases hleft
        have htake := takes_of_readBits hs h₁
        have hbyte : byte.toUInt8.toNat = byte.toNat := by
          rw [UInt32.toNat_toUInt8, Nat.mod_eq_of_lt (toNat_lt_of_readBits h₁)]
        obtain ⟨more, rfl, hmore, htake', hlen⟩ := ih (htake.wellFormed hs) h
        refine ⟨byte.toUInt8 :: more, by simp, ?_, ?_, Nat.succ_le_succ hlen⟩
        · rw [List.mem_cons, not_or]
          refine ⟨?_, hmore⟩
          intro h0
          refine hzero ?_
          rw [← UInt32.toNat_inj, ← hbyte, ← h0]
          rfl
        · rw [Bits.ofBytes_cons, hbyte, List.append_assoc]
          exact htake.trans htake'

/-- The loop over the bytes of a text, one byte on. -/
theorem readTerminated_of_byte (hs : s.WellFormed) (room : Nat) (taken : Array UInt8)
    {byte : UInt8} {rest : List Bool} (h : s.unread = Bits.ofNat 8 byte.toNat ++ rest) :
    readTerminated room taken s =
      if byte = 0 then (.ok taken, s.advance 8)
      else
        match room with
        | 0 => (.error (.textTooLong (taken.size + 1) taken.size), s.advance 8)
        | room + 1 => readTerminated room (taken.push byte) (s.advance 8) := by
  have hread := readBits_of_unread hs (by decide : 8 ≤ maxTransferBits) h
  have hword : UInt32.ofNat (byte.toNat % 2 ^ 8) = byte.toUInt32 := by
    rw [Nat.mod_eq_of_lt byte.toNat_lt, UInt32.ofNat_uInt8ToNat]
  have hzero : byte.toUInt32 = 0 ↔ byte = 0 := by
    rw [← UInt32.toNat_inj, ← UInt8.toNat_inj, UInt8.toNat_toUInt32]
    rfl
  cases room <;> rw [readTerminated, BitSource.readBits_stream, hread, hword] <;>
    simp only [hzero, UInt8.toUInt8_toUInt32]

/-- The loop takes bytes that are not zero as long as there is room for them. -/
theorem readTerminated_append (hs : s.WellFormed) (room : Nat) (taken : Array UInt8)
    {more : List UInt8} {rest : List Bool} (h : s.unread = Bits.ofBytes more ++ rest)
    (hzero : 0 ∉ more) :
    readTerminated (room + more.length) taken s =
      readTerminated room (taken ++ more.toArray) (s.advance (8 * more.length)) := by
  induction more generalizing s taken with
  | nil => simp
  | cons byte more ih =>
      rw [Bits.ofBytes_cons, List.append_assoc] at h
      rw [List.mem_cons, not_or] at hzero
      obtain ⟨hs', h'⟩ := hs.advance (Bits.length_ofNat ..) h
      have hrest := ih hs' (taken.push byte) h' hzero.2
      have hlist : taken.push byte ++ more.toArray = taken ++ (byte :: more).toArray := by
        apply Array.toList_inj.1
        simp
      rw [advance_advance, hlist] at hrest
      rw [List.length_cons, ← Nat.add_assoc, readTerminated_of_byte hs _ _ h,
        if_neg (Ne.symm hzero.1)]
      simp only [hrest, Nat.mul_add, Nat.add_comm 8]

/-- The bytes before the first zero byte are found again. -/
theorem readTerminated_of_unread (hs : s.WellFormed) (room : Nat) (taken : Array UInt8)
    {more : List UInt8} {rest : List Bool}
    (h : s.unread = Bits.ofBytes more ++ (Bits.ofNat 8 0 ++ rest)) (hzero : 0 ∉ more)
    (hroom : more.length ≤ room) :
    readTerminated room taken s =
      (.ok (taken ++ more.toArray), s.advance (8 * (more.length + 1))) := by
  obtain ⟨left, rfl⟩ : ∃ left, room = left + more.length := ⟨room - more.length, by omega⟩
  obtain ⟨hs', h'⟩ := hs.advance (Bits.length_ofBytes ..) h
  have hend := readTerminated_of_byte hs' left (taken ++ more.toArray)
    (show _ = Bits.ofNat 8 (0 : UInt8).toNat ++ rest from h')
  rw [readTerminated_append hs _ _ h hzero, hend, if_pos rfl, advance_advance, Nat.mul_add_one]

theorem readText_eq_ok_iff {text : String} : s.readText = (.ok text, s') ↔
    ∃ bytes, readTerminated s.maxTextBytes #[] s = (.ok bytes, s') ∧
      text.toUTF8.data = bytes := by
  simp only [← fromUTF8?_eq_some_iff]
  grind [readText, BitSource.readText]

theorem takes_of_readText (hs : s.WellFormed) {text : String} (h : s.readText = (.ok text, s')) :
    Takes s (textBits text) s' ∧ s.textFault text = none := by
  obtain ⟨bytes, h₁, rfl⟩ := readText_eq_ok_iff.1 h
  obtain ⟨more, hmore, hzero, htake, hlen⟩ := takes_of_readTerminated hs h₁
  have hlist : text.toUTF8.data.toList = more := by rw [hmore]; simp
  rw [← hlist] at hzero htake hlen
  exact ⟨htake, textFault_eq_none_iff.2 ⟨hlen, by simpa using hzero⟩⟩

/-- A text is read back. -/
theorem readText_of_unread (hs : s.WellFormed) {text : String} (hf : s.textFault text = none)
    {rest : List Bool} (h : s.unread = textBits text ++ rest) :
    s.readText = (.ok text, s.advance (8 * (text.utf8ByteSize + 1))) := by
  obtain ⟨hmax, hzero⟩ := textFault_eq_none_iff.1 hf
  have hsize : text.toUTF8.data.toList.length = text.utf8ByteSize := rfl
  rw [textBits, List.append_assoc] at h
  have h₁ := readTerminated_of_unread hs s.maxTextBytes #[] h (by simpa using hzero)
    (by rw [hsize]; exact hmax)
  rw [hsize] at h₁
  exact readText_eq_ok_iff.2 ⟨_, h₁, by simp⟩

end BitStream

end WireTree
