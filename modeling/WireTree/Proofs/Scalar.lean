/-
**Leaves on the wire.**

The reference encoding says, for every sort of leaf, which bits it is written as; it speaks of the
values alone and knows nothing of words and cells.  The cells of a leaf spell it out, and so a
leaf that is written has appended its encoding.

A leaf read has the encoding that was taken, whatever the bits were; and if they were the encoding
of a leaf of the same layout, then it has the value of that leaf.

Main definitions:

* `WireTree.LawfulWireInt` — integers whose words are their two's complement;
* `WireTree.Scalar.encode` — the reference encoding of a leaf;
* `WireTree.Scalar.WellFormed` — what is remembered in a leaf is right;
* `WireTree.Scalar.Sendable` — a leaf that a stream takes, room permitting;
* `WireTree.Scalar.forget` — the leaf without a width remembered.

Main results:

* `WireTree.Scalar.appends_of_write`, `WireTree.Scalar.exists_write` — what is written, and when;
* `WireTree.Scalar.takes_of_read` — what is read;
* `WireTree.Scalar.read_of_unread` — what was written is read back.
-/

import WireTree.Component.Codec
import WireTree.Proofs.BitSet
import WireTree.Proofs.BoundedInt
import WireTree.Proofs.Component.Layout
import WireTree.Proofs.Digest

set_option relaxedAutoImplicit false
set_option autoImplicit false

namespace WireTree

/-! ### Integers -/

/-- The low `width` bits of an integer in two's complement, most significant first. -/
def Bits.ofInt (width : Nat) (n : Int) : List Bool := Bits.ofNat width (n % 2 ^ width).toNat

@[simp] theorem Bits.length_ofInt (width : Nat) (n : Int) : (ofInt width n).length = width :=
  length_ofNat ..

/-- Integers whose words are their two's complement. -/
class LawfulWireInt (α : Type) [WireInt α] where
  /-- The integer. -/
  value : α → Int
  /-- A transfer moves all bits at once. -/
  width_le : WireInt.width α ≤ maxTransferBits
  /-- The low bits decide. -/
  value_inj {m n : α} : value m % 2 ^ WireInt.width α = value n % 2 ^ WireInt.width α → m = n
  /-- The low bits of the word are those of the integer. -/
  toWord_emod (n : α) :
    ((WireInt.toWord n).toNat : Int) % 2 ^ WireInt.width α = value n % 2 ^ WireInt.width α
  /-- The low bits of the integer are those of the word. -/
  ofWord_emod {word : UInt32} (h : word.toNat < 2 ^ WireInt.width α) :
    value (WireInt.ofWord word) % 2 ^ WireInt.width α = word.toNat % 2 ^ WireInt.width α

namespace LawfulWireInt

instance : LawfulWireInt Bool where
  value b := b.toNat
  width_le := by decide
  value_inj {m n} h := by
    cases m <;> cases n <;> first | rfl | exact absurd h (by decide)
  toWord_emod b := by cases b <;> rfl
  ofWord_emod {word} h := by
    have hword : word = 0 ∨ word = 1 := by
      have h2 : word.toNat < 2 := h
      rcases (by omega : word.toNat = 0 ∨ word.toNat = 1) with h0 | h1
      · exact .inl (UInt32.toNat_inj.1 h0)
      · exact .inr (UInt32.toNat_inj.1 h1)
    rcases hword with rfl | rfl <;> rfl

instance : LawfulWireInt UInt8 where
  value n := n.toNat
  width_le := by decide
  value_inj {m n} h := by
    change (m.toNat : Int) % 2 ^ 8 = n.toNat % 2 ^ 8 at h
    have hm := m.toNat_lt
    have hn := n.toNat_lt
    exact UInt8.toNat_inj.1 (by omega)
  toWord_emod n := by
    change (n.toUInt32.toNat : Int) % 2 ^ 8 = n.toNat % 2 ^ 8
    rw [UInt8.toNat_toUInt32]
  ofWord_emod {word} _ := by
    change (word.toUInt8.toNat : Int) % 2 ^ 8 = word.toNat % 2 ^ 8
    rw [UInt32.toNat_toUInt8]
    omega

instance : LawfulWireInt Int8 where
  value n := n.toInt
  width_le := by decide
  value_inj {m n} h := by
    change m.toInt % 2 ^ 8 = n.toInt % 2 ^ 8 at h
    rw [← toNat_toUInt8_eq, ← toNat_toUInt8_eq] at h
    have hword : m.toUInt8 = n.toUInt8 := UInt8.toNat_inj.1 (by exact_mod_cast h)
    rw [← m.toInt8_toUInt8, hword, n.toInt8_toUInt8]
  toWord_emod n := by
    change (n.toInt32.toUInt32.toNat : Int) % 2 ^ 8 = n.toInt % 2 ^ 8
    rw [toNat_toUInt32_eq, Int8.toInt_toInt32]
    omega
  ofWord_emod {word} _ := by
    change word.toUInt8.toInt8.toInt % 2 ^ 8 = word.toNat % 2 ^ 8
    rw [← toNat_toUInt8_eq, UInt8.toUInt8_toInt8, UInt32.toNat_toUInt8]
    omega

instance : LawfulWireInt UInt16 where
  value n := n.toNat
  width_le := by decide
  value_inj {m n} h := by
    change (m.toNat : Int) % 2 ^ 16 = n.toNat % 2 ^ 16 at h
    have hm := m.toNat_lt
    have hn := n.toNat_lt
    exact UInt16.toNat_inj.1 (by omega)
  toWord_emod n := by
    change (n.toUInt32.toNat : Int) % 2 ^ 16 = n.toNat % 2 ^ 16
    rw [UInt16.toNat_toUInt32]
  ofWord_emod {word} _ := by
    change (word.toUInt16.toNat : Int) % 2 ^ 16 = word.toNat % 2 ^ 16
    rw [UInt32.toNat_toUInt16]
    omega

instance : LawfulWireInt Int16 where
  value n := n.toInt
  width_le := by decide
  value_inj {m n} h := by
    change m.toInt % 2 ^ 16 = n.toInt % 2 ^ 16 at h
    rw [← toNat_toUInt16_eq, ← toNat_toUInt16_eq] at h
    have hword : m.toUInt16 = n.toUInt16 := UInt16.toNat_inj.1 (by exact_mod_cast h)
    rw [← m.toInt16_toUInt16, hword, n.toInt16_toUInt16]
  toWord_emod n := by
    change (n.toInt32.toUInt32.toNat : Int) % 2 ^ 16 = n.toInt % 2 ^ 16
    rw [toNat_toUInt32_eq, Int16.toInt_toInt32]
    omega
  ofWord_emod {word} _ := by
    change word.toUInt16.toInt16.toInt % 2 ^ 16 = word.toNat % 2 ^ 16
    rw [← toNat_toUInt16_eq, UInt16.toUInt16_toInt16, UInt32.toNat_toUInt16]
    omega

instance : LawfulWireInt UInt32 where
  value n := n.toNat
  width_le := by decide
  value_inj {m n} h := by
    change (m.toNat : Int) % 2 ^ 32 = n.toNat % 2 ^ 32 at h
    have hm := m.toNat_lt
    have hn := n.toNat_lt
    exact UInt32.toNat_inj.1 (by omega)
  toWord_emod n := rfl
  ofWord_emod {word} _ := rfl

instance : LawfulWireInt Int32 where
  value n := n.toInt
  width_le := by decide
  value_inj {m n} h := by
    change m.toInt % 2 ^ 32 = n.toInt % 2 ^ 32 at h
    rw [← toNat_toUInt32_eq, ← toNat_toUInt32_eq] at h
    have hword : m.toUInt32 = n.toUInt32 := UInt32.toNat_inj.1 (by exact_mod_cast h)
    rw [← m.toInt32_toUInt32, hword, n.toInt32_toUInt32]
  toWord_emod n := by
    change (n.toUInt32.toNat : Int) % 2 ^ 32 = n.toInt % 2 ^ 32
    rw [toNat_toUInt32_eq]
    omega
  ofWord_emod {word} _ := by
    change word.toInt32.toInt % 2 ^ 32 = word.toNat % 2 ^ 32
    have hlt := word.toNat_lt
    rw [← toNat_toUInt32_eq, UInt32.toUInt32_toInt32]
    omega

variable {α : Type} [WireInt α] [LawfulWireInt α]

/-- An integer is written as its low bits. -/
theorem bits_cell (n : α) : (WireInt.cell n).bits = Bits.ofInt (WireInt.width α) (value n) := by
  have hmod : (WireInt.toWord n).toNat % 2 ^ WireInt.width α =
      (value n % 2 ^ WireInt.width α).toNat := by
    rw [← toWord_emod n]
    exact_mod_cast rfl
  rw [Bits.ofInt, ← hmod, Bits.ofNat_mod _ _ (Nat.le_refl _)]
  rfl

/-- An integer that is read is written as the word read. -/
theorem bits_cell_ofWord {word : UInt32} (h : word.toNat < 2 ^ WireInt.width α) :
    (WireInt.cell (WireInt.ofWord word : α)).bits = Bits.ofNat (WireInt.width α) word.toNat := by
  rw [bits_cell, Bits.ofInt, ofWord_emod h]
  have hmod : ((word.toNat : Int) % 2 ^ WireInt.width α).toNat =
      word.toNat % 2 ^ WireInt.width α := by
    exact_mod_cast rfl
  rw [hmod, Bits.ofNat_mod _ _ (Nat.le_refl _)]

/-- An integer is read back from its low bits. -/
theorem ofWord_low (n : α) : WireInt.ofWord (WireInt.cell n).low = n := by
  have hpow : (2 : Nat) ^ WireInt.width α ≤ 2 ^ 32 := Nat.pow_le_pow_right (by omega) width_le
  have hlt := Nat.mod_lt (WireInt.toWord n).toNat (Nat.two_pow_pos (WireInt.width α))
  have hlow : (WireInt.cell n).low.toNat = (WireInt.toWord n).toNat % 2 ^ WireInt.width α := by
    rw [Cell.low, UInt32.toNat_ofNat']
    exact Nat.mod_eq_of_lt (Nat.lt_of_lt_of_le hlt hpow)
  -- both have the low bits of the word, and those decide
  refine value_inj ?_
  rw [ofWord_emod (by rw [hlow]; exact hlt), hlow, ← toWord_emod n]
  push_cast
  exact Int.emod_emod_of_dvd _ (Int.dvd_refl _)

end LawfulWireInt

namespace Scalar

open BitStream (Appends Takes)

/-! ### The reference encoding -/

/-- The bits that a leaf is written as. -/
def encode : Scalar → List Bool
  | bool b => [b]
  | u8 n => Bits.ofInt 8 n.toNat
  | s8 n => Bits.ofInt 8 n.toInt
  | u16 n => Bits.ofInt 16 n.toNat
  | s16 n => Bits.ofInt 16 n.toInt
  | u32 n => Bits.ofInt 32 n.toNat
  | s32 n => Bits.ofInt 32 n.toInt
  | bounded r =>
    Bits.ofNat (bitsForSpan r.lower r.upper) ((r.value.toInt - r.lower.toInt) % 2 ^ 32).toNat
  | float x => Bits.ofNat 32 x.bits.toNat
  | text t => textBits t
  | vec2 v => Bits.ofInt 32 v.x.raw.toInt ++ Bits.ofInt 32 v.y.raw.toInt
  | vec3 v =>
    Bits.ofInt 32 v.x.raw.toInt ++ Bits.ofInt 32 v.y.raw.toInt ++ Bits.ofInt 32 v.z.raw.toInt
  | bits b => flagBits b.toList
  | digest d => Bits.ofBytes d.bytes.toList

/-- The encoding of a leaf is as long as its size says. -/
@[simp] theorem length_encode (v : Scalar) : v.encode.length = v.size := by
  cases v with
  | text t => exact length_textBits t
  | _ => simp [encode, size]

/-- What is remembered in a leaf is right. -/
def WellFormed : Scalar → Prop
  | bounded r => r.WellFormed
  | bits b => b.WellFormed
  | digest d => d.WellFormed
  | _ => True

/-- A leaf that a stream with this limit on texts takes, room permitting: a text must not be too
long and must have no zero byte. -/
def Sendable (limit : Nat) : Scalar → Prop
  | text t => t.utf8ByteSize ≤ limit ∧ (0 : UInt8) ∉ t.toUTF8.data
  | _ => True

/-- The leaf without a width remembered. -/
def forget : Scalar → Scalar
  | bounded r => bounded r.forget
  | v => v

variable {s s' : BitStream} {v : Scalar} {n : Nat}

theorem WellFormed.measure_fst (h : v.WellFormed) : v.measure.1 = v.size := by
  cases v with
  | bounded r => exact BoundedInt.WellFormed.width_eq h
  | _ => rfl

theorem WellFormed.measure (h : v.WellFormed) : v.measure.2.WellFormed := by
  cases v with
  | bounded r => exact BoundedInt.WellFormed.remember h
  | _ => exact h

theorem WellFormed.clear (h : v.WellFormed) : v.clear.WellFormed := by
  cases v with
  | bounded r => exact BoundedInt.WellFormed.of_eq h rfl rfl rfl
  | bits b => exact BitSet.WellFormed.clear h
  | digest d => exact Digest.WellFormed.setBytes h _
  | _ => trivial

/-- The cells of a leaf spell out its encoding. -/
theorem WellFormed.allBits_cells (h : v.WellFormed) : Cell.allBits v.cells = v.encode := by
  have hint {α : Type} [WireInt α] [LawfulWireInt α] (n : α) : Cell.allBits [WireInt.cell n] =
      Bits.ofInt (WireInt.width α) (LawfulWireInt.value n) := by
    rw [Cell.allBits_cons, LawfulWireInt.bits_cell, Cell.allBits_nil, List.append_nil]
  cases v with
  | bool b =>
      rw [cells, hint]
      cases b <;> rfl
  | u8 n | s8 n | u16 n | s16 n | u32 n | s32 n => exact hint n
  | bounded r =>
      rw [encode, ← r.toNat_offset, Int.toNat_natCast, ← BoundedInt.WellFormed.width_eq h]
      simp [cells, Cell.bits]
  | float x => simp [cells, encode, Cell.bits]
  | text t => exact allBits_textCells t
  | vec2 v =>
      simp only [cells, encode, coordinate, Cell.allBits_cons, LawfulWireInt.bits_cell,
        Cell.allBits_nil, List.append_nil]
      rfl
  | vec3 v =>
      simp only [cells, encode, coordinate, Cell.allBits_cons, LawfulWireInt.bits_cell,
        Cell.allBits_nil, List.append_nil, List.append_assoc]
      rfl
  | bits b => exact BitSet.WellFormed.allBits_cells h
  | digest d => exact d.allBits_cells

/-- No leaf asks for a wider transfer than there is. -/
theorem WellFormed.width_le (h : v.WellFormed) :
    ∀ c ∈ v.cells, c.width ≤ maxTransferBits := by
  have h8 : 8 ≤ maxTransferBits := by decide
  have h32 : 32 ≤ maxTransferBits := by decide
  have hint {α : Type} [WireInt α] [LawfulWireInt α] (n : α) :
      ∀ c ∈ [WireInt.cell n], c.width ≤ maxTransferBits := by
    intro c hc
    rw [List.mem_singleton.1 hc]
    exact LawfulWireInt.width_le
  intro c hc
  cases v with
  | bool n | u8 n | s8 n | u16 n | s16 n | u32 n | s32 n => exact hint n c hc
  | bounded r =>
      rw [List.mem_singleton.1 hc, BoundedInt.WellFormed.width_eq h]
      exact bitsForSpan_le _ _
  | float x => rwa [List.mem_singleton.1 hc]
  | text t =>
      obtain ⟨byte, -, rfl⟩ := List.mem_map.1 hc
      exact h8
  | vec2 v =>
      simp only [cells, List.mem_cons, List.not_mem_nil, or_false] at hc
      rcases hc with rfl | rfl <;> exact h32
  | vec3 v =>
      simp only [cells, List.mem_cons, List.not_mem_nil, or_false] at hc
      rcases hc with rfl | rfl | rfl <;> exact h32
  | bits b => exact BitSet.width_le_of_mem_cells hc
  | digest d =>
      obtain ⟨byte, -, rfl⟩ := List.mem_map.1 hc
      exact h8

/-- The cells of a leaf are as wide as its size says. -/
theorem WellFormed.totalWidth_cells (h : v.WellFormed) : Cell.totalWidth v.cells = v.size := by
  rw [← Cell.length_allBits, h.allBits_cells, length_encode]

/-! ### Texts and other leaves -/

theorem eq_text_of_variant (h : v.variant = .text) : ∃ t, v = text t := by
  cases v with
  | text t => exact ⟨t, rfl⟩
  | _ => cases h

/-- A leaf that is no text is written cell by cell. -/
theorem write_of_ne_text (htext : v.variant ≠ .text) : v.write s =
    match s.writeCells v.cells with
    | (.ok _, s) => (.ok v.measure.1, s)
    | (.error e, s) => (.error e, s) := by
  cases v with
  | text t => exact absurd rfl htext
  | _ => rfl

theorem write_eq_ok_iff (htext : v.variant ≠ .text) :
    v.write s = (.ok n, s') ↔ s.writeCells v.cells = (.ok (), s') ∧ n = v.measure.1 := by
  rw [write_of_ne_text htext]
  rcases s.writeCells v.cells with ⟨_ | _, s₁⟩
  · simp
  · simp [and_comm, eq_comm]

/-- A leaf that is no text is read word by word, from any source. -/
theorem read_words {β : Type} [BitSource β] (htext : v.variant ≠ .text) (s : β) : v.read s =
    match BitSource.readWords s v.widths with
    | (.ok words, s) => (.ok v.measure.1, v.fill words, s)
    | (.error e, s) => (.error e, v, s) := by
  cases v with
  | text t => exact absurd rfl htext
  | _ => rfl

/-- A leaf that is no text is read word by word. -/
theorem read_of_ne_text (htext : v.variant ≠ .text) : v.read s =
    match s.readWords v.widths with
    | (.ok words, s) => (.ok v.measure.1, v.fill words, s)
    | (.error e, s) => (.error e, v, s) := by
  rw [read_words htext, BitSource.readWords_stream]
  rcases s.readWords v.widths with ⟨_ | words, s₁⟩ <;> rfl

/-! ### Writing -/

/-- A leaf that is written has appended its encoding. -/
theorem appends_of_write (hs : s.WellFormed) (hv : v.WellFormed) (h : v.write s = (.ok n, s')) :
    n = v.size ∧ Appends s v.encode s' ∧ v.Sendable s.maxTextBytes := by
  by_cases htext : v.variant = .text
  · obtain ⟨t, rfl⟩ := eq_text_of_variant htext
    rw [write] at h
    rcases hw : s.writeText t with ⟨_ | _, s₁⟩ <;> simp only [hw] at h <;> cases h
    obtain ⟨happ, hf⟩ := BitStream.appends_of_writeText hs hw
    exact ⟨rfl, happ, BitStream.textFault_eq_none_iff.1 hf⟩
  · obtain ⟨hw, rfl⟩ := (write_eq_ok_iff htext).1 h
    refine ⟨hv.measure_fst, ?_, ?_⟩
    · rw [← hv.allBits_cells]
      exact BitStream.appends_of_writeCells hs hw
    · cases v with
      | text t => exact absurd rfl htext
      | _ => trivial

/-- A leaf is written if the stream takes it and there is room. -/
theorem exists_write (hs : s.WellFormed) (hv : v.WellFormed) (hsend : v.Sendable s.maxTextBytes)
    (hroom : s.writePos + v.size ≤ s.capacityBits) : ∃ s', v.write s = (.ok v.size, s') := by
  by_cases htext : v.variant = .text
  · obtain ⟨t, rfl⟩ := eq_text_of_variant htext
    obtain ⟨s', hw⟩ :=
      BitStream.exists_writeText hs (BitStream.textFault_eq_none_iff.2 hsend) hroom
    exact ⟨s', by simp only [write, hw]; rfl⟩
  · obtain ⟨s', hw⟩ := BitStream.exists_writeCells hs hv.width_le (by rwa [hv.totalWidth_cells])
    exact ⟨s', (write_eq_ok_iff htext).2 ⟨hw, hv.measure_fst.symm⟩⟩

/-! ### Reading -/

/-- The words are as many as the cells and of their widths. -/
abbrev Fit (v : Scalar) (words : List UInt32) : Prop :=
  List.Forall₂ (fun word width => word.toNat < 2 ^ width) words v.widths

theorem size_fill (v : Scalar) (words : List UInt32) : (v.fill words).size = v.size := by
  unfold fill
  split <;> simp only [size, BitSet.len_withWords, BoundedInt.ofOffset]

theorem WellFormed.fill (hv : v.WellFormed) {words : List UInt32} (hw : v.Fit words) :
    (v.fill words).WellFormed := by
  unfold Scalar.fill
  split
  case h_8 r word => exact BoundedInt.WellFormed.of_eq hv rfl rfl rfl
  case h_12 b words =>
      refine BitSet.WellFormed.withWords hv ?_
      rwa [← BitSet.WellFormed.map_width_cells hv]
  case h_13 d words => exact Digest.WellFormed.setBytes hv _
  case h_14 => exact hv
  all_goals trivial

theorem WellFormed.read (hv : v.WellFormed) (s : BitStream) : (v.read s).2.1.WellFormed := by
  by_cases htext : v.variant = .text
  · obtain ⟨t, rfl⟩ := eq_text_of_variant htext
    rw [Scalar.read, BitSource.readText_stream]
    rcases s.readText with ⟨_ | t', s'⟩ <;> trivial
  · rw [read_of_ne_text htext]
    rcases hr : s.readWords v.widths with ⟨_ | words, s'⟩
    · exact hv
    · exact hv.fill (BitStream.forall₂_lt_of_readWords hr)

/-- The words read are written again. -/
theorem WellFormed.encode_fill (hv : v.WellFormed) {words : List UInt32} (hw : v.Fit words)
    (htext : v.variant ≠ .text) :
    (v.fill words).encode = Cell.allBits (List.zipWith Cell.mk words v.widths) := by
  have hint {α : Type} [WireInt α] [LawfulWireInt α] (n : α) {words : List UInt32}
      (hw : List.Forall₂ (fun word width => word.toNat < 2 ^ width) words [WireInt.width α]) :
      ∃ word, words = [word] ∧ Cell.allBits [WireInt.cell (WireInt.ofWord word : α)] =
        Cell.allBits [⟨word, WireInt.width α⟩] := by
    -- an integer has a single cell, so a single word fits it
    obtain ⟨word, rest, hword, hrest, rfl⟩ := List.forall₂_cons_right_iff.1 hw
    cases List.forall₂_nil_right_iff.1 hrest
    refine ⟨word, rfl, ?_⟩
    rw [Cell.allBits_cons, Cell.allBits_cons, LawfulWireInt.bits_cell_ofWord hword]
    rfl
  have hfill := hv.fill hw
  rw [← hfill.allBits_cells]
  cases v with
  | bool n | u8 n | s8 n | u16 n | s16 n | u32 n | s32 n =>
      obtain ⟨word, rfl, hbits⟩ := hint n hw
      exact hbits
  | bounded r =>
      obtain ⟨word, rfl⟩ := List.length_eq_one_iff.1 hw.length_eq
      simp [Scalar.fill, cells, widths]
  | float x =>
      obtain ⟨word, rfl⟩ := List.length_eq_one_iff.1 hw.length_eq
      rfl
  | text t => exact absurd rfl htext
  | vec2 p =>
      obtain ⟨x, y, rfl⟩ := List.length_eq_two.1 hw.length_eq
      rfl
  | vec3 p =>
      obtain ⟨x, y, z, rfl⟩ := List.length_eq_three.1 hw.length_eq
      rfl
  | bits b =>
      have hwidths : (bits b).widths = b.widths := BitSet.WellFormed.map_width_cells hv
      rw [hwidths]
      exact congrArg Cell.allBits (BitSet.cells_withWords (by rw [hw.length_eq, hwidths]))
  | digest d =>
      have hwidths : (digest d).widths = List.replicate 16 8 := d.map_width_cells
      rw [hwidths]
      exact congrArg Cell.allBits (d.cells_ofWords (by rw [← hwidths]; exact hw))

/-- What is read has the encoding that was taken. -/
theorem takes_of_read (hs : s.WellFormed) (hv : v.WellFormed) {v' : Scalar}
    (h : v.read s = (.ok n, v', s')) :
    n = v'.size ∧ Takes s v'.encode s' ∧ v'.Sendable s.maxTextBytes := by
  by_cases htext : v.variant = .text
  · obtain ⟨t, rfl⟩ := eq_text_of_variant htext
    rw [read, BitSource.readText_stream] at h
    rcases hr : s.readText with ⟨_ | t', s₁⟩ <;> simp only [hr] at h <;> cases h
    obtain ⟨htake, hf⟩ := BitStream.takes_of_readText hs hr
    exact ⟨rfl, htake, BitStream.textFault_eq_none_iff.1 hf⟩
  · rw [read_of_ne_text htext] at h
    rcases hr : s.readWords v.widths with ⟨_ | words, s₁⟩ <;> simp only [hr] at h <;> cases h
    -- the count told is that of the leaf as it was, but filling does not change the size
    refine ⟨by rw [hv.measure_fst, size_fill], ?_, ?_⟩
    · rw [hv.encode_fill (BitStream.forall₂_lt_of_readWords hr) htext]
      exact BitStream.takes_of_readWords hs hr
    · have hvariant := v.variant_fill words
      cases hfill : v.fill words with
      | text t =>
          rw [hfill] at hvariant
          exact absurd hvariant.symm htext
      | _ => trivial

/-! ### Reading what was written -/

/-- An integer between two bounds lies between them. -/
def InBounds : Scalar → Prop
  | bounded r => r.inBounds = true
  | _ => True

theorem widths_eq_of_layout {d : Scalar} (hd : d.WellFormed) (hv : v.WellFormed)
    (hl : d.layout = v.layout) (htext : v.variant ≠ .text) : d.widths = v.widths := by
  -- leaves of one layout are of one variant; only two variants have widths of their own to tell
  cases v <;> cases d <;>
    first
    | exact absurd rfl htext
    | (simp [layout, variant] at hl; done)
    | (simp [widths, cells, coordinate, WireInt.cell]; done)
    | skip
  case bounded.bounded r r' =>
      simp only [layout, Layout.bounded.injEq] at hl
      have hwidth := BoundedInt.WellFormed.width_eq hd
      rw [hl.1, hl.2, ← BoundedInt.WellFormed.width_eq hv] at hwidth
      simp [widths, cells, hwidth]
  case bits.bits b b' =>
      have hlen : b'.len = b.len := by simpa [layout] using hl
      have hwidths := BitSet.widths_eq_of_len hv hd hlen
      rwa [← BitSet.WellFormed.map_width_cells hd, ← BitSet.WellFormed.map_width_cells hv]
        at hwidths

/-- The words written give the leaf its value back, whatever value another leaf of the layout
had. -/
theorem forget_fill_low_cells {d : Scalar} (hd : d.WellFormed) (hv : v.WellFormed)
    (hl : d.layout = v.layout) (hin : v.InBounds) (htext : v.variant ≠ .text) :
    (d.fill (v.cells.map Cell.low)).forget = v.forget := by
  cases v <;> cases d <;>
    first
    | exact absurd rfl htext
    | (simp [layout, variant] at hl; done)
    | skip
  case bool.bool | u8.u8 | s8.s8 | u16.u16 | s16.s16 | u32.u32 | s32.s32 =>
      simp only [cells, List.map, fill, LawfulWireInt.ofWord_low]
  case bounded.bounded r r' =>
      simp only [layout, Layout.bounded.injEq] at hl
      have hlow : Cell.low ⟨r.offset, r.width⟩ = r.offset := by
        refine Cell.low_of_lt ?_
        rw [BoundedInt.WellFormed.width_eq hv]
        exact BoundedInt.toNat_offset_lt hin
      simp only [cells, List.map_cons, List.map_nil, hlow, fill, forget,
        BoundedInt.forget_ofOffset_offset hl.1 hl.2]
  case float.float x x' => simp [cells, fill, forget]
  case vec2.vec2 p p' =>
      simp [cells, fill, forget, coordinate, WireInt.cell, WireInt.toWord, WireInt.width]
  case vec3.vec3 p p' =>
      simp [cells, fill, forget, coordinate, WireInt.cell, WireInt.toWord, WireInt.width]
  case bits.bits b b' =>
      have hlen : b'.len = b.len := by simpa [layout] using hl
      have hlow := BitSet.WellFormed.map_low_cells hv
      simp [cells, fill, forget, BitSet.withWords, hlow, hlen]
  case digest.digest d d' =>
      have hlow := d.ofWords_low_cells d'
      have hwf := Digest.WellFormed.setBytes hd d.bytes
      exact congrArg digest (hlow.trans
        (hwf.eq_of_bytes_eq hv (Digest.bytes_setBytes ..)))

/-- A leaf that was written is read back, whatever comes after it. -/
theorem read_of_unread {d : Scalar} (hs : s.WellFormed) (hd : d.WellFormed) (hv : v.WellFormed)
    (hl : d.layout = v.layout) (hin : v.InBounds) (hsend : v.Sendable s.maxTextBytes)
    {rest : List Bool} (h : s.unread = v.encode ++ rest) :
    ∃ d', d.read s = (.ok v.size, d', s.advance v.size) ∧ d'.forget = v.forget := by
  by_cases htext : v.variant = .text
  · obtain ⟨t, rfl⟩ := eq_text_of_variant htext
    have hread := BitStream.readText_of_unread hs (BitStream.textFault_eq_none_iff.2 hsend) h
    cases d with
    | text t' => exact ⟨text t, by simp only [read, BitSource.readText_stream, hread]; rfl, rfl⟩
    | _ => simp [layout, variant] at hl
  · have hvariant : d.variant ≠ .text := by
      intro hd'
      obtain ⟨t, rfl⟩ := eq_text_of_variant hd'
      cases v <;> simp [layout, variant] at hl htext
    rw [← hv.allBits_cells] at h
    have hwidths := widths_eq_of_layout hd hv hl htext
    have hsize : d.measure.1 = v.size := by
      rw [hd.measure_fst, ← hd.totalWidth_cells, ← hv.totalWidth_cells]
      exact congrArg List.sum hwidths
    have hread := BitStream.readWords_of_unread hs hv.width_le h
    rw [hv.totalWidth_cells] at hread
    refine ⟨d.fill (v.cells.map Cell.low), ?_, forget_fill_low_cells hd hv hl hin htext⟩
    rw [read_of_ne_text hvariant, hwidths, widths, hread, hsize]

end Scalar

/-! ### Presence marks -/

namespace BitSet

open BitStream (Appends Takes)

variable {s s' : BitStream} {b b' : BitSet} {n : Nat}

theorem write_eq (b : BitSet) (s : BitStream) : b.write s = (Scalar.bits b).write s := by
  have hcells : (Scalar.bits b).cells = b.cells := rfl
  rw [write, Scalar.write_of_ne_text (by simp [Scalar.variant]), hcells]
  rcases s.writeCells b.cells with ⟨_ | _, s'⟩ <;> rfl

theorem read_eq (hb : b.WellFormed) (s : BitStream) : (Scalar.bits b).read s =
    match b.read s with
    | (r, b', s') => (r, .bits b', s') := by
  have hwidths : (Scalar.bits b).widths = b.widths := hb.map_width_cells
  rw [Scalar.read_of_ne_text (by simp [Scalar.variant]), read, BitSource.readWords_stream, hwidths]
  rcases s.readWords b.widths with ⟨_ | words, s'⟩ <;> rfl

theorem appends_of_write (hs : s.WellFormed) (hb : b.WellFormed) (h : b.write s = (.ok n, s')) :
    n = b.len ∧ Appends s (flagBits b.toList) s' := by
  rw [write_eq] at h
  obtain ⟨hn, happ, -⟩ := Scalar.appends_of_write (v := .bits b) hs hb h
  exact ⟨hn, happ⟩

theorem exists_write (hs : s.WellFormed) (hb : b.WellFormed)
    (hroom : s.writePos + b.len ≤ s.capacityBits) : ∃ s', b.write s = (.ok b.len, s') := by
  rw [write_eq]
  exact Scalar.exists_write (v := .bits b) hs hb trivial hroom

theorem takes_of_read (hs : s.WellFormed) (hb : b.WellFormed)
    (h : b.read s = (.ok n, b', s')) : n = b'.len ∧ Takes s (flagBits b'.toList) s' := by
  have hread : (Scalar.bits b).read s = (.ok n, .bits b', s') := by rw [read_eq hb, h]
  obtain ⟨hn, htake, -⟩ := Scalar.takes_of_read (v := .bits b) hs hb hread
  exact ⟨hn, htake⟩

/-- Marks that were written are read back, whatever marks stood there before. -/
theorem read_of_unread (hs : s.WellFormed) (hb : b.WellFormed) (hb' : b'.WellFormed)
    (hlen : b.len = b'.len) {rest : List Bool} (h : s.unread = flagBits b'.toList ++ rest) :
    b.read s = (.ok b'.len, b', s.advance b'.len) := by
  obtain ⟨d, hread, hd⟩ := Scalar.read_of_unread (d := .bits b) (v := .bits b') hs hb hb'
    (by rw [Scalar.layout, Scalar.layout, hlen]) trivial trivial h
  rw [read_eq hb] at hread
  rcases hr : b.read s with ⟨r, b₁, s₁⟩
  rw [hr] at hread
  cases hread
  cases hd
  rfl

end BitSet

end WireTree
