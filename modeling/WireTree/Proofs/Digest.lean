/-
**Digests and their digits.**

The digits kept beside the bytes of a digest are always those of the bytes, so two digests with
the same bytes are the same, and the bytes alone decide what is written.

Main definitions:

* `WireTree.Digest.WellFormed` — the digits are those of the bytes;
* `WireTree.Digest.Reachable` — the digests that come up.

Main results:

* `WireTree.Digest.Reachable.wellFormed` — every digest that comes up is well-formed;
* `WireTree.Digest.allBits_cells` — the bits written are those of the bytes;
* `WireTree.Digest.ofWords_low_cells`, `WireTree.Digest.cells_ofWords` — the bytes written are
  read again, and the bytes read are written again.
-/

import WireTree.Digest
import WireTree.Proofs.BitStream.Runs

set_option relaxedAutoImplicit false
set_option autoImplicit false

namespace WireTree.Digest

/-! ### Well-formed digests -/

/-- The digits are those of the bytes. -/
def WellFormed (d : Digest) : Prop := d.text = Hex.encode d.bytes.toList

variable {d d' : Digest}

theorem WellFormed.eq_of_bytes_eq (h : d.WellFormed) (h' : d'.WellFormed)
    (hbytes : d.bytes = d'.bytes) : d = d' := by
  have htext : d.text = d'.text := by rw [h, h', hbytes]
  cases d
  cases d'
  cases hbytes
  cases htext
  rfl

theorem wellFormed_ofBytes (bytes : Vector UInt8 16) : (ofBytes bytes).WellFormed := rfl

theorem WellFormed.setBytes (h : d.WellFormed) (bytes : Vector UInt8 16) :
    (d.setBytes bytes).WellFormed := by
  rw [WellFormed, text_setBytes h, bytes_setBytes]

theorem WellFormed.setText (h : d.WellFormed) {text : String} (hset : d.setText text = .ok d') :
    d'.WellFormed := by
  unfold Digest.setText at hset
  split at hset
  · obtain rfl := Except.ok.inj hset
    exact h.setBytes _
  · cases hset

/-- The digests that come up: new ones, and what the operations leave. -/
inductive Reachable : Digest → Prop
  | ofBytes (bytes : Vector UInt8 16) : Reachable (.ofBytes bytes)
  | setText {d d' : Digest} {text : String} :
      Reachable d → d.setText text = .ok d' → Reachable d'
  | setBytes {d : Digest} (bytes : Vector UInt8 16) : Reachable d → Reachable (d.setBytes bytes)
  | clear {d : Digest} : Reachable d → Reachable d.clear
  | ofWords {d : Digest} (words : List UInt32) : Reachable d → Reachable (d.ofWords words)

/-- Every digest that comes up is well-formed. -/
theorem Reachable.wellFormed (h : d.Reachable) : d.WellFormed := by
  induction h with
  | ofBytes bytes => exact wellFormed_ofBytes bytes
  | setText _ hset ih => exact ih.setText hset
  | setBytes bytes _ ih => exact ih.setBytes bytes
  | clear _ ih => exact ih.setBytes _
  | ofWords words _ ih => exact ih.setBytes _

/-! ### The bytes on the wire -/

theorem toList_pack {bytes : List UInt8} (h : bytes.length = 16) : (pack bytes).toList = bytes := by
  refine List.ext_getElem (by rw [Vector.length_toList, h]) ?_
  intro i h₁ h₂
  simp [pack, h₂]

theorem allBits_cells (d : Digest) : Cell.allBits d.cells = Bits.ofBytes d.bytes.toList := by
  rw [Cell.allBits, cells, List.flatMap_map]
  rfl

@[simp] theorem map_width_cells (d : Digest) :
    d.cells.map Cell.width = List.replicate 16 8 := by
  refine List.eq_replicate_iff.2 ⟨by simp [cells], ?_⟩
  intro width hwidth
  simp only [cells, List.map_map, List.mem_map] at hwidth
  obtain ⟨byte, -, rfl⟩ := hwidth
  rfl

/-- The bytes written are read again. -/
theorem ofWords_low_cells (d d' : Digest) :
    d'.ofWords (d.cells.map Cell.low) = d'.setBytes d.bytes := by
  have hbytes : (d.cells.map Cell.low).map UInt32.toUInt8 = d.bytes.toList := by
    have hlow (byte : UInt8) : (Cell.low ⟨byte.toUInt32, 8⟩).toUInt8 = byte := by
      rw [Cell.low_of_lt (by simpa using byte.toNat_lt)]
      exact UInt8.toUInt8_toUInt32 byte
    rw [cells, List.map_map, List.map_map]
    exact (List.map_congr_left fun byte _ => hlow byte).trans (List.map_id _)
  have hpack : pack d.bytes.toList = d.bytes :=
    Vector.toList_inj.1 (toList_pack (Vector.length_toList ..))
  rw [ofWords, hbytes, hpack]

/-- The bytes read are written again. -/
theorem cells_ofWords (d : Digest) {words : List UInt32}
    (hw : List.Forall₂ (fun word width => word.toNat < 2 ^ width) words (List.replicate 16 8)) :
    (d.ofWords words).cells = List.zipWith Cell.mk words (List.replicate 16 8) := by
  have hlen : words.length = 16 := by rw [hw.length_eq, List.length_replicate]
  have hpack : (pack (words.map UInt32.toUInt8)).toList = words.map UInt32.toUInt8 :=
    toList_pack (by rw [List.length_map, hlen])
  rw [cells, ofWords, bytes_setBytes, hpack]
  refine List.ext_getElem (by simp [hlen]) ?_
  intro i h₁ h₂
  have hi : i < words.length := by simpa using h₁
  have hlt := (List.forall₂_iff_get.1 hw).2 i hi (by rw [← hw.length_eq]; exact hi)
  rw [List.get_eq_getElem, List.get_eq_getElem, List.getElem_replicate] at hlt
  have hword : words[i].toUInt8.toUInt32 = words[i] := by
    refine UInt32.toNat_inj.1 ?_
    rw [UInt8.toNat_toUInt32, UInt32.toNat_toUInt8, Nat.mod_eq_of_lt hlt]
  rw [List.getElem_map, List.getElem_map, List.getElem_zipWith, List.getElem_replicate, hword]

end WireTree.Digest
