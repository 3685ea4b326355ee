/-
**Texts of plain characters.**

A character below 128 is a single byte, which is its number.  So a text of such characters is read
off its bytes one by one, and the other way round; no other text has the same bytes.

Main results:

* `WireTree.bytes_ofList` — the bytes of a text of plain characters;
* `WireTree.toList_of_bytes` — the characters of a text whose bytes are plain;
* `WireTree.bytes_replicate` — the bytes of a run of one character.
-/

set_option relaxedAutoImplicit false
set_option autoImplicit false

namespace WireTree

theorem utf8EncodeChar_of_lt {c : Char} (h : c.toNat < 128) :
    String.utf8EncodeChar c = [c.toUInt8] := by
  refine String.utf8EncodeChar_eq_singleton (Char.utf8Size_eq_one_iff.2 ?_)
  exact UInt32.le_iff_toNat_le.2 (Nat.le_of_lt_succ h)

theorem length_bytes (text : String) : text.toUTF8.data.toList.length = text.utf8ByteSize :=
  Array.length_toList

/-- Plain characters are bytes. -/
theorem bytes_ofList {cs : List Char} (h : ∀ c ∈ cs, c.toNat < 128) :
    (String.ofList cs).toUTF8.data.toList = cs.map Char.toUInt8 := by
  rw [String.toUTF8, String.toByteArray_ofList, List.utf8Encode, List.data_toByteArray]
  induction cs with
  | nil => rfl
  | cons c cs ih =>
      obtain ⟨hc, hcs⟩ := List.forall_mem_cons.1 h
      rw [List.flatMap_cons, List.map_cons, utf8EncodeChar_of_lt hc]
      exact congrArg (c.toUInt8 :: ·) (ih hcs)

theorem bytes_of_chars {text : String} (h : ∀ c ∈ text.toList, c.toNat < 128) :
    text.toUTF8.data.toList = text.toList.map Char.toUInt8 := by
  rw [← bytes_ofList h, String.ofList_toList]

theorem toUInt8_ofUInt8 (byte : UInt8) : (Char.ofUInt8 byte).toUInt8 = byte :=
  UInt8.toUInt8_toUInt32 byte

theorem ofUInt8_toUInt8 {c : Char} (h : c.toNat < 128) : Char.ofUInt8 c.toUInt8 = c := by
  refine Char.ext (UInt32.toNat_inj.1 ?_)
  exact Nat.mod_eq_of_lt (Nat.lt_trans h (by decide))

/-- Plain bytes are characters. -/
theorem toList_of_bytes {text : String} (h : ∀ b ∈ text.toUTF8.data.toList, b.toNat < 128) :
    text.toList = text.toUTF8.data.toList.map Char.ofUInt8 := by
  have hplain : ∀ c ∈ text.toUTF8.data.toList.map Char.ofUInt8, c.toNat < 128 := by
    intro c hc
    obtain ⟨byte, hbyte, rfl⟩ := List.mem_map.1 hc
    exact h byte hbyte
  have hbytes := bytes_ofList hplain
  have hid : Char.toUInt8 ∘ Char.ofUInt8 = id := funext toUInt8_ofUInt8
  rw [List.map_map, hid, List.map_id] at hbytes
  have htext := String.toByteArray_inj.1 (ByteArray.ext (Array.toList_inj.1 hbytes))
  rw [← congrArg String.toList htext, String.toList_ofList]

/-- A run of one plain character is a run of its byte. -/
theorem bytes_replicate {c : Char} (h : c.toNat < 128) (n : Nat) :
    (String.ofList (List.replicate n c)).toUTF8.data.toList = List.replicate n c.toUInt8 := by
  rw [bytes_ofList, List.map_replicate]
  intro c' hc'
  rwa [List.eq_of_mem_replicate hc']

end WireTree
