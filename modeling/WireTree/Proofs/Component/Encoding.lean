/-
**The bits of a tree.**

The reference encoding of a tree is defined by recursion on the tree alone, without streams, words
or anything remembered: a leaf as `Scalar.encode` says, an array as the number of its elements
beyond the fewest and then the elements, a group as its required fields, one mark for every
optional field, and the optional fields that are present.

A tree that is written has appended its encoding, and the number of bits told is its size, which
is also what measuring tells.  Conversely a tree is written as soon as every node that is written
is one that the stream takes, and there is room for the size.

Main definitions:

* `WireTree.Kind.encode`, `WireTree.Message.encode` — the reference encoding.

Main results:

* `WireTree.Kind.appends_of_write` — what a write that goes through has done;
* `WireTree.Kind.exists_write` — when a write goes through;
* `WireTree.write_eq_encode` — every component or message that comes up is written as its
  encoding, which is as long as its size.
-/

import WireTree.Proofs.Component.Emitted
import WireTree.Proofs.Component.Reachable

set_option relaxedAutoImplicit false
set_option autoImplicit false

namespace WireTree

/-! ### The reference encoding -/

namespace Kind

mutual

/-- The bits that a tree is written as. -/
def encode : Kind → List Bool
  | scalar v => v.encode
  | array a =>
    Bits.ofNat (bitsForSpan (Int32.ofNat a.minCount) (Int32.ofNat a.maxCount))
      (a.len - a.minCount) ++ encodeAll a.elements
  | group g =>
    encodeAll g.required ++ flagBits g.indicator.toList ++
      encodePresent g.indicator.toList g.optional
termination_by structural k => k

/-- The bits of a list of components, one after the other. -/
def encodeAll : List Component → List Bool
  | [] => []
  | c :: cs => encode c.kind ++ encodeAll cs
termination_by structural cs => cs

/-- The bits of the components marked present. -/
def encodePresent : List Bool → List Component → List Bool
  | present :: marks, c :: cs => (if present then encode c.kind else []) ++ encodePresent marks cs
  | _, [] => []
  | [], _ :: _ => []
termination_by structural _ cs => cs

end

theorem encodePresent_eq (marks : List Bool) (cs : List Component) :
    encodePresent marks cs = encodeAll (marked marks cs) := by
  induction cs generalizing marks with
  | nil => cases marks <;> rfl
  | cons c cs ih =>
      rcases marks with _ | ⟨_ | _, marks⟩
      · rfl
      · exact ih marks
      · exact congrArg (encode c.kind ++ ·) (ih marks)

theorem encode_group (g : Group) : (group g).encode =
    encodeAll g.required ++ flagBits g.indicator.toList ++ encodeAll g.present := by
  rw [encode, encodePresent_eq, g.present_eq]

theorem size_group (g : Group) : (group g).size =
    sizeAll g.required + g.indicator.len + sizeAll g.present := by
  rw [size, sizePresent_eq_marked, g.present_eq]

end Kind

/-! ### The number of elements -/

namespace ArrayOf

/-- The number of elements that a distance from the fewest announces, on the wire.  Past the largest
signed integer it is negative, and counts as none. -/
def announced {α : Type} (a : ArrayOf α) (offset : Nat) : Nat :=
  if a.minCount + offset < 2 ^ 31 then a.minCount + offset else 0

namespace Consistent

variable {a : ArrayField}

theorem lower_eq_ofNat (h : a.Consistent) : a.countField.lower = Int32.ofNat a.minCount := by
  have hle := h.min_le_max
  have hmax := h.max_lt
  refine Int32.toInt_inj.1 ?_
  rw [h.lower_eq, Int32.toInt_ofNat_of_lt (by omega)]

theorem upper_eq_ofNat (h : a.Consistent) : a.countField.upper = Int32.ofNat a.maxCount := by
  have hmax := h.max_lt
  refine Int32.toInt_inj.1 ?_
  rw [h.upper_eq, Int32.toInt_ofNat_of_lt (by omega)]

theorem width_eq (h : a.Consistent) : a.countField.width =
    bitsForSpan (Int32.ofNat a.minCount) (Int32.ofNat a.maxCount) := by
  rw [h.countField_wellFormed.width_eq, h.lower_eq_ofNat, h.upper_eq_ofNat]

/-- The count field never needs the highest bit of a word. -/
theorem width_le (h : a.Consistent) : a.countField.width ≤ 31 := by
  have hmax := h.max_lt
  have hspan : (a.countField.upper.toInt - a.countField.lower.toInt).toNat < 2 ^ 31 := by
    rw [h.upper_eq, h.lower_eq]
    omega
  rw [h.countField_wellFormed.width_eq]
  exact bitLength_le_of_lt hspan

/-- The count field is written as the number of elements beyond the fewest. -/
theorem toNat_offset (h : a.Consistent) (hmin : a.minCount ≤ a.len) :
    a.countField.offset.toNat = a.len - a.minCount := by
  have hlen := h.len_le
  have hmax := h.max_lt
  have hoffset := a.countField.toNat_offset
  rw [h.value_eq, h.lower_eq, Int.emod_eq_of_lt (by omega) (by omega)] at hoffset
  omega

/-- A word of the width of the count field is too short to lead once around. -/
theorem word_lt (h : a.Consistent) {word : UInt32} (hword : word.toNat < 2 ^ a.countField.width) :
    word.toNat < 2 ^ 31 :=
  Nat.lt_of_lt_of_le hword (Nat.pow_le_pow_right (by omega) h.width_le)

/-- A word announces the number of elements that its distance does. -/
theorem toNat_ofOffset (h : a.Consistent) {word : UInt32}
    (hword : word.toNat < 2 ^ a.countField.width) :
    (a.countField.ofOffset word).value.toInt.toNat = a.announced word.toNat := by
  have hle := h.min_le_max
  have hmax := h.max_lt
  have hshort := h.word_lt hword
  have hlow := (a.countField.ofOffset word).value.le_toInt
  have hhigh := (a.countField.ofOffset word).value.toInt_lt
  have hoffset := a.countField.toNat_eq_of_ofOffset word
  rw [h.lower_eq] at hoffset
  rw [announced]
  split <;> omega

end Consistent

end ArrayOf

namespace Kind

open BitStream (Appends)

variable {k : Kind} {s s' : BitStream} {n : Nat}

/-! ### What a write does -/

theorem writeAll_cons_eq_ok_iff {c : Component} {cs : List Component} {m : Nat} :
    writeAll (c :: cs) m s = (.ok n, s') ↔
      ∃ l s₁, c.kind.write s = (.ok l, s₁) ∧ writeAll cs (m + l) s₁ = (.ok n, s') := by
  grind [writeAll]

theorem write_array_eq_ok_iff {a : ArrayField} : (array a).write s = (.ok n, s') ↔
    a.admits a.len = true ∧
      ∃ s₁, s.writeBits a.countField.offset a.countField.width = (.ok (), s₁) ∧
        writeAll a.elements a.countField.width s₁ = (.ok n, s') := by
  grind [write]

theorem write_group_eq_ok_iff {g : Group} : (group g).write s = (.ok n, s') ↔
    ∃ l s₁ m s₂, writeAll g.required 0 s = (.ok l, s₁) ∧ g.indicator.write s₁ = (.ok m, s₂) ∧
      writeAll g.present (l + m) s₂ = (.ok n, s') := by
  simp only [write, writePresent_eq, g.present_eq]
  grind

theorem appends_of_writeAll {cs : List Component}
    (hcs : ∀ c ∈ cs, ∀ {s s' n}, s.WellFormed → c.kind.write s = (.ok n, s') →
      n = c.kind.size ∧ Appends s c.kind.encode s' ∧ c.kind.EmitsOnly (Sendable s.maxTextBytes))
    {m : Nat} (hs : s.WellFormed) (h : writeAll cs m s = (.ok n, s')) :
    n = m + sizeAll cs ∧ Appends s (encodeAll cs) s' ∧
      ∀ c ∈ cs, c.kind.EmitsOnly (Sendable s.maxTextBytes) := by
  induction cs generalizing m s with
  | nil =>
      cases h
      exact ⟨rfl, .refl hs, List.forall_mem_nil _⟩
  | cons c cs ih =>
      obtain ⟨hc, hrest⟩ := List.forall_mem_cons.1 hcs
      obtain ⟨l, s₁, h₁, h₂⟩ := writeAll_cons_eq_ok_iff.1 h
      obtain ⟨rfl, happ, hemit⟩ := hc hs h₁
      obtain ⟨rfl, happ', hemits⟩ := ih hrest happ.wellFormed h₂
      rw [happ.maxTextBytes_eq] at hemits
      refine ⟨?_, happ.trans happ', List.forall_mem_cons.2 ⟨hemit, hemits⟩⟩
      rw [sizeAll, Nat.add_assoc]

/-- A tree that is written has appended its encoding, and the number told is its size. -/
theorem appends_of_write (hk : k.WellFormed) (hs : s.WellFormed) (h : k.write s = (.ok n, s')) :
    n = k.size ∧ Appends s k.encode s' ∧ k.EmitsOnly (Sendable s.maxTextBytes) := by
  induction hk generalizing s s' n with
  | scalar hv =>
      rw [write] at h
      rw [emitsOnly_scalar]
      exact Scalar.appends_of_write hs hv h
  | @array a hcons _ _ _ ih =>
      obtain ⟨hadm, s₁, h₁, h₂⟩ := write_array_eq_ok_iff.1 h
      have hmin := (ArrayOf.admits_iff.1 hadm).1
      -- the word of the count field is wrapped, but a length that is admitted does not wrap
      obtain ⟨happ, -⟩ := BitStream.appends_of_writeBits hs h₁
      rw [hcons.toNat_offset hmin, hcons.width_eq] at happ
      obtain ⟨rfl, happ', hemits⟩ :=
        appends_of_writeAll (fun c hc => ih c hc) happ.wellFormed h₂
      rw [happ.maxTextBytes_eq] at hemits
      refine ⟨?_, happ.trans happ', emitsOnly_array.2 ⟨hadm, hemits⟩⟩
      rw [size, hcons.countField_wellFormed.width_eq]
  | @group g hcons _ _ ihreq ihopt =>
      obtain ⟨l, s₁, m, s₂, h₁, h₂, h₃⟩ := write_group_eq_ok_iff.1 h
      obtain ⟨rfl, happ₁, hemits₁⟩ := appends_of_writeAll (fun c hc => ihreq c hc) hs h₁
      obtain ⟨rfl, happ₂⟩ :=
        BitSet.appends_of_write happ₁.wellFormed hcons.indicator_wellFormed h₂
      -- only the fields that are present are written, and each of them is an optional field
      obtain ⟨rfl, happ₃, hemits₃⟩ := appends_of_writeAll
        (fun c hc => ihopt c (GroupOf.mem_optional_of_mem_present hc)) happ₂.wellFormed h₃
      rw [happ₂.maxTextBytes_eq, happ₁.maxTextBytes_eq] at hemits₃
      refine ⟨?_, ?_, emitsOnly_group.2 ⟨trivial, hemits₁, hemits₃⟩⟩
      · rw [size_group, Nat.zero_add]
      · rw [encode_group]
        exact (happ₁.trans happ₂).trans happ₃

/-! ### When a write goes through -/

theorem length_encodeAll {cs : List Component}
    (h : ∀ c ∈ cs, c.kind.encode.length = c.kind.size) : (encodeAll cs).length = sizeAll cs := by
  induction cs with
  | nil => rfl
  | cons c cs ih =>
      obtain ⟨hc, hcs⟩ := List.forall_mem_cons.1 h
      rw [encodeAll, sizeAll, List.length_append, hc, ih hcs]

/-- The encoding of a tree is as long as its size. -/
theorem WellFormed.length_encode (hk : k.WellFormed) : k.encode.length = k.size := by
  induction hk with
  | scalar _ => exact Scalar.length_encode _
  | array hcons _ _ _ ih =>
      rw [encode, size, List.length_append, Bits.length_ofNat, length_encodeAll ih,
        hcons.lower_eq_ofNat, hcons.upper_eq_ofNat]
  | group _ _ _ ihreq ihopt =>
      rw [encode_group, size_group, List.length_append, List.length_append,
        length_encodeAll ihreq, length_flagBits, BitSet.length_toList,
        length_encodeAll fun c hc => ihopt c (GroupOf.mem_optional_of_mem_present hc)]

theorem exists_writeAll {cs : List Component} (hwf : ∀ c ∈ cs, c.kind.WellFormed)
    (hcs : ∀ c ∈ cs, ∀ {s : BitStream}, s.WellFormed →
      c.kind.EmitsOnly (Sendable s.maxTextBytes) → s.writePos + c.kind.size ≤ s.capacityBits →
      ∃ s', c.kind.write s = (.ok c.kind.size, s'))
    {m : Nat} (hs : s.WellFormed) (hemits : ∀ c ∈ cs, c.kind.EmitsOnly (Sendable s.maxTextBytes))
    (hroom : s.writePos + sizeAll cs ≤ s.capacityBits) :
    ∃ s', writeAll cs m s = (.ok (m + sizeAll cs), s') := by
  induction cs generalizing m s with
  | nil => exact ⟨s, rfl⟩
  | cons c cs ih =>
      obtain ⟨hwf, hwfs⟩ := List.forall_mem_cons.1 hwf
      obtain ⟨hc, hrest⟩ := List.forall_mem_cons.1 hcs
      obtain ⟨hemit, hemits⟩ := List.forall_mem_cons.1 hemits
      rw [sizeAll] at hroom ⊢
      obtain ⟨s₁, h₁⟩ := hc hs hemit (by omega)
      obtain ⟨-, happ, -⟩ := appends_of_write hwf hs h₁
      have hpos := happ.writePos_eq hs
      rw [hwf.length_encode] at hpos
      obtain ⟨s₂, h₂⟩ := ih hwfs hrest happ.wellFormed (by rwa [happ.maxTextBytes_eq])
        (m := m + c.kind.size) (by rw [hpos, happ.capacityBits_eq]; omega)
      rw [Nat.add_assoc] at h₂
      exact ⟨s₂, writeAll_cons_eq_ok_iff.2 ⟨_, s₁, h₁, h₂⟩⟩

/-- A tree is written if the stream takes every node that is written and there is room. -/
theorem exists_write (hk : k.WellFormed) (hs : s.WellFormed)
    (hemit : k.EmitsOnly (Sendable s.maxTextBytes))
    (hroom : s.writePos + k.size ≤ s.capacityBits) : ∃ s', k.write s = (.ok k.size, s') := by
  induction hk generalizing s with
  | scalar hv =>
      rw [write]
      exact Scalar.exists_write hs hv (emitsOnly_scalar.1 hemit) hroom
  | @array a hcons _ hwf _ ih =>
      obtain ⟨hadm, hemits⟩ := emitsOnly_array.1 hemit
      have hwidth := hcons.countField_wellFormed.width_eq
      rw [size, ← hwidth] at hroom ⊢
      obtain ⟨s₁, h₁, happ⟩ := BitStream.exists_writeBits hs a.countField.offset
        (hwidth ▸ bitsForSpan_le _ _) (by omega : s.writePos + a.countField.width ≤ s.capacityBits)
      have hpos := happ.writePos_eq hs
      rw [Bits.length_ofNat] at hpos
      obtain ⟨s₂, h₂⟩ := exists_writeAll hwf (fun c hc => ih c hc) happ.wellFormed
        (m := a.countField.width) (by rwa [happ.maxTextBytes_eq])
        (by rw [hpos, happ.capacityBits_eq]; omega)
      exact ⟨s₂, write_array_eq_ok_iff.2 ⟨hadm, s₁, h₁, h₂⟩⟩
  | @group g hcons hreq hopt ihreq ihopt =>
      obtain ⟨-, hemits₁, hemits₃⟩ := emitsOnly_group.1 hemit
      rw [size_group] at hroom ⊢
      -- each part finds the room that the parts before it leave
      obtain ⟨s₁, h₁⟩ := exists_writeAll hreq (fun c hc => ihreq c hc) hs hemits₁ (m := 0)
        (by omega)
      obtain ⟨-, happ₁, -⟩ := appends_of_writeAll
        (fun c hc _ _ _ hs h => appends_of_write (hreq c hc) hs h) hs h₁
      have hpos₁ := happ₁.writePos_eq hs
      rw [length_encodeAll fun c hc => (hreq c hc).length_encode] at hpos₁
      obtain ⟨s₂, h₂⟩ := BitSet.exists_write happ₁.wellFormed hcons.indicator_wellFormed
        (by rw [hpos₁, happ₁.capacityBits_eq]; omega)
      obtain ⟨-, happ₂⟩ :=
        BitSet.appends_of_write happ₁.wellFormed hcons.indicator_wellFormed h₂
      have hpos₂ := happ₂.writePos_eq happ₁.wellFormed
      rw [length_flagBits, BitSet.length_toList] at hpos₂
      obtain ⟨s₃, h₃⟩ := exists_writeAll
        (fun c hc => hopt c (GroupOf.mem_optional_of_mem_present hc))
        (fun c hc => ihopt c (GroupOf.mem_optional_of_mem_present hc)) happ₂.wellFormed
        (m := 0 + sizeAll g.required + g.indicator.len)
        (by rwa [happ₂.maxTextBytes_eq, happ₁.maxTextBytes_eq])
        (by rw [hpos₂, hpos₁, happ₂.capacityBits_eq, happ₁.capacityBits_eq]; omega)
      rw [Nat.zero_add] at h₁ h₃
      exact ⟨s₃, write_group_eq_ok_iff.2 ⟨_, s₁, _, s₂, h₁, h₂, h₃⟩⟩

end Kind

/-! ### The wire format -/

/-- The bits that a message is written as. -/
def Message.encode (m : Message) : List Bool := (Kind.group m.payload).encode

theorem Message.measure_fst (m : Message) : m.measure.1 = (Kind.group m.payload).measure.1 := by
  change (Edit.measure.run (.group m.payload)).1 = _
  rw [Edit.measure, Edit.run_ofKind]

/-- **The wire format.**  Whatever component or message has come up, wherever a stream stands: a
write that goes through tells the size, moves the write position by the size, and appends the
reference encoding, which is as long. -/
theorem write_eq_encode {s s' : BitStream} {n : Nat} (hs : s.Reachable) :
    (∀ k : Kind, k.Reachable → k.write s = (.ok n, s') →
      n = k.measure.1 ∧ k.encode.length = k.measure.1 ∧
        s'.writePos = s.writePos + k.measure.1 ∧ s'.bits = s.bits ++ k.encode) ∧
    ∀ m : Message, m.Reachable → m.write s = (.ok n, s') →
      n = m.measure.1 ∧ m.encode.length = m.measure.1 ∧
        s'.writePos = s.writePos + m.measure.1 ∧ s'.bits = s.bits ++ m.encode := by
  have hkind : ∀ k : Kind, k.Reachable → k.write s = (.ok n, s') →
      n = k.measure.1 ∧ k.encode.length = k.measure.1 ∧
        s'.writePos = s.writePos + k.measure.1 ∧ s'.bits = s.bits ++ k.encode := by
    intro k hk h
    have hwf := hk.wellFormed
    obtain ⟨rfl, happ, -⟩ := Kind.appends_of_write hwf hs.wellFormed h
    have hpos := happ.writePos_eq hs.wellFormed
    rw [hwf.measure_fst]
    rw [hwf.length_encode] at hpos
    exact ⟨rfl, hwf.length_encode, hpos, happ.bits_eq⟩
  -- a message is written as its group
  refine ⟨hkind, ?_⟩
  intro m hm h
  rw [m.measure_fst]
  exact hkind (.group m.payload) hm h

/-- A group of a byte and an optional array of truth values, written behind three bits. -/
theorem write_eq_encode_nested : ∃ (k : Kind) (s s' : BitStream), k.Reachable ∧ s.Reachable ∧
    k.write s = (.ok 13, s') ∧ s'.writePos = s.writePos + 13 ∧
    s'.bits = s.bits ++ k.encode ∧ s.bits = [true, false, true] ∧
    k.encode = [false, false, false, false, false, true, false, true, true, true, false, true,
      true] := by
  have hs : (BitStream.perform (BitStream.Origin.limits {}).stream (.write 5 3)).2.Reachable :=
    .perform _ (.origin _)
  have hbool : (Kind.scalar (.bool true)).Reachable := .free trivial
  have hempty : (Kind.array ⟨⟨none, .scalar (.bool true)⟩, 0, 3, ⟨0, 0, 3, none, by decide⟩, [],
      none⟩).Reachable :=
    .make hbool (show ArrayOf.make ⟨none, _⟩ 0 3 = _ from rfl)
  have hone := Kind.Reachable.pushComponent hempty hbool
    (show ArrayOf.pushComponent _ ⟨none, _⟩ = _ from rfl)
  have htwo := Kind.Reachable.pushComponent hone hbool
    (show ArrayOf.pushComponent _ ⟨none, _⟩ = _ from rfl)
  have hbyte : (Kind.scalar (.u8 5)).Reachable := .free trivial
  have hgroup := Kind.Reachable.addField .empty htwo
    (show GroupOf.addField _ ⟨some "flags", _⟩ true = _ from rfl)
  have hmarked := Kind.Reachable.setPresent hgroup
    (show GroupOf.setPresent _ "flags" true = _ from rfl)
  have hwhole := Kind.Reachable.addField hmarked hbyte
    (show GroupOf.addField _ ⟨none, _⟩ false = _ from rfl)
  obtain ⟨-, -, hpos, hbits⟩ := (write_eq_encode hs).1 _ hwhole rfl
  exact ⟨_, _, _, hwhole, hs, rfl, hpos, hbits, by decide, by decide⟩

end WireTree
