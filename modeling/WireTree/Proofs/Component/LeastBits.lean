/-
**What is read has been paid for.**

A layout alone says how few bits a component of it can be read from: a text takes a zero byte at
least, an array its count and the fewest elements, a group its required fields and a mark for every
optional one.  No read that goes through takes fewer, whatever the bits are.  For an array this
bounds the elements by the bits: each of them has taken as many as its prototype needs, so a number
of elements that the sender has made up ends the read, and does not make a small packet large.

The bound is attained by zeros.  They stand for the fewest elements, for empty texts and for absent
fields, so a stream with as many zeros ahead is read, and no more of it.

Main definitions:

* `WireTree.Layout.minBits` — the fewest bits that a component of a layout is read from.

Main results:

* `WireTree.Kind.minBits_le_of_read` — a read takes as many bits at least;
* `WireTree.Kind.readsZeros` — as many zeros are enough;
* `WireTree.reading_is_paid_for` — **the number of bits that a read takes**.
-/

import WireTree.Proofs.BitSet.Bits
import WireTree.Proofs.Component.Counts

set_option relaxedAutoImplicit false
set_option autoImplicit false

namespace WireTree

/-! ### The fewest bits of a layout -/

/-- The fewest bits that a leaf of a variant takes, where its layout has nothing more to tell. -/
def Variant.minBits : Variant → Nat
  | bool => 1
  | u8 | s8 | text => 8
  | u16 | s16 => 16
  | u32 | s32 | float => 32
  | vec2 => 64
  | vec3 => 96
  | digest => 128
  | bounded | bits | array | group => 0

namespace Layout

mutual

/-- The fewest bits that a component of a layout is read from. -/
def minBits : Layout → Nat
  | plain variant => variant.minBits
  | bounded lower upper => bitsForSpan lower upper
  | bits len => len
  | array minCount maxCount prototype =>
    bitsForSpan (Int32.ofNat minCount) (Int32.ofNat maxCount) + minCount * minBits prototype
  | group required optional => minBitsAll required + optional.length
termination_by structural l => l

/-- The fewest bits that a list of components is read from. -/
def minBitsAll : List Layout → Nat
  | [] => 0
  | l :: ls => minBits l + minBitsAll ls
termination_by structural ls => ls

end

theorem minBitsAll_replicate (n : Nat) (l : Layout) :
    minBitsAll (List.replicate n l) = n * l.minBits := by
  induction n with
  | zero => rw [List.replicate_zero, minBitsAll, Nat.zero_mul]
  | succ n ih => rw [List.replicate_succ, minBitsAll, ih, Nat.succ_mul, Nat.add_comm]

end Layout

namespace Scalar

variable {v : Scalar}

theorem minBits_layout (htext : v.variant ≠ .text) : v.layout.minBits = v.size := by
  cases v with
  | text t => exact absurd rfl htext
  | _ => rfl

/-- A leaf that is read has taken as many bits at least. -/
theorem minBits_le_of_read (hv : v.WellFormed) {s s' : BitStream} {n : Nat} {v' : Scalar}
    (h : v.read s = (.ok n, v', s')) : v.layout.minBits ≤ n := by
  by_cases htext : v.variant = .text
  · obtain ⟨t, rfl⟩ := eq_text_of_variant htext
    rw [read, BitSource.readText_stream] at h
    rcases ht : s.readText with ⟨_ | t', s₁⟩ <;> rw [ht] at h <;> cases h
    exact Nat.le_add_left 8 _
  · rw [read_of_ne_text htext] at h
    rcases hw : s.readWords v.widths with ⟨_ | words, s₁⟩ <;> rw [hw] at h <;> cases h
    exact Nat.le_of_eq ((minBits_layout htext).trans hv.measure_fst.symm)

end Scalar

theorem BitSet.eq_len_of_read {b b' : BitSet} {s s' : BitStream} {n : Nat}
    (h : b.read s = (.ok n, b', s')) : n = b.len := by
  rw [read, BitSource.readWords_stream] at h
  rcases hw : s.readWords b.widths with ⟨_ | words, s₁⟩ <;> rw [hw] at h <;> cases h
  rfl

namespace Kind

variable {k k' : Kind} {s s' : BitStream} {n : Nat}

/-! ### No read takes fewer -/

theorem layoutAll_replicate (n : Nat) (c : Component) :
    layoutAll (List.replicate n c) = List.replicate n c.kind.layout := by
  rw [layoutAll_eq, List.map_replicate]

theorem length_layoutAll (cs : List Component) : (layoutAll cs).length = cs.length := by
  rw [layoutAll_eq, List.length_map]

theorem minBits_le_of_readAll {cs cs' : List Component}
    (hcs : ∀ c ∈ cs, ∀ {s s' n k'}, c.kind.read s = (.ok n, k', s') → c.kind.layout.minBits ≤ n)
    (h : readAll cs s = (.ok n, cs', s')) : Layout.minBitsAll (layoutAll cs) ≤ n := by
  induction cs generalizing s n cs' with
  | nil => exact Nat.zero_le _
  | cons c cs ih =>
      obtain ⟨hc, hcs⟩ := List.forall_mem_cons.1 hcs
      obtain ⟨l, kind, s₁, m, rest, h₁, h₂, rfl, rfl⟩ := readAll_cons_eq_ok_iff.1 h
      exact Nat.add_le_add (hc h₁) (ih hcs h₂)

/-- An array that is read has taken the bits of its count, and then its elements like any list of
copies of the prototype. -/
theorem readAll_of_read_array {a : ArrayField} (h : (array a).read s = (.ok n, k', s')) :
    ∃ m elements s₁, a.admits elements.length = true ∧
      readAll (List.replicate elements.length a.prototype) s₁ = (.ok m, elements, s') ∧
      n = a.countField.width + m ∧ k' = array (a.withElements elements) := by
  obtain ⟨count, s₁, elements, -, hadm, hcopies, rfl⟩ := read_array_eq_ok_iff.1 h
  rw [ArrayOf.readCopies_eq] at hcopies
  rcases hall : readAll (List.replicate count a.prototype) s₁ with ⟨_ | m, cs, s₂⟩ <;>
    rw [hall] at hcopies <;> cases hcopies
  have hlen : cs.length = count := by
    have hlength := length_readPresent (List.replicate count true)
      (List.replicate count a.prototype) s₁
    have heq := readAll_eq (List.replicate count a.prototype) s₁
    rw [List.length_replicate] at heq
    rwa [← heq, hall, List.length_replicate] at hlength
  subst hlen
  exact ⟨m, cs, s₁, hadm, hall, rfl, rfl⟩

/-- The elements of an array that is read have taken as many bits as the prototype needs, each. -/
theorem minBits_le_of_read_array {a : ArrayField} (hcons : a.Consistent)
    (hproto : ∀ {s s' n k'}, a.prototype.kind.read s = (.ok n, k', s') →
      a.prototype.kind.layout.minBits ≤ n) (h : (array a).read s = (.ok n, k', s')) :
    ∃ elements, k' = array (a.withElements elements) ∧ a.minCount ≤ elements.length ∧
      bitsForSpan (Int32.ofNat a.minCount) (Int32.ofNat a.maxCount) +
        elements.length * a.prototype.kind.layout.minBits ≤ n := by
  obtain ⟨m, elements, s₁, hadm, hall, rfl, rfl⟩ := readAll_of_read_array h
  have hm : Layout.minBitsAll (layoutAll (List.replicate elements.length a.prototype)) ≤ m := by
    refine minBits_le_of_readAll ?_ hall
    intro c hc
    rw [List.eq_of_mem_replicate hc]
    exact hproto
  rw [layoutAll_replicate, Layout.minBitsAll_replicate] at hm
  refine ⟨elements, rfl, (ArrayOf.admits_iff.1 hadm).1, ?_⟩
  rw [hcons.width_eq]
  exact Nat.add_le_add_left hm _

/-- A read that goes through takes as many bits as the layout needs. -/
theorem minBits_le_of_read (hk : k.WellFormed) (h : k.read s = (.ok n, k', s')) :
    k.layout.minBits ≤ n := by
  induction hk generalizing s s' n k' with
  | scalar hv =>
      obtain ⟨v', hr, rfl⟩ := read_scalar_eq_ok_iff.1 h
      exact Scalar.minBits_le_of_read hv hr
  | @array a hcons _ _ ih _ =>
      obtain ⟨elements, -, hmin, hn⟩ := minBits_le_of_read_array hcons ih h
      have hmul := Nat.mul_le_mul_right a.prototype.kind.layout.minBits hmin
      exact Nat.le_trans (Nat.add_le_add_left hmul _) hn
  | @group g hcons _ _ ihreq _ =>
      obtain ⟨l, required, s₁, m, indicator, s₂, j, optional, h₁, h₂, h₃, rfl, rfl⟩ :=
        read_group_eq_ok_iff.1 h
      have hl := minBits_le_of_readAll (fun c hc => ihreq c hc) h₁
      -- the marks are taken whether or not a field follows
      obtain rfl := BitSet.eq_len_of_read h₂
      rw [layout, Layout.minBits, length_layoutAll, hcons.len_indicator]
      omega

end Kind

/-! ### Words of zeros -/

theorem Bits.ofNat_zero_right (width : Nat) : ofNat width 0 = List.replicate width false := by
  induction width with
  | zero => rfl
  | succ width ih => rw [ofNat, ih, Nat.zero_testBit, List.replicate_succ]

theorem Bits.toNat_replicate_false (width : Nat) : toNat (List.replicate width false) = 0 := by
  rw [← ofNat_zero_right, toNat_ofNat, Nat.zero_mod]

theorem Bits.ofBytes_replicate_zero (n : Nat) :
    ofBytes (List.replicate n 0) = List.replicate (8 * n) false := by
  induction n with
  | zero => rfl
  | succ n ih =>
      rw [List.replicate_succ, ofBytes_cons, ih, Nat.mul_succ, Nat.add_comm,
        ← List.replicate_append_replicate]
      exact congrArg (· ++ _) (ofNat_zero_right 8)

theorem Cell.allBits_zeros (widths : List Nat) :
    allBits (widths.map fun width => ⟨0, width⟩) = List.replicate widths.sum false := by
  induction widths with
  | nil => rfl
  | cons width widths ih =>
      rw [List.map_cons, allBits_cons, ih, List.sum_cons, ← List.replicate_append_replicate]
      exact congrArg (· ++ _) (Bits.ofNat_zero_right width)

theorem BitStream.exists_readWords_of_zeros {s : BitStream} (hs : s.WellFormed) {widths : List Nat}
    (hw : ∀ width ∈ widths, width ≤ maxTransferBits) {rest : List Bool}
    (h : s.unread = List.replicate widths.sum false ++ rest) :
    ∃ words, s.readWords widths = (.ok words, s.advance widths.sum) := by
  rw [← Cell.allBits_zeros] at h
  have hread := readWords_of_unread hs (by simpa using hw) h
  rw [← Cell.length_allBits, Cell.allBits_zeros, List.length_replicate, List.map_map] at hread
  have hid : widths.map (Cell.width ∘ fun width => ⟨0, width⟩) = widths := List.map_id _
  rw [hid] at hread
  exact ⟨_, hread⟩

theorem flagBits_replicate_false (n : Nat) :
    flagBits (List.replicate n false) = List.replicate n false := by
  refine List.eq_replicate_iff.2 ⟨by simp, ?_⟩
  intro b hb
  obtain ⟨i, -, hb⟩ := List.mem_flatMap.1 hb
  exact List.eq_of_mem_replicate
    (List.mem_of_mem_drop (List.mem_of_mem_take (List.mem_reverse.1 hb)))

/-! ### Zeros are enough -/

namespace Kind

/-- A component is read from zeros, as many as its layout needs. -/
def ReadsZeros (k : Kind) : Prop :=
  ∀ (s : BitStream) (rest : List Bool), s.WellFormed →
    s.unread = List.replicate k.layout.minBits false ++ rest →
    ∃ k', k.read s = (.ok k.layout.minBits, k', s.advance k.layout.minBits)

variable {s : BitStream} {rest : List Bool}

theorem readsZeros_scalar {v : Scalar} (hv : v.WellFormed) : (scalar v).ReadsZeros := by
  intro s rest hs h
  by_cases htext : v.variant = .text
  · obtain ⟨t, rfl⟩ := Scalar.eq_text_of_variant htext
    have hfault : s.textFault "" = none :=
      BitStream.textFault_eq_none_iff.2 ⟨Nat.zero_le _, by simp⟩
    have hread := BitStream.readText_of_unread hs hfault h
    exact ⟨scalar (.text ""), read_scalar_eq_ok_iff.2
      ⟨.text "", by simp only [Scalar.read, BitSource.readText_stream, hread]; rfl, rfl⟩⟩
  · have hsize : (scalar v).layout.minBits = v.widths.sum :=
      (Scalar.minBits_layout htext).trans hv.totalWidth_cells.symm
    rw [hsize] at h ⊢
    have hnarrow : ∀ width ∈ v.widths, width ≤ maxTransferBits := by
      intro width hwidth
      obtain ⟨c, hc, rfl⟩ := List.mem_map.1 hwidth
      exact hv.width_le c hc
    obtain ⟨words, hread⟩ := BitStream.exists_readWords_of_zeros hs hnarrow h
    refine ⟨_, read_scalar_eq_ok_iff.2 ⟨v.fill words, ?_, rfl⟩⟩
    rw [Scalar.read_of_ne_text htext, hread, hv.measure_fst, ← hv.totalWidth_cells]
    rfl

theorem readAll_of_zeros {cs : List Component} (hcs : ∀ c ∈ cs, c.kind.ReadsZeros)
    (hs : s.WellFormed)
    (h : s.unread = List.replicate (Layout.minBitsAll (layoutAll cs)) false ++ rest) :
    ∃ cs', readAll cs s = (.ok (Layout.minBitsAll (layoutAll cs)), cs',
      s.advance (Layout.minBitsAll (layoutAll cs))) := by
  induction cs generalizing s with
  | nil => exact ⟨[], rfl⟩
  | cons c cs ih =>
      obtain ⟨hc, hcs⟩ := List.forall_mem_cons.1 hcs
      rw [layoutAll, Layout.minBitsAll, ← List.replicate_append_replicate, List.append_assoc] at h
      obtain ⟨kind, hread⟩ := hc s _ hs h
      obtain ⟨hs', h'⟩ := hs.advance (List.length_replicate ..) h
      obtain ⟨cs', hreads⟩ := ih hcs hs' h'
      rw [BitStream.advance_advance] at hreads
      exact ⟨_, readAll_cons_eq_ok_iff.2 ⟨_, kind, _, _, cs', hread, hreads, rfl, rfl⟩⟩

/-- Without marks nothing is read. -/
theorem readPresent_replicate_false (cs : List Component) (s : BitStream) :
    readPresent (List.replicate cs.length false) cs s = (.ok 0, cs, s) := by
  induction cs with
  | nil => rfl
  | cons c cs ih => exact readPresent_cons_false_eq_ok_iff.2 ⟨cs, ih, rfl⟩

/-- As many zeros as the layout needs are enough. -/
theorem readsZeros {k : Kind} (hk : k.WellFormed) : k.ReadsZeros := by
  induction hk with
  | scalar hv => exact readsZeros_scalar hv
  | @array a hcons _ _ ih _ =>
      intro s rest hs h
      rw [layout, Layout.minBits, ← hcons.width_eq] at h ⊢
      rw [← List.replicate_append_replicate, List.append_assoc] at h
      have hbits : a.countField.width ≤ s.remaining := by
        rw [← hs.length_unread, h, List.length_append, List.length_replicate]
        omega
      -- a distance of zero announces the fewest elements
      have hcount := ArrayOf.readCount_of_le hcons hs hbits
      rw [h, List.take_left' (List.length_replicate ..), Bits.toNat_replicate_false,
        hcons.announced_of_le (Nat.zero_le _), Nat.add_zero] at hcount
      obtain ⟨hs', h'⟩ := hs.advance (List.length_replicate ..) h
      have hcopies : ∀ c ∈ List.replicate a.minCount a.prototype, c.kind.ReadsZeros := by
        intro c hc
        rw [List.eq_of_mem_replicate hc]
        exact ih
      rw [← Layout.minBitsAll_replicate, ← layoutAll_replicate] at h' ⊢
      obtain ⟨elements, hreads⟩ := readAll_of_zeros hcopies hs' h'
      rw [BitStream.advance_advance] at hreads
      refine ⟨_, read_array_eq_ok_iff.2 ⟨_, _, elements, hcount,
        ArrayOf.admits_iff.2 ⟨Nat.le_refl _, hcons.min_le_max⟩, ?_, rfl⟩⟩
      rw [ArrayOf.readCopies_eq, hreads]
      rfl
  | @group g hcons hreq _ ihreq _ =>
      intro s rest hs h
      rw [layout, Layout.minBits, length_layoutAll, ← hcons.len_indicator] at h ⊢
      rw [← List.replicate_append_replicate, List.append_assoc] at h
      obtain ⟨required, hreads⟩ := readAll_of_zeros ihreq hs h
      obtain ⟨hs₁, h₁⟩ := hs.advance (List.length_replicate ..) h
      have hlist := g.indicator.toList_clear
      have hmarks := BitSet.read_of_unread hs₁ hcons.indicator_wellFormed
        hcons.indicator_wellFormed.clear rfl (by rw [hlist, flagBits_replicate_false]; exact h₁)
      rw [BitSet.len_clear, BitStream.advance_advance] at hmarks
      refine ⟨_, read_group_eq_ok_iff.2 ⟨_, required, _, _, _, _, 0, g.optional, hreads, hmarks,
        ?_, rfl, rfl⟩⟩
      -- none of the optional fields is marked
      rw [hlist, hcons.len_indicator]
      exact readPresent_replicate_false g.optional _

end Kind

/-! ### A stream of zeros -/

/-- Any word can be appended to a stream that has room for it, a bit at a time. -/
theorem BitStream.Reachable.exists_appends {s : BitStream} (hs : s.Reachable) (w : List Bool)
    (hroom : s.writePos + w.length ≤ s.capacityBits) : ∃ s', s'.Reachable ∧ Appends s w s' := by
  induction w generalizing s with
  | nil => exact ⟨s, hs, .refl hs.wellFormed⟩
  | cons b w ih =>
      rw [List.length_cons] at hroom
      obtain ⟨s₁, hwrite, happ⟩ := exists_writeBits hs.wellFormed (UInt32.ofNat b.toNat)
        (by decide : 1 ≤ maxTransferBits) (by omega)
      have hbit : Bits.ofNat 1 (UInt32.ofNat b.toNat).toNat = [b] := by cases b <;> rfl
      have hs₁ : s₁.Reachable := by
        have hperform := Reachable.perform (.write (UInt32.ofNat b.toNat) 1) hs
        rwa [BitStream.perform, hwrite] at hperform
      rw [hbit] at happ
      have hpos := happ.writePos_eq hs.wellFormed
      rw [List.length_singleton] at hpos
      obtain ⟨s', hs', happ'⟩ := ih hs₁ (by rw [hpos, happ.capacityBits_eq]; omega)
      exact ⟨s', hs', happ.trans happ'⟩

/-- A read that goes through takes no more bits than there are. -/
theorem Kind.le_remaining_of_read {k k' : Kind} {s s' : BitStream} {n : Nat} (hk : k.WellFormed)
    (hs : s.WellFormed) (h : k.read s = (.ok n, k', s')) : n ≤ s.remaining := by
  have hwf := (takes_of_read hk hs h).takes.wellFormed hs
  rw [eq_advance_of_read hk hs h] at hwf
  have hle : s.readPos + n ≤ s.writePos := hwf.readPos_le
  rw [BitStream.remaining]
  omega

/-- **What is read has been paid for.**  A read that goes through takes as many bits at least as the
layout needs; and an array whose read goes through has taken the bits of its count and, for each of
its elements, as many as the prototype needs, so that it has no more elements than there were bits
if these are any.  Both are as tight as can be: with as many zeros ahead as the layout needs a read
goes through and takes no more, and there are such streams, among those made for sending with
whatever limits, if they leave the room, and among the bytes received. -/
theorem reading_is_paid_for {k : Kind} (hk : k.Reachable) :
    (∀ s : BitStream, s.Reachable → ∀ n k' s', k.read s = (.ok n, k', s') →
      k.layout.minBits ≤ n ∧ s' = s.advance n ∧ n ≤ s.remaining ∧
      ∀ a, k = .array a → ∃ a', k' = .array a' ∧ a' = a.withElements a'.elements ∧
        let each := a.prototype.kind.layout.minBits
        bitsForSpan (Int32.ofNat a.minCount) (Int32.ofNat a.maxCount) + a'.len * each ≤ n ∧
        (1 ≤ each → a'.len ≤ s.remaining)) ∧
    (∀ (s : BitStream) (rest : List Bool), s.Reachable →
      s.unread = List.replicate k.layout.minBits false ++ rest →
      ∃ k', k.read s = (.ok k.layout.minBits, k', s.advance k.layout.minBits)) ∧
    (∀ l : Limits, k.layout.minBits ≤ l.capacityBits →
      ∃ s, s.Reachable ∧ BitStream.Appends (.ofLimits l) (List.replicate k.layout.minBits false) s ∧
        ∃ k', k.read s = (.ok k.layout.minBits, k', s.advance k.layout.minBits)) ∧
    ∃ data : Array UInt8, data.size = (k.layout.minBits + 7) / 8 ∧
      ∃ k', k.read (.ofBytes data) =
        (.ok k.layout.minBits, k', (BitStream.ofBytes data).advance k.layout.minBits) := by
  have hwf := hk.wellFormed
  refine ⟨?_, ?_, ?_, ?_⟩
  · intro s hs n k' s' h
    have hle := Kind.le_remaining_of_read hwf hs.wellFormed h
    refine ⟨Kind.minBits_le_of_read hwf h, Kind.eq_advance_of_read hwf hs.wellFormed h, hle, ?_⟩
    rintro a rfl
    cases hwf with
    | array hcons hproto _ =>
        obtain ⟨elements, hk', -, hn⟩ :=
          Kind.minBits_le_of_read_array hcons (Kind.minBits_le_of_read hproto) h
        refine ⟨_, hk', rfl, hn, ?_⟩
        intro heach
        have hmul := Nat.mul_le_mul_left elements.length heach
        rw [ArrayOf.len, show (a.withElements elements).elements = elements from rfl]
        omega
  · intro s rest hs h
    exact Kind.readsZeros hwf s rest hs.wellFormed h
  · intro l hroom
    obtain ⟨s, hs, happ⟩ := BitStream.Reachable.exists_appends (.origin (.limits l))
      (List.replicate k.layout.minBits false)
      (by rw [List.length_replicate]; exact Nat.le_trans (Nat.le_of_eq (Nat.zero_add _)) hroom)
    have hunread : s.unread = List.replicate k.layout.minBits false ++ [] := by
      rw [BitStream.unread, happ.bits_eq, happ.readPos_eq, List.append_nil]
      rfl
    exact ⟨s, hs, happ, Kind.readsZeros hwf s [] hs.wellFormed hunread⟩
  · have hzeros : (BitStream.ofBytes (Array.replicate ((k.layout.minBits + 7) / 8) 0)).unread =
        List.replicate k.layout.minBits false ++
          List.replicate (8 * ((k.layout.minBits + 7) / 8) - k.layout.minBits) false := by
      rw [BitStream.unread_ofBytes, Array.toList_replicate, Bits.ofBytes_replicate_zero,
        List.replicate_append_replicate, Nat.add_sub_of_le (by omega)]
    exact ⟨_, Array.size_replicate .., Kind.readsZeros hwf _ _ (.ofBytes _) hzeros⟩

/-- An array of two to five groups, each with a text and an optional truth value, needs twenty bits.
From a one and zeros behind it three empty groups are read, and from zeros alone two. -/
theorem reading_is_paid_for_groups :
    ∃ (a a' : ArrayField) (s t : BitStream),
    (Kind.array a).Reachable ∧ s.Reachable ∧ t.Reachable ∧
    (Kind.array a).layout.minBits = 20 ∧ a.prototype.kind.layout.minBits = 9 ∧
    (Kind.array a).read s = (.ok 29, .array a', s.advance 29) ∧ a' = a.withElements a'.elements ∧
    a'.len = 3 ∧ 20 ≤ 29 ∧ 29 ≤ s.remaining ∧ 2 + a'.len * 9 ≤ 29 ∧ a'.len ≤ s.remaining ∧
    t.unread = List.replicate 20 false ++ List.replicate 4 false ∧
    (∃ k', (Kind.array a).read t = (.ok 20, k', t.advance 20)) ∧
    (∃ u, u.Reachable ∧ BitStream.Appends (.ofLimits ⟨3, 0⟩) (List.replicate 20 false) u ∧
      ∃ k', (Kind.array a).read u = (.ok 20, k', u.advance 20)) ∧
    ∃ data : Array UInt8, data.size = 3 ∧
      ∃ k', (Kind.array a).read (.ofBytes data) =
        (.ok 20, k', (BitStream.ofBytes data).advance 20) := by
  have htext : (Kind.scalar (.text "")).Reachable := .free trivial
  have hbool : (Kind.scalar (.bool false)).Reachable := .free trivial
  have hgroup := Kind.Reachable.addField (.addField .empty htext
    (show GroupOf.addField _ ⟨none, _⟩ false = _ from rfl)) hbool
    (show GroupOf.addField _ ⟨some "flag", _⟩ true = _ from rfl)
  have harray := Kind.Reachable.make hgroup
    (show ArrayOf.make ⟨none, _⟩ 2 5 = .ok ⟨_, _, _, ⟨0, 2, 5, none, by decide⟩, [], none⟩ from rfl)
  have hs : (BitStream.Origin.received #[64, 0, 0, 0]).stream.Reachable := .origin _
  have ht : (BitStream.Origin.received #[0, 0, 0]).stream.Reachable := .origin _
  obtain ⟨hread, hzeros, hlimits, hbytes⟩ := reading_is_paid_for harray
  obtain ⟨hmin, hadvance, hle, harrays⟩ := hread _ hs 29 _ _ rfl
  obtain ⟨a', hk', helements, hpaid, hfew⟩ := harrays _ rfl
  have hlen : a'.len = 3 := by
    cases hk'
    rfl
  refine ⟨_, a', _, _, harray, hs, ht, rfl, rfl, ?_, helements, hlen, hmin, hle, hpaid,
    hfew (by decide), rfl, hzeros _ _ ht rfl, hlimits ⟨3, 0⟩ (by decide), hbytes⟩
  rw [← hk', ← hadvance]
  rfl

end WireTree
