/-
**Every accepted encoding is canonical.**

Whatever bits stand in a stream: if a read goes through, then the bits it has taken are the
encoding of what it has read.  So no two runs of bits are read as the same value, and what has
been read can be written again, bit for bit, into any stream that has the room and admits texts
as long.

This holds because a number read is written again from the same word, even one that lies outside
its bounds, and because the number of elements read is the number that is written: an offset that
wraps around comes out negative and counts as zero, and zero is never an admitted number of
elements whose offset is so large.

Main results:

* `WireTree.Kind.takes_of_read` — what a read that goes through has done;
* `WireTree.read_canonical` — what has been read is written as the bits that were taken.
-/

import WireTree.Proofs.Component.Encoding

set_option relaxedAutoImplicit false
set_option autoImplicit false

namespace WireTree

/-! ### The number of elements -/

namespace ArrayOf

variable {a : ArrayField} {s s' : BitStream} {count : Nat}

theorem readCount_eq_ok_iff {α : Type} {a : ArrayOf α} :
    a.readCount s = (.ok count, s') ↔ ∃ word, s.readBits a.countField.width = (.ok word, s') ∧
      count = (a.countField.ofOffset word).value.toInt.toNat := by
  grind [readCount]

/-- A number of elements that is admitted lies as far beyond the fewest as the word read says. -/
theorem Consistent.toNat_word (h : a.Consistent) {word : UInt32}
    (hword : word.toNat < 2 ^ a.countField.width)
    (hadm : a.admits (a.countField.ofOffset word).value.toInt.toNat = true) :
    word.toNat = (a.countField.ofOffset word).value.toInt.toNat - a.minCount := by
  have hmin := (admits_iff.1 hadm).1
  have hshort := h.word_lt hword
  rw [h.toNat_ofOffset hword, announced] at hmin ⊢
  by_cases hsum : a.minCount + word.toNat < 2 ^ 31
  · rw [if_pos hsum]
    omega
  · -- a negative number counts as zero, and zero is not admitted where a word can lead so far
    rw [if_neg hsum] at hmin
    omega

end ArrayOf

namespace Kind

open BitStream (Takes)

variable {k k' : Kind} {s s' : BitStream} {n : Nat}

/-! ### What a read does -/

theorem read_scalar_eq_ok_iff {v : Scalar} : (scalar v).read s = (.ok n, k', s') ↔
    ∃ v', v.read s = (.ok n, v', s') ∧ k' = scalar v' := by
  grind [read]

theorem readAll_cons_eq_ok_iff {c : Component} {cs cs' : List Component} :
    readAll (c :: cs) s = (.ok n, cs', s') ↔
      ∃ l kind s₁ m rest, c.kind.read s = (.ok l, kind, s₁) ∧
        readAll cs s₁ = (.ok m, rest, s') ∧ n = l + m ∧ cs' = c.withKind kind :: rest := by
  grind [readAll]

theorem readPresent_cons_true_eq_ok_iff {marks : List Bool} {c : Component}
    {cs cs' : List Component} :
    readPresent (true :: marks) (c :: cs) s = (.ok n, cs', s') ↔
      ∃ l kind s₁ m rest, c.kind.read s = (.ok l, kind, s₁) ∧
        readPresent marks cs s₁ = (.ok m, rest, s') ∧ n = l + m ∧
        cs' = c.withKind kind :: rest := by
  grind [readPresent]

theorem readPresent_cons_false_eq_ok_iff {marks : List Bool} {c : Component}
    {cs cs' : List Component} :
    readPresent (false :: marks) (c :: cs) s = (.ok n, cs', s') ↔
      ∃ rest, readPresent marks cs s = (.ok n, rest, s') ∧ cs' = c :: rest := by
  grind [readPresent]

theorem read_array_eq_ok_iff {a : ArrayField} : (array a).read s = (.ok n, k', s') ↔
    ∃ count s₁ elements, a.readCount s = (.ok count, s₁) ∧ a.admits count = true ∧
      ArrayOf.readCopies (readCopy a.prototype) count a.countField.width [] s₁ =
        (.ok (n, elements), s') ∧ k' = array (a.withElements elements) := by
  grind [read_array]

theorem read_group_eq_ok_iff {g : Group} : (group g).read s = (.ok n, k', s') ↔
    ∃ l required s₁ m indicator s₂ j optional, readAll g.required s = (.ok l, required, s₁) ∧
      g.indicator.read s₁ = (.ok m, indicator, s₂) ∧
      readPresent indicator.toList g.optional s₂ = (.ok j, optional, s') ∧ n = l + m + j ∧
      k' = group { g with required, indicator, optional, cachedSize := none } := by
  simp only [read, GroupOf.forget]
  grind

/-- What has to be shown of a tree that is read: the number told is its size, its encoding was
taken, and a stream with the same limit on texts takes it. -/
structure ReadAs (s : BitStream) (n : Nat) (k : Kind) (s' : BitStream) : Prop where
  /-- The number told is the size. -/
  size_eq : n = k.size
  /-- The bits taken are the encoding. -/
  takes : Takes s k.encode s'
  /-- It can be written. -/
  emits : k.EmitsOnly (Sendable s.maxTextBytes)

theorem takes_of_readAll {cs cs' : List Component}
    (hcs : ∀ c ∈ cs, ∀ {s s' n k'}, s.WellFormed → c.kind.read s = (.ok n, k', s') →
      ReadAs s n k' s') (hs : s.WellFormed) (h : readAll cs s = (.ok n, cs', s')) :
    n = sizeAll cs' ∧ Takes s (encodeAll cs') s' ∧
      ∀ c ∈ cs', c.kind.EmitsOnly (Sendable s.maxTextBytes) := by
  induction cs generalizing n cs' s with
  | nil =>
      cases h
      exact ⟨rfl, .refl _, List.forall_mem_nil _⟩
  | cons c cs ih =>
      obtain ⟨hc, hrest⟩ := List.forall_mem_cons.1 hcs
      obtain ⟨l, kind, s₁, m, rest, h₁, h₂, rfl, rfl⟩ := readAll_cons_eq_ok_iff.1 h
      obtain ⟨hsize, htake, hemit⟩ := hc hs h₁
      obtain ⟨rfl, htake', hemits⟩ := ih hrest (htake.wellFormed hs) h₂
      rw [htake.maxTextBytes_eq] at hemits
      exact ⟨by rw [hsize]; rfl, htake.trans htake', List.forall_mem_cons.2 ⟨hemit, hemits⟩⟩

theorem takes_of_readPresent {marks : List Bool} {cs cs' : List Component}
    (hcs : ∀ c ∈ cs, ∀ {s s' n k'}, s.WellFormed → c.kind.read s = (.ok n, k', s') →
      ReadAs s n k' s') (hs : s.WellFormed) (h : readPresent marks cs s = (.ok n, cs', s')) :
    n = sizeAll (marked marks cs') ∧ Takes s (encodeAll (marked marks cs')) s' ∧
      ∀ c ∈ marked marks cs', c.kind.EmitsOnly (Sendable s.maxTextBytes) := by
  induction cs generalizing marks n cs' s with
  | nil =>
      rcases marks with _ | ⟨_, marks⟩ <;> cases h <;>
        exact ⟨rfl, .refl _, List.forall_mem_nil _⟩
  | cons c cs ih =>
      obtain ⟨hc, hrest⟩ := List.forall_mem_cons.1 hcs
      rcases marks with _ | ⟨_ | _, marks⟩
      · cases h
        exact ⟨rfl, .refl _, List.forall_mem_nil _⟩
      · obtain ⟨rest, h₁, rfl⟩ := readPresent_cons_false_eq_ok_iff.1 h
        rw [marked_cons_false]
        exact ih hrest hs h₁
      · obtain ⟨l, kind, s₁, m, rest, h₁, h₂, rfl, rfl⟩ := readPresent_cons_true_eq_ok_iff.1 h
        obtain ⟨hsize, htake, hemit⟩ := hc hs h₁
        obtain ⟨rfl, htake', hemits⟩ := ih hrest (htake.wellFormed hs) h₂
        rw [htake.maxTextBytes_eq] at hemits
        exact ⟨by rw [hsize]; rfl, htake.trans htake', List.forall_mem_cons.2 ⟨hemit, hemits⟩⟩

/-- `done` holds what was read before, the last first. -/
theorem takes_of_readCopies {prototype : Component}
    (hproto : ∀ {s s' n k'}, s.WellFormed → prototype.kind.read s = (.ok n, k', s') →
      ReadAs s n k' s') {count m : Nat} {done cs : List Component} (hs : s.WellFormed)
    (h : ArrayOf.readCopies (readCopy prototype) count m done s = (.ok (n, cs), s')) :
    ∃ new, cs = done.reverse ++ new ∧ new.length = count ∧ n = m + sizeAll new ∧
      Takes s (encodeAll new) s' ∧ ∀ c ∈ new, c.kind.EmitsOnly (Sendable s.maxTextBytes) := by
  induction count generalizing m done s with
  | zero =>
      cases h
      exact ⟨[], by simp, rfl, rfl, .refl _, List.forall_mem_nil _⟩
  | succ count ih =>
      rw [ArrayOf.readCopies] at h
      rcases hr : readCopy prototype s with ⟨_ | l, c, s₁⟩ <;> simp only [hr] at h
      · cases h
      · obtain ⟨kind, h₁, rfl⟩ : ∃ kind, prototype.kind.read s = (.ok l, kind, s₁) ∧
            c = prototype.withKind kind := by
          grind [readCopy]
        obtain ⟨hsize, htake, hemit⟩ := hproto hs h₁
        obtain ⟨new, rfl, rfl, rfl, htake', hemits⟩ := ih (htake.wellFormed hs) h
        rw [htake.maxTextBytes_eq] at hemits
        refine ⟨prototype.withKind kind :: new, by simp, rfl, ?_, htake.trans htake',
          List.forall_mem_cons.2 ⟨hemit, hemits⟩⟩
        rw [sizeAll, hsize, Nat.add_assoc]
        rfl

/-- What has been read has the encoding that was taken, whatever the bits were. -/
theorem takes_of_read (hk : k.WellFormed) (hs : s.WellFormed) (h : k.read s = (.ok n, k', s')) :
    ReadAs s n k' s' := by
  induction hk generalizing s s' n k' with
  | scalar hv =>
      obtain ⟨v', hr, rfl⟩ := read_scalar_eq_ok_iff.1 h
      obtain ⟨hsize, htake, hsend⟩ := Scalar.takes_of_read hs hv hr
      exact ⟨hsize, htake, emitsOnly_scalar.2 hsend⟩
  | @array a hcons hproto hwf ih _ =>
      obtain ⟨count, s₁, elements, h₁, hadm, h₂, rfl⟩ := read_array_eq_ok_iff.1 h
      obtain ⟨word, hword, rfl⟩ := ArrayOf.readCount_eq_ok_iff.1 h₁
      -- what is written again is the number of elements, not the word that was read
      have hcount := hcons.toNat_word (BitStream.toNat_lt_of_readBits hword) hadm
      have htake := BitStream.takes_of_readBits hs hword
      obtain ⟨_, rfl, hlen, rfl, htake', hemits⟩ := takes_of_readCopies ih (htake.wellFormed hs) h₂
      rw [htake.maxTextBytes_eq] at hemits
      rw [hcount, hcons.width_eq] at htake
      refine ⟨?_, ?_, emitsOnly_array.2 ⟨?_, hemits⟩⟩
      · rw [size, hcons.countField_wellFormed.width_eq]
        rfl
      · rw [← hlen] at htake
        exact htake.trans htake'
      · rw [← hlen] at hadm
        exact hadm
  | @group g hcons hreq hopt ihreq ihopt =>
      obtain ⟨l, required, s₁, m, indicator, s₂, j, optional, h₁, h₂, h₃, rfl, rfl⟩ :=
        read_group_eq_ok_iff.1 h
      obtain ⟨rfl, htake₁, hemits₁⟩ := takes_of_readAll (fun c hc => ihreq c hc) hs h₁
      have hs₁ := htake₁.wellFormed hs
      obtain ⟨rfl, htake₂⟩ := BitSet.takes_of_read hs₁ hcons.indicator_wellFormed h₂
      -- the marks just read, not the old ones, say which fields follow
      obtain ⟨rfl, htake₃, hemits₃⟩ :=
        takes_of_readPresent (fun c hc => ihopt c hc) (htake₂.wellFormed hs₁) h₃
      rw [htake₂.maxTextBytes_eq, htake₁.maxTextBytes_eq] at hemits₃
      refine ⟨?_, ?_, emitsOnly_group.2 ⟨trivial, hemits₁, hemits₃⟩⟩
      · rw [size_group]
        rfl
      · rw [encode_group]
        exact (htake₁.trans htake₂).trans htake₃

/-- A read that goes through moves on by the number of bits that it tells. -/
theorem eq_advance_of_read (hk : k.WellFormed) (hs : s.WellFormed)
    (h : k.read s = (.ok n, k', s')) : s' = s.advance n := by
  have hk' := hk.read s
  rw [h] at hk'
  obtain ⟨rfl, htake, -⟩ := takes_of_read hk hs h
  rw [htake.eq_advance, hk'.length_encode]

/-- A stream that admits longer texts takes no less. -/
theorem Sendable.mono {m n : Nat} (h : k.Sendable m) (hle : m ≤ n) : k.Sendable n := by
  cases k with
  | scalar v =>
      cases v with
      | text t => exact ⟨Nat.le_trans h.1 hle, h.2⟩
      | _ => trivial
  | array a => exact h
  | group g => trivial

end Kind

/-- **Accepted encodings are canonical.**  A read that goes through moves the read position by the
number it tells, which is the size of what has been read; and that is written again, as the very
bits that were taken, into any stream that has the room and admits texts as long. -/
theorem read_canonical {d d' : Kind} {s s' : BitStream} {n : Nat} (hd : d.Reachable)
    (hs : s.Reachable) (h : d.read s = (.ok n, d', s')) :
    s'.readPos = s.readPos + n ∧ d'.measure.1 = n ∧
      ∃ w : List Bool, w.length = n ∧ s.unread = w ++ s'.unread ∧
        ∀ t : BitStream, t.Reachable → t.writePos + n ≤ t.capacityBits →
          s.maxTextBytes ≤ t.maxTextBytes →
          ∃ t', d'.write t = (.ok n, t') ∧ t'.writePos = t.writePos + n ∧
            t'.bits = t.bits ++ w := by
  have hwf : d'.WellFormed := by
    have hread := hd.wellFormed.read s
    rwa [h] at hread
  obtain ⟨rfl, htake, hemit⟩ := Kind.takes_of_read hd.wellFormed hs.wellFormed h
  have hlen := hwf.length_encode
  refine ⟨?_, hwf.measure_fst, d'.encode, hlen, htake.unread_eq, ?_⟩
  · rw [htake.eq_advance, hlen]
    rfl
  · intro t ht hroom hlimit
    have hemit' := hemit.imp fun node hnode => Kind.Sendable.mono hnode hlimit
    obtain ⟨t', hwrite⟩ := Kind.exists_write hwf ht.wellFormed hemit' hroom
    obtain ⟨-, happ, -⟩ := Kind.appends_of_write hwf ht.wellFormed hwrite
    have hpos := happ.writePos_eq ht.wellFormed
    rw [hlen] at hpos
    exact ⟨t', hwrite, hpos, happ.bits_eq⟩

/-- The largest distance of two bits, from a bound next to the largest integer, is read as the
smallest integer, and is written again as two ones. -/
theorem read_canonical_wrapped : ∃ (d d' : Kind) (s s' t t' : BitStream), d.Reachable ∧
    s.Reachable ∧ t.Reachable ∧ d.read s = (.ok 2, d', s') ∧
    (∃ r : BoundedInt, d' = .scalar (.bounded r) ∧ r.value = Int32.minValue ∧
      r.inBounds = false) ∧
    d'.write t = (.ok 2, t') ∧ t'.bits = [true, false, true, true, true] := by
  have hd := Kind.Reachable.bounded
    (.make (show BoundedInt.make 0 2147483645 2147483647 = _ from rfl))
  have hs : (BitStream.Origin.received #[192]).stream.Reachable := .origin _
  have ht : (BitStream.perform (BitStream.Origin.limits {}).stream (.write 5 3)).2.Reachable :=
    .perform _ (.origin _)
  obtain ⟨-, -, w, hlen, hw, hwrite⟩ := read_canonical (n := 2) hd hs rfl
  obtain ⟨t', htwo, -, hbits⟩ := hwrite _ ht (by decide) (by decide)
  refine ⟨_, _, _, _, _, t', hd, hs, ht, rfl, ⟨_, rfl, by decide, by decide⟩, htwo, ?_⟩
  have htake := congrArg (List.take 2) hw
  rw [List.take_left' hlen] at htake
  rw [hbits, ← htake]
  decide

end WireTree
