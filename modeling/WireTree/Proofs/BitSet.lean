/-
**Sets of bits and the words that hold them.**

The words of a set are as many as its length needs, and the places of the last one that belong to
no bit are zero.  Every operation keeps this; it is what makes two sets with the same bits the
same set, and what makes the words read back the words written.

On the wire each word is a word of bits in the sense of streams, most significant first.  The most
significant place of a word holds its last bit, so inside each word the bits appear in reverse.

Main definitions:

* `WireTree.BitSet.placeAt` — the place of a bit in packed words;
* `WireTree.BitSet.WellFormed` — the invariant;
* `WireTree.BitSet.Reachable` — the sets that come up;
* `WireTree.flagBits` — a list of bits as it is written.

Main results:

* `WireTree.BitSet.Reachable.wellFormed` — every set that comes up is well-formed;
* `WireTree.BitSet.allBits_cells` — the bits written are `flagBits` of the bits of the set;
* `WireTree.BitSet.cells_withWords`, `WireTree.BitSet.map_low_cells` — the words read are written
  again, and the words written are read again.
-/

import WireTree.BitSet
import WireTree.Proofs.BitStream.Queue
import WireTree.Proofs.BitStream.Runs

set_option relaxedAutoImplicit false
set_option autoImplicit false

namespace WireTree

namespace BitSet

/-! ### Places in words -/

/-- The bit at place `i % 32` of word `i / 32`; past the last word there are only zeros. -/
def placeAt (words : Array UInt32) (i : Nat) : Bool :=
  (words.getD (i / 32) 0).toNat.testBit (i % 32)

theorem testBit_place (i k : Nat) : (place i).toNat.testBit k = decide (k = i % 32) := by
  rw [place, toNat_one_shiftLeft (Nat.mod_lt i (by omega)), Nat.testBit_two_pow]
  simp only [eq_comm]

theorem and_place_ne_zero (word : UInt32) (i : Nat) :
    (word &&& place i != 0) = word.toNat.testBit (i % 32) := by
  have hbit (k : Nat) : (word &&& place i).toNat.testBit k =
      (word.toNat.testBit (i % 32) && decide (k = i % 32)) := by
    rw [UInt32.toNat_and, Nat.testBit_and, testBit_place]
    by_cases hk : k = i % 32
    · simp [hk]
    · simp [hk]
  cases hw : word.toNat.testBit (i % 32) with
  | false =>
      have h0 : word &&& place i = 0 := by
        refine UInt32.toNat_inj.1 (Nat.eq_of_testBit_eq ?_)
        intro k
        rw [hbit, hw]
        simp
      simp [h0]
  | true =>
      rw [bne_iff_ne]
      intro h0
      have h := hbit (i % 32)
      rw [hw, h0] at h
      simp at h

theorem get_eq (b : BitSet) (i : Nat) : b.get i = (decide (i < b.len) && placeAt b.words i) := by
  rw [get, and_place_ne_zero, placeAt]

/-- Changing a bit changes its place and no other. -/
theorem placeAt_put (b : BitSet) (i : Nat) (value : Bool) (j : Nat)
    (hi : i / 32 < b.words.size) :
    placeAt (b.put i value).words j = if j = i then value else placeAt b.words j := by
  -- place `j` lies in the word that changes or in one that does not
  by_cases hw : i / 32 = j / 32
  · have hget : (b.put i value).words.getD (j / 32) 0 =
        if value then b.words.getD (j / 32) 0 ||| place i
        else b.words.getD (j / 32) 0 &&& ~~~place i := by
      simp [put, ← hw, hi, Array.getElem_modify]
    have hj : j = i ↔ j % 32 = i % 32 := by omega
    have hlt : j % 32 < 32 := by omega
    rw [placeAt, hget, placeAt]
    cases value with
    | true =>
        rw [if_pos rfl, UInt32.toNat_or, Nat.testBit_or, testBit_place]
        by_cases hji : j = i
        · simp [hji]
        · simp [hji, mt hj.2 hji]
    | false =>
        have hnot : (~~~place i).toNat.testBit (j % 32) = !decide (j % 32 = i % 32) := by
          have hsub : (~~~place i).toNat = 2 ^ 32 - ((place i).toNat + 1) := by
            simp only [UInt32.toNat_not, UInt32.size]
            omega
          rw [hsub, Nat.testBit_two_pow_sub_succ (place i).toNat_lt, testBit_place]
          simp [hlt]
        rw [if_neg (by simp), UInt32.toNat_and, Nat.testBit_and, hnot]
        by_cases hji : j = i
        · simp [hji]
        · simp [hji, mt hj.2 hji]
  · have hget : (b.put i value).words.getD (j / 32) 0 = b.words.getD (j / 32) 0 := by
      simp [put, Array.getElem?_modify, hw]
    have hji : j ≠ i := by
      rintro rfl
      exact hw rfl
    rw [placeAt, hget, placeAt, if_neg hji]

/-! ### Well-formed sets -/

/-- The words are as many as the bits need, and the places that belong to no bit are zero. -/
structure WellFormed (b : BitSet) : Prop where
  /-- There is no word too many and none too few. -/
  size_words : b.words.size = wordCount b.len
  /-- What belongs to no bit is zero. -/
  tail : ∀ i, b.len ≤ i → placeAt b.words i = false

namespace WellFormed

variable {b b' : BitSet}

theorem get_eq (h : b.WellFormed) (i : Nat) : b.get i = placeAt b.words i := by
  rw [BitSet.get_eq]
  by_cases hi : i < b.len
  · simp [hi]
  · simp [hi, h.tail i (by omega)]

theorem replicate (len : Nat) : (replicate len).WellFormed where
  size_words := by simp [BitSet.replicate]
  tail i _ := by
    simp only [placeAt, BitSet.replicate, Array.getD_eq_getD_getElem?, Array.getElem?_replicate]
    split <;> simp

theorem put (h : b.WellFormed) {i : Nat} (hi : i < b.len) (value : Bool) :
    (b.put i value).WellFormed where
  size_words := by rw [size_words_put, h.size_words, len_put]
  tail j hj := by
    have hsize : i / 32 < b.words.size := by
      rw [h.size_words, wordCount]
      omega
    rw [len_put] at hj
    rw [placeAt_put b i value j hsize, if_neg (by omega), h.tail j hj]

theorem clear (h : b.WellFormed) : b.clear.WellFormed where
  size_words := by simpa [BitSet.clear] using h.size_words
  tail i _ := by
    simp only [placeAt, BitSet.clear, Array.getD_eq_getD_getElem?, Array.getElem?_map]
    cases b.words[i / 32]? <;> simp

/-- Whatever a set was before, changing its length makes it well-formed. -/
theorem resize (b : BitSet) (len : Nat) : (b.resize len).WellFormed where
  size_words := size_words_resize b len
  tail i hi := by
    have hlen : len ≤ i := hi
    -- a place from `len` on lies past the words or in the free part of the last one
    by_cases hlast : i / 32 = wordCount len - 1 ∧ i / 32 < wordCount len
    · obtain ⟨hlast, hlt⟩ := hlast
      have hrem : len % 32 ≠ 0 := by
        rw [wordCount] at hlast hlt
        omega
      have hfree : ¬ i % 32 < len % 32 := by
        rw [wordCount] at hlast hlt
        omega
      have hsize : i / 32 < (b.words.take (wordCount len) ++
          Array.replicate (wordCount len - b.words.size) 0).size := by
        simp
        omega
      rw [placeAt, BitSet.resize]
      simp only [Array.getD_eq_getD_getElem?, Array.getElem?_modify, if_pos hlast.symm,
        Array.getElem?_eq_getElem hsize, Option.map_some, Option.getD_some, UInt32.toNat_and,
        Nat.testBit_and, tailMask, if_neg hrem, toNat_lowMask (by omega : len % 32 < 32),
        Nat.testBit_two_pow_sub_one, decide_eq_false hfree, Bool.and_false]
    · have hout : wordCount len ≤ i / 32 := by
        rw [wordCount] at hlast ⊢
        omega
      have hnone : (b.resize len).words[i / 32]? = none :=
        Array.getElem?_eq_none (by rw [size_words_resize]; exact hout)
      simp [placeAt, hnone]

theorem shiftDown (b : BitSet) (i : Nat) : (b.shiftDown i).WellFormed := resize ..

theorem ofList (bits : List Bool) : (ofList bits).WellFormed := by
  have h (ps : List (Bool × Nat)) (b : BitSet) (hb : b.WellFormed)
      (hps : ∀ p ∈ ps, p.2 < b.len) :
      (ps.foldl (fun b p => if p.1 then b.put p.2 true else b) b).WellFormed := by
    -- the length stays, so every place put is one of the set
    induction ps generalizing b with
    | nil => exact hb
    | cons p ps ih =>
        have hrest : ∀ q ∈ ps, q.2 < b.len := by
          intro q hq
          exact hps q (List.mem_cons_of_mem _ hq)
        rw [List.foldl_cons]
        split
        · exact ih _ (hb.put (hps p List.mem_cons_self) true) hrest
        · exact ih _ hb hrest
  refine h _ _ (replicate _) ?_
  intro p hp
  have hp' := List.snd_lt_of_mem_zipIdx hp
  simpa using hp'

/-- Other words in place of the old ones, each with as many bits as the old one held. -/
theorem withWords (h : b.WellFormed) {words : List UInt32}
    (hw : List.Forall₂ (fun word width => word.toNat < 2 ^ width) words b.widths) :
    (b.withWords words).WellFormed := by
  have hlen : words.length = wordCount b.len := by
    rw [hw.length_eq, widths, List.length_map, List.length_range, h.size_words]
  refine ⟨by simpa [BitSet.withWords] using hlen, ?_⟩
  intro i hi
  have hi' : b.len ≤ i := hi
  simp only [placeAt, BitSet.withWords, Array.getD_eq_getD_getElem?, List.getElem?_toArray]
  -- a place that belongs to no bit lies past the words, or above the width of the last one
  by_cases hin : i / 32 < words.length
  · have hword := List.forall₂_iff_get.1 hw |>.2 (i / 32) hin
      (by rw [← hw.length_eq]; exact hin)
    rw [List.getElem?_eq_getElem hin, Option.getD_some]
    refine Nat.testBit_lt_two_pow (Nat.lt_of_lt_of_le hword (Nat.pow_le_pow_right (by omega) ?_))
    simp [widths, wordWidth]
    omega
  · rw [List.getElem?_eq_none (by omega)]
    simp

end WellFormed

/-! ### The sets that come up -/

/-- The sets that come up: new ones, and what the operations leave. -/
inductive Reachable : BitSet → Prop
  | replicate (len : Nat) : Reachable (.replicate len)
  | ofList (bits : List Bool) : Reachable (.ofList bits)
  | set {b b' : BitSet} {i : Nat} {value : Bool} :
      Reachable b → b.set i value = .ok b' → Reachable b'
  | clear {b : BitSet} : Reachable b → Reachable b.clear
  | resize {b : BitSet} (len : Nat) : Reachable b → Reachable (b.resize len)
  | remove {b b' : BitSet} {i : Nat} {removed : Bool} :
      Reachable b → b.remove i = .ok (removed, b') → Reachable b'
  | read {b : BitSet} {s : BitStream} : Reachable b → s.Reachable → Reachable (b.read s).2.1

theorem WellFormed.set {b b' : BitSet} (h : b.WellFormed) {i : Nat} {value : Bool}
    (hset : b.set i value = .ok b') : b'.WellFormed := by
  unfold BitSet.set at hset
  split at hset
  · rename_i hi
    cases hset
    exact h.put hi value
  · cases hset

theorem WellFormed.remove {b b' : BitSet} {i : Nat} {removed : Bool}
    (hremove : b.remove i = .ok (removed, b')) : b'.WellFormed := by
  unfold BitSet.remove at hremove
  split at hremove
  · cases hremove
    exact .shiftDown b i
  · cases hremove

theorem len_of_set {b b' : BitSet} {i : Nat} {value : Bool} (hset : b.set i value = .ok b') :
    b'.len = b.len := by
  unfold BitSet.set at hset
  split at hset
  · cases hset
    rfl
  · cases hset

theorem len_of_remove {b b' : BitSet} {i : Nat} {removed : Bool}
    (hremove : b.remove i = .ok (removed, b')) : b'.len = b.len - 1 := by
  unfold BitSet.remove at hremove
  split at hremove
  · cases hremove
    rfl
  · cases hremove

@[simp] theorem len_read {β : Type} [BitSource β] (b : BitSet) (s : β) :
    (b.read s).2.1.len = b.len := by
  rw [BitSet.read]
  rcases BitSource.readWords s b.widths with ⟨_ | words, s'⟩ <;> rfl

theorem WellFormed.read {b : BitSet} (h : b.WellFormed) (s : BitStream) :
    (b.read s).2.1.WellFormed := by
  rw [BitSet.read, BitSource.readWords_stream]
  rcases hr : s.readWords b.widths with ⟨_ | words, s'⟩
  · exact h
  · exact h.withWords (BitStream.forall₂_lt_of_readWords hr)

/-- Every set that comes up is well-formed. -/
theorem Reachable.wellFormed {b : BitSet} (h : b.Reachable) : b.WellFormed := by
  induction h with
  | replicate len => exact .replicate len
  | ofList bits => exact .ofList bits
  | set _ hset ih => exact ih.set hset
  | clear _ ih => exact ih.clear
  | resize len _ _ => exact .resize _ len
  | remove _ hremove _ => exact .remove hremove
  | read _ _ ih => exact ih.read _

/-! ### The words on the wire -/

variable {b : BitSet}

theorem widths_eq_of_len {b b' : BitSet} (h : b.WellFormed) (h' : b'.WellFormed)
    (hlen : b'.len = b.len) : b'.widths = b.widths := by
  have hword : b'.wordWidth = b.wordWidth := by
    funext i
    rw [wordWidth, wordWidth, hlen]
  rw [widths, widths, h.size_words, h'.size_words, hlen, hword]

theorem WellFormed.length_widths (h : b.WellFormed) : b.widths.length = wordCount b.len := by
  rw [widths, List.length_map, List.length_range, h.size_words]

theorem WellFormed.cells_eq (h : b.WellFormed) : b.cells =
    (List.range (wordCount b.len)).map fun i => ⟨b.words.getD i 0, b.wordWidth i⟩ := by
  have hsize := h.size_words
  refine List.ext_getElem ?_ ?_
  · rw [cells, List.length_zipWith, h.length_widths, Array.length_toList, hsize]
    simp
  · intro i h₁ h₂
    have hi : i < b.words.size := by
      rw [hsize]
      simpa using h₂
    simp [cells, widths, hi]

/-- No word has bits outside its width. -/
theorem WellFormed.word_lt (h : b.WellFormed) (i : Nat) :
    (b.words.getD i 0).toNat < 2 ^ b.wordWidth i := by
  refine Nat.lt_pow_two_of_testBit _ ?_
  intro j hj
  by_cases hj32 : 32 ≤ j
  · exact Nat.testBit_lt_two_pow (Nat.lt_of_lt_of_le (b.words.getD i 0).toNat_lt
      (Nat.pow_le_pow_right (by omega) hj32))
  · have hfree : b.len ≤ 32 * i + j := by
      rw [wordWidth] at hj
      omega
    have htail := h.tail (32 * i + j) hfree
    have hdiv : (32 * i + j) / 32 = i := by omega
    have hmod : (32 * i + j) % 32 = j := by omega
    rwa [placeAt, hdiv, hmod] at htail

theorem width_le_of_mem_cells {c : Cell} (hc : c ∈ b.cells) : c.width ≤ maxTransferBits := by
  have hw : c.width ∈ b.widths := by
    obtain ⟨i, hi, rfl⟩ := List.mem_iff_getElem.1 hc
    simp only [cells, List.getElem_zipWith]
    exact List.getElem_mem _
  obtain ⟨i, -, hi⟩ := List.mem_map.1 hw
  rw [← hi]
  exact Nat.min_le_left ..

theorem WellFormed.map_width_cells (h : b.WellFormed) : b.cells.map Cell.width = b.widths := by
  rw [h.cells_eq, widths, h.size_words, List.map_map]
  rfl

/-- The words written are read again. -/
theorem WellFormed.map_low_cells (h : b.WellFormed) : b.cells.map Cell.low = b.words.toList := by
  refine List.ext_getElem ?_ ?_
  · rw [h.cells_eq]
    simp [h.size_words]
  · intro i h₁ h₂
    have hi : i < b.words.size := by simpa using h₂
    have hlow := Cell.low_of_lt (c := ⟨b.words.getD i 0, b.wordWidth i⟩) (h.word_lt i)
    simp only [h.cells_eq, List.getElem_map, List.getElem_range, hlow]
    simp [hi]

/-- The words read are written again. -/
theorem cells_withWords {words : List UInt32} (hlen : words.length = b.widths.length) :
    (b.withWords words).cells = List.zipWith Cell.mk words b.widths := by
  rw [widths, List.length_map, List.length_range] at hlen
  have hwidths : (b.withWords words).widths = b.widths := by
    simp only [widths, withWords, List.size_toArray, hlen]
    rfl
  rw [cells, hwidths, withWords]

end BitSet

/-- A list of bits as it is written: 32 at a time, the last of each first. -/
def flagBits (bits : List Bool) : List Bool :=
  (List.range (BitSet.wordCount bits.length)).flatMap fun i =>
    ((bits.drop (32 * i)).take 32).reverse

@[simp] theorem length_flagBits (bits : List Bool) : (flagBits bits).length = bits.length := by
  have h (m : Nat) : ((List.range m).flatMap fun i =>
      ((bits.drop (32 * i)).take 32).reverse).length = min bits.length (32 * m) := by
    -- only the last word can be short, and it ends the list
    induction m with
    | zero => simp
    | succ m ih =>
        rw [List.range_succ, List.flatMap_append, List.length_append, ih]
        simp
        omega
  rw [flagBits, h, BitSet.wordCount]
  omega

/-- The bits of a set, not its words, decide what is written. -/
theorem BitSet.WellFormed.allBits_cells {b : BitSet} (h : b.WellFormed) :
    Cell.allBits b.cells = flagBits b.toList := by
  rw [h.cells_eq, Cell.allBits, List.flatMap_map, flagBits, length_toList]
  refine List.flatMap_congr ?_
  intro i _
  have hlen : ((b.toList.drop (32 * i)).take 32).length = b.wordWidth i := by
    rw [List.length_take, List.length_drop, length_toList, wordWidth]
  refine ((Bits.eq_ofNat_iff (by rw [List.length_reverse, hlen])).2 ?_).symm
  intro j hj
  rw [List.length_reverse, hlen] at hj
  have hj32 : b.wordWidth i ≤ 32 := Nat.min_le_left ..
  have hdiv : (32 * i + (b.wordWidth i - 1 - j)) / 32 = i := by omega
  have hmod : (32 * i + (b.wordWidth i - 1 - j)) % 32 = b.wordWidth i - 1 - j := by omega
  simp only [List.getElem_reverse, List.getElem_take, List.getElem_drop, hlen]
  simp [toList, h.get_eq, placeAt, hdiv, hmod]

end WireTree
