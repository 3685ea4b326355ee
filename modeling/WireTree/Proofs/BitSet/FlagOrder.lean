/-
**The order of flags on the wire.**

A list of flags is cut into pieces of 32, the last one perhaps shorter, and each piece is written
with its last flag first.  So the flag behind 32 others begins the second piece, the place of a flag
on the wire depends on the number of flags only if it stands in the last piece, and writing the
flags in wire order a second time puts them back in order.  A reader takes one piece after the
other: it gets all of them, or stops at the first that is not there as a whole.

Main definitions:

* `WireTree.flagPlace` — the place of a flag on the wire;
* `WireTree.BitSet.pieceWidths` — the lengths of the pieces.

Main results:

* `WireTree.getElem_flagBits` — which flag stands at which place;
* `WireTree.flagBits_flagBits` — wire order taken twice is the order itself;
* `WireTree.BitSet.WellFormed.count_eq` — the bits counted word by word are the flags that are set;
* `WireTree.BitSet.exists_readWords_pieceWidths`,
  `WireTree.BitSet.readWords_pieceWidths_of_lt` — which reads of flags go through, and where the
  others stop.
-/

import WireTree.Proofs.BitSet.Bits

set_option relaxedAutoImplicit false
set_option autoImplicit false

namespace WireTree

/-! ### Pieces of 32 -/

/-- No more flags than a word holds are written last one first. -/
theorem flagBits_of_length_le {bits : List Bool} (h : bits.length ≤ 32) :
    flagBits bits = bits.reverse := by
  rcases Nat.eq_zero_or_pos bits.length with h0 | h0
  · rw [List.length_eq_zero_iff.1 h0]
    rfl
  · have hcount : BitSet.wordCount bits.length = 1 := by
      rw [BitSet.wordCount]
      omega
    rw [flagBits, hcount]
    simp [List.take_of_length_le h]

/-- A full word comes before the flags behind it. -/
theorem flagBits_append {word : List Bool} (h : word.length = 32) (rest : List Bool) :
    flagBits (word ++ rest) = word.reverse ++ flagBits rest := by
  have hcount : BitSet.wordCount (word ++ rest).length = BitSet.wordCount rest.length + 1 := by
    rw [List.length_append, h, BitSet.wordCount, BitSet.wordCount]
    omega
  have hdrop (i : Nat) : (word ++ rest).drop (32 * (i + 1)) = rest.drop (32 * i) := by
    rw [List.drop_append, List.drop_of_length_le (by omega), h, List.nil_append]
    congr 1
  rw [flagBits, hcount, List.range_succ_eq_map, List.flatMap_cons, List.flatMap_map]
  congr 1
  · rw [Nat.mul_zero, List.drop_zero, ← h, List.take_left]
  · exact List.flatMap_congr fun i _ => by rw [Nat.succ_eq_add_one, hdrop]

/-- What holds of at most 32 flags, and of more if it holds of those behind the first 32, holds of
every list of flags. -/
theorem flags_induction {P : List Bool → Prop} (short : ∀ bits, bits.length ≤ 32 → P bits)
    (append : ∀ word rest, word.length = 32 → P rest → P (word ++ rest)) (bits : List Bool) :
    P bits := by
  induction hn : bits.length using Nat.strongRecOn generalizing bits with
  | ind n ih =>
      by_cases h : bits.length ≤ 32
      · exact short bits h
      · rw [← List.take_append_drop 32 bits]
        refine append _ _ (by rw [List.length_take]; omega) (ih (n - 32) (by omega) _ ?_)
        rw [List.length_drop, hn]

/-! ### Which flag stands where -/

/-- The place on the wire of flag `i` of `n`: in its piece the last flag comes first. -/
def flagPlace (n i : Nat) : Nat := 32 * (i / 32) + (min 32 (n - 32 * (i / 32)) - 1 - i % 32)

/-- A flag is written after all later flags of its piece. -/
theorem flagPlace_lt_of_lt {n i j : Nat} (hij : i < j) (hj : j < n) (hword : i / 32 = j / 32) :
    flagPlace n j < flagPlace n i := by
  rw [flagPlace, flagPlace, hword]
  omega

theorem flagPlace_lt {n i : Nat} (h : i < n) : flagPlace n i < n := by
  rw [flagPlace]
  omega

theorem flagPlace_flagPlace {n i : Nat} (h : i < n) : flagPlace n (flagPlace n i) = i := by
  simp only [flagPlace]
  omega

theorem getElem?_flagBits {bits : List Bool} {i : Nat} (h : i < bits.length) :
    (flagBits bits)[i]? = bits[flagPlace bits.length i]? := by
  induction bits using flags_induction generalizing i with
  | short bits hlen =>
      rw [flagBits_of_length_le hlen, List.getElem?_reverse h, flagPlace]
      congr 1
      omega
  | append word rest hword ih =>
      rw [flagBits_append hword]
      rw [List.length_append, hword] at h
      by_cases hi : i < 32
      · -- the first piece is a whole word
        have hplace : flagPlace (word ++ rest).length i = word.length - 1 - i := by
          rw [flagPlace, List.length_append, hword]
          omega
        have hlt : word.length - 1 - i < word.length := by omega
        rw [hplace, List.getElem?_append_left (by simp; omega), List.getElem?_append_left hlt,
          List.getElem?_reverse (by omega)]
      · have hplace : flagPlace (word ++ rest).length i =
            word.length + flagPlace rest.length (i - 32) := by
          rw [flagPlace, flagPlace, List.length_append, hword]
          omega
        rw [hplace, List.getElem?_append_right (by simp; omega), List.length_reverse,
          List.getElem?_append_right (by omega), Nat.add_sub_cancel_left, hword,
          ih (by omega)]

/-- The flag at index `i` of the list is found at its place on the wire. -/
theorem getElem_flagBits {bits : List Bool} {i : Nat} (h : i < bits.length) :
    (flagBits bits)[flagPlace bits.length i]? = bits[i]? := by
  rw [getElem?_flagBits (flagPlace_lt h), flagPlace_flagPlace h]

/-- Wire order taken twice is the order itself. -/
@[simp] theorem flagBits_flagBits (bits : List Bool) : flagBits (flagBits bits) = bits := by
  induction bits using flags_induction with
  | short bits h =>
      rw [flagBits_of_length_le h, flagBits_of_length_le (by rwa [List.length_reverse]),
        List.reverse_reverse]
  | append word rest h ih =>
      rw [flagBits_append h, flagBits_append (by rwa [List.length_reverse]), List.reverse_reverse,
        ih]

theorem flagBits_perm (bits : List Bool) : (flagBits bits).Perm bits := by
  induction bits using flags_induction with
  | short bits h =>
      rw [flagBits_of_length_le h]
      exact List.reverse_perm bits
  | append word rest h ih =>
      rw [flagBits_append h]
      exact (List.reverse_perm word).append ih

/-! ### Counting -/

/-- Bits above the width of a number are clear, however many of them are looked at. -/
theorem Bits.count_ofNat_of_lt {n width m : Nat} (h : n < 2 ^ width) (hm : width ≤ m) :
    (ofNat m n).count true = (ofNat width n).count true := by
  obtain ⟨above, rfl⟩ := Nat.exists_eq_add_of_le hm
  induction above with
  | zero => rfl
  | succ above ih =>
      have hpow : 2 ^ width ≤ 2 ^ (width + above) := Nat.pow_le_pow_right (by omega) (by omega)
      have hclear : n.testBit (width + above) = false :=
        Nat.testBit_lt_two_pow (Nat.lt_of_lt_of_le h hpow)
      rw [← Nat.add_assoc, ofNat, hclear, List.count_cons_of_ne (by decide), ih (by omega)]

/-- The set bits of the number of a cell are those of its word on the wire. -/
theorem Cell.count_low {c : Cell} (h : c.width ≤ 32) :
    (Bits.ofNat 32 c.low.toNat).count true = c.bits.count true := by
  have hpow : 2 ^ c.width ≤ 2 ^ 32 := Nat.pow_le_pow_right (by omega) h
  have hmod : c.word.toNat % 2 ^ c.width < 2 ^ c.width := Nat.mod_lt _ (Nat.two_pow_pos _)
  have hlow : c.low.toNat = c.word.toNat % 2 ^ c.width := by
    rw [Cell.low, UInt32.toNat_ofNat', Nat.mod_eq_of_lt (by omega)]
  rw [hlow, Bits.count_ofNat_of_lt hmod h, Bits.ofNat_mod _ _ (Nat.le_refl _), Cell.bits]

theorem Cell.foldl_count (cells : List Cell) (hw : ∀ c ∈ cells, c.width ≤ 32) (n : Nat) :
    (cells.map Cell.low).foldl (fun n word => n + (Bits.ofNat 32 word.toNat).count true) n =
      n + (Cell.allBits cells).count true := by
  induction cells generalizing n with
  | nil => rfl
  | cons c cells ih =>
      obtain ⟨hc, hcells⟩ := List.forall_mem_cons.1 hw
      rw [List.map_cons, List.foldl_cons, ih hcells, Cell.count_low hc, Cell.allBits_cons,
        List.count_append, Nat.add_assoc]

/-- A run of words whose first is not there takes nothing. -/
theorem BitStream.readWords_of_remaining_lt {s : BitStream} {width : Nat} {widths : List Nat}
    (hw : width ≤ maxTransferBits) (h : s.remaining < width) :
    s.readWords (width :: widths) = (.error (.underrun width s.remaining), s) := by
  rw [readWords_cons, readBits_of_remaining_lt hw h]

namespace BitSet

variable {b : BitSet} {s : BitStream}

/-- The bits counted word by word are the flags that are set. -/
theorem WellFormed.count_eq (h : b.WellFormed) : b.count = b.toList.count true := by
  rw [count, ← Array.foldl_toList, ← h.map_low_cells,
    Cell.foldl_count _ (fun c hc => width_le_of_mem_cells hc), Nat.zero_add, h.allBits_cells,
    (flagBits_perm b.toList).count_eq]

/-! ### Reading pieces -/

/-- The lengths of the pieces that `len` flags are cut into. -/
def pieceWidths (len : Nat) : List Nat :=
  (List.range (wordCount len)).map fun i => min 32 (len - 32 * i)

theorem WellFormed.widths_eq (h : b.WellFormed) : b.widths = pieceWidths b.len := by
  rw [widths, pieceWidths, h.size_words]
  rfl

theorem pieceWidths_of_lt {len : Nat} (h : 32 < len) :
    pieceWidths len = 32 :: pieceWidths (len - 32) := by
  have hcount : wordCount len = wordCount (len - 32) + 1 := by
    rw [wordCount, wordCount]
    omega
  rw [pieceWidths, hcount, List.range_succ_eq_map, List.map_cons, List.map_map, pieceWidths]
  congr 1
  · omega
  · refine List.map_congr_left ?_
    intro i _
    simp only [Function.comp_apply]
    omega

theorem pieceWidths_of_le {len : Nat} (h : len ≤ 32) (h0 : len ≠ 0) : pieceWidths len = [len] := by
  have hcount : wordCount len = 1 := by
    rw [wordCount]
    omega
  rw [pieceWidths, hcount]
  simp [Nat.min_eq_right h]

/-- Flags that are all there are taken. -/
theorem exists_readWords_pieceWidths {len : Nat} (h : len ≤ s.remaining) :
    ∃ words, s.readWords (pieceWidths len) = (.ok words, s.advance len) := by
  -- one piece after the other, by induction on the flags that are left
  induction len using Nat.strongRecOn generalizing s with
  | ind len ih =>
      rcases Nat.eq_zero_or_pos len with rfl | h0
      · exact ⟨[], rfl⟩
      · by_cases hlast : len ≤ 32
        · rw [pieceWidths_of_le hlast (by omega)]
          exact ⟨_, BitStream.readWords_cons_eq_ok_iff.2
            ⟨_, _, [], BitStream.readBits_of_le hlast h, rfl, rfl⟩⟩
        · have hadd : 32 + (len - 32) = len := by omega
          obtain ⟨words, hwords⟩ := ih (len - 32) (by omega) (s := s.advance 32)
            (by rw [BitStream.remaining_advance]; omega)
          rw [BitStream.advance_advance, hadd] at hwords
          rw [pieceWidths_of_lt (by omega)]
          exact ⟨_, BitStream.readWords_cons_eq_ok_iff.2
            ⟨_, _, words, BitStream.readBits_of_le (by decide) (by omega), hwords, rfl⟩⟩

/-- If some flags are missing, the pieces that are there as a whole are taken and the next one is
missed. -/
theorem readWords_pieceWidths_of_lt {len : Nat} (h : s.remaining < len) :
    s.readWords (pieceWidths len) =
      (.error (.underrun (min 32 (len - 32 * (s.remaining / 32))) (s.remaining % 32)),
        s.advance (32 * (s.remaining / 32))) := by
  induction len using Nat.strongRecOn generalizing s with
  | ind len ih =>
      by_cases hfirst : s.remaining < 32
      · -- the first piece is missed already
        rw [Nat.div_eq_of_lt hfirst, Nat.mod_eq_of_lt hfirst, Nat.mul_zero, Nat.sub_zero]
        by_cases hlast : len ≤ 32
        · rw [pieceWidths_of_le hlast (by omega), BitStream.readWords_of_remaining_lt hlast h,
            Nat.min_eq_right hlast]
          rfl
        · rw [pieceWidths_of_lt (by omega),
            BitStream.readWords_of_remaining_lt (by decide) hfirst, Nat.min_eq_left (by omega)]
          rfl
      · have hrest := ih (len - 32) (by omega) (s := s.advance 32)
          (by rw [BitStream.remaining_advance]; omega)
        have hdiv : (s.remaining - 32) / 32 = s.remaining / 32 - 1 := by omega
        have hmod : (s.remaining - 32) % 32 = s.remaining % 32 := by omega
        have hsub : len - 32 - 32 * (s.remaining / 32 - 1) = len - 32 * (s.remaining / 32) := by
          omega
        have hadd : 32 + 32 * (s.remaining / 32 - 1) = 32 * (s.remaining / 32) := by omega
        have hword : s.readBits 32 = (.ok (s.peek 32), s.advance 32) :=
          BitStream.readBits_of_le (by decide) (by omega)
        rw [BitStream.remaining_advance, hdiv, hmod, hsub, BitStream.advance_advance, hadd] at hrest
        rw [pieceWidths_of_lt (by omega), BitStream.readWords_cons, hword]
        simp only [hrest]

end BitSet

end WireTree
