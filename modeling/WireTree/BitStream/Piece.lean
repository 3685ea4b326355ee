/-
**Cutting a transfer at byte boundaries.**

A transfer moves a few consecutive bits of a stream.  The bytes of the stream cut it into
*pieces*, each of at most eight bits and each inside one byte.  Reading and writing are loops over
the same pieces: reading takes them out of their bytes and strings them together, writing cuts
the value in the same places and lays the pieces into their bytes.

Main definitions:

* `WireTree.Piece` — the part of a transfer that falls into one byte;
* `WireTree.pieces` — the pieces of a transfer, in order;
* `WireTree.Piece.extract`, `WireTree.Piece.select`, `WireTree.Piece.deposit` — the bits of a
  piece in its byte, in the value that is moved, and back in the byte.

Main results:

* `WireTree.mem_pieces` — every piece has between one and eight bits, lies inside its byte, and
  its byte is one of those that the transfer touches;
* `WireTree.sum_width_pieces` — the pieces make up the whole transfer.
-/

import WireTree.Words

set_option relaxedAutoImplicit false
set_option autoImplicit false

namespace WireTree

/-- The part of a transfer that falls into one byte. -/
structure Piece where
  /-- The byte it falls into. -/
  index : Nat
  /-- The number of bits of that byte below the piece. -/
  shift : Nat
  /-- The number of bits of the piece. -/
  width : Nat
  /-- The number of bits of the transfer that come after the piece. -/
  below : Nat
deriving DecidableEq

/-- The first piece of a transfer of `count` bits from bit position `start` on. -/
def Piece.first (start count : Nat) : Piece :=
  let free := 8 - start % 8
  let take := min free count
  ⟨start / 8, free - take, take, count - take⟩

/-- At most `fuel` pieces of a transfer; as every piece has a bit, `count` of them are enough. -/
def piecesUpTo : (fuel start count : Nat) → List Piece
  | 0, _, _ => []
  | fuel + 1, start, count =>
    if count = 0 then []
    else
      let p := Piece.first start count
      p :: piecesUpTo fuel (start + p.width) p.below

/-- The pieces of a transfer of `count` bits from bit position `start` on, in order. -/
def pieces (start count : Nat) : List Piece := piecesUpTo count start count

namespace Piece

/-- The bits of the piece, in the low bits of a word. -/
def mask (p : Piece) : UInt32 := (1 <<< UInt32.ofNat p.width) - 1

/-- The bits of the piece as they stand in its byte. -/
def extract (p : Piece) (data : Array UInt8) : UInt32 :=
  ((data.getD p.index 0).toUInt32 >>> UInt32.ofNat p.shift) &&& p.mask

/-- The bits of the piece as they stand in the value that is moved. -/
def select (p : Piece) (value : UInt32) : UInt32 := (value >>> UInt32.ofNat p.below) &&& p.mask

/-- Adds the bits of the piece to its byte, whose bits at that place are taken to be zero. -/
def deposit (p : Piece) (value : UInt32) (data : Array UInt8) : Array UInt8 :=
  data.modify p.index (· ||| (p.select value <<< UInt32.ofNat p.shift).toUInt8)

@[simp] theorem size_deposit (p : Piece) (value : UInt32) (data : Array UInt8) :
    (p.deposit value data).size = data.size := by simp [deposit]

end Piece

@[simp] theorem pieces_zero (start : Nat) : pieces start 0 = [] := rfl

theorem mem_piecesUpTo {fuel start count : Nat} {p : Piece} (hp : p ∈ piecesUpTo fuel start count) :
    0 < p.width ∧ p.shift + p.width ≤ 8 ∧ p.below + p.width ≤ count ∧
      start / 8 ≤ p.index ∧ p.index < (start + count + 7) / 8 := by
  induction fuel generalizing start count with
  | zero => simp [piecesUpTo] at hp
  | succ fuel ih =>
    rw [piecesUpTo] at hp
    split at hp
    · simp at hp
    · rcases List.mem_cons.1 hp with h | h
      · subst h
        simp only [Piece.first]
        omega
      · have h := ih h
        simp only [Piece.first] at h
        omega

/-- Every piece has between one and eight bits and lies inside its byte, and its byte is one of
those that the transfer touches. -/
theorem mem_pieces {start count : Nat} {p : Piece} (hp : p ∈ pieces start count) :
    0 < p.width ∧ p.shift + p.width ≤ 8 ∧ p.below + p.width ≤ count ∧
      start / 8 ≤ p.index ∧ p.index < (start + count + 7) / 8 :=
  mem_piecesUpTo hp

theorem sum_width_piecesUpTo {fuel start count : Nat} (h : count ≤ fuel) :
    ((piecesUpTo fuel start count).map Piece.width).sum = count := by
  induction fuel generalizing start count with
  | zero => simp [piecesUpTo]; omega
  | succ fuel ih =>
    rw [piecesUpTo]
    split
    · simp_all
    · have hlt : (Piece.first start count).below ≤ fuel := by simp only [Piece.first]; omega
      simp only [List.map_cons, List.sum_cons, ih hlt]
      simp only [Piece.first]
      omega

/-- The pieces make up the whole transfer. -/
theorem sum_width_pieces (start count : Nat) :
    ((pieces start count).map Piece.width).sum = count :=
  sum_width_piecesUpTo (Nat.le_refl count)

end WireTree
