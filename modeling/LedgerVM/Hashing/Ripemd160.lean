import LedgerVM.Hashing.Block
import LedgerVM.Digest

/-!
# RIPEMD-160

Two lines of eighty rounds run over the same block in different word orders and are joined at its
end.
-/

namespace LedgerVM.Hashing.Ripemd160

/-- The five working words. -/
structure State where
  (a b c d e : UInt32)

/-- The state before the first block. -/
def State.start : State := ⟨0x67452301, 0xefcdab89, 0x98badcfe, 0x10325476, 0xc3d2e1f0⟩

/-- What the rounds of one line need: the word order, the rotations, and for each group of sixteen
rounds the mixing function and the constant. -/
structure Line where
  order : List Nat
  rotations : List UInt32
  mixings : List Nat
  constants : List UInt32

/-- The left line. -/
def Line.left : Line where
  order :=
    [0, 1, 2, 3, 4, 5, 6, 7, 8, 9, 10, 11, 12, 13, 14, 15,
      7, 4, 13, 1, 10, 6, 15, 3, 12, 0, 9, 5, 2, 14, 11, 8,
      3, 10, 14, 4, 9, 15, 8, 1, 2, 7, 0, 6, 13, 11, 5, 12,
      1, 9, 11, 10, 0, 8, 12, 4, 13, 3, 7, 15, 14, 5, 6, 2,
      4, 0, 5, 9, 7, 12, 2, 10, 14, 1, 3, 8, 11, 6, 15, 13]
  rotations :=
    [11, 14, 15, 12, 5, 8, 7, 9, 11, 13, 14, 15, 6, 7, 9, 8,
      7, 6, 8, 13, 11, 9, 7, 15, 7, 12, 15, 9, 11, 7, 13, 12,
      11, 13, 6, 7, 14, 9, 13, 15, 14, 8, 13, 6, 5, 12, 7, 5,
      11, 12, 14, 15, 14, 15, 9, 8, 9, 14, 5, 6, 8, 6, 5, 12,
      9, 15, 5, 11, 6, 8, 13, 12, 5, 12, 13, 14, 11, 8, 5, 6]
  mixings := [0, 1, 2, 3, 4]
  constants := [0x00000000, 0x5a827999, 0x6ed9eba1, 0x8f1bbcdc, 0xa953fd4e]

/-- The right line. -/
def Line.right : Line where
  order :=
    [5, 14, 7, 0, 9, 2, 11, 4, 13, 6, 15, 8, 1, 10, 3, 12,
      6, 11, 3, 7, 0, 13, 5, 10, 14, 15, 8, 12, 4, 9, 1, 2,
      15, 5, 1, 3, 7, 14, 6, 9, 11, 8, 12, 2, 10, 0, 4, 13,
      8, 6, 4, 1, 3, 11, 15, 0, 5, 12, 2, 13, 9, 7, 10, 14,
      12, 15, 10, 4, 1, 5, 8, 7, 6, 2, 13, 14, 0, 3, 9, 11]
  rotations :=
    [8, 9, 9, 11, 13, 15, 15, 5, 7, 7, 8, 11, 14, 14, 12, 6,
      9, 13, 15, 7, 12, 8, 9, 11, 7, 7, 12, 7, 6, 15, 13, 11,
      9, 7, 15, 11, 8, 6, 6, 14, 12, 13, 5, 14, 13, 13, 7, 5,
      15, 5, 8, 11, 14, 14, 6, 14, 6, 9, 12, 9, 12, 5, 15, 8,
      8, 5, 12, 9, 12, 5, 14, 6, 8, 13, 6, 5, 15, 13, 11, 11]
  mixings := [4, 3, 2, 1, 0]
  constants := [0x50a28be6, 0x5c4dd124, 0x6d703ef3, 0x7a6d76e9, 0x00000000]

/-- The five mixing functions. -/
def mix : Nat → UInt32 → UInt32 → UInt32 → UInt32
  | 0, x, y, z => x ^^^ y ^^^ z
  | 1, x, y, z => (x &&& y) ||| (~~~x &&& z)
  | 2, x, y, z => (x ||| ~~~y) ^^^ z
  | 3, x, y, z => (x &&& z) ||| (y &&& ~~~z)
  | _, x, y, z => x ^^^ (y ||| ~~~z)

/-- One round: the mixing function and constant of its group, its word and its rotation. -/
def round (s : State) (mixing : Nat) (constant word rotation : UInt32) : State :=
  let t := rotateLeft (s.a + mix mixing s.b s.c s.d + word + constant) rotation + s.e
  ⟨s.e, t, s.b, rotateLeft s.c 10, s.d⟩

/-- Runs all rounds of one line over a block. -/
def Line.run (line : Line) (s : State) (block : Array UInt32) : State :=
  ((line.order.zip line.rotations).zipIdx).foldl (fun s step =>
    let group := step.2 / 16
    round s (line.mixings.getD group 0) (line.constants.getD group 0) (block.getD step.1.1 0)
      step.1.2) s

/-- Works one block into the state. -/
def compress (s : State) (block : List UInt32) : State :=
  let l := Line.left.run s block.toArray
  let r := Line.right.run s block.toArray
  ⟨s.b + l.c + r.d, s.c + l.d + r.e, s.d + l.e + r.a, s.e + l.a + r.b, s.a + l.b + r.c⟩

/-- The words of a state, in order. -/
def State.words (s : State) : List UInt32 := [s.a, s.b, s.c, s.d, s.e]

end Ripemd160

/-- The RIPEMD-160 digest of a byte string. -/
def ripemd160 (message : Bytes) : Hash160 :=
  let s := digest .littleEndian Ripemd160.compress .start message
  ⟨s.words.flatMap ByteOrder.littleEndian.wordBytes, by simp [Ripemd160.State.words]⟩

end LedgerVM.Hashing
