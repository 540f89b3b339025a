import LedgerVM.Hashing.Block
import LedgerVM.Digest

/-!
# SHA-1

The message schedule, the compression step and the digest of a byte string.
-/

namespace LedgerVM.Hashing.Sha1

/-- The five working words. -/
structure State where
  (a b c d e : UInt32)

/-- The state before the first block. -/
def State.start : State := ⟨0x67452301, 0xefcdab89, 0x98badcfe, 0x10325476, 0xc3d2e1f0⟩

/-- Adds one word to a message schedule. -/
def extend (w : Array UInt32) : Array UInt32 :=
  let n := w.size
  let back (k : Nat) : UInt32 := w.getD (n - k) 0
  w.push (rotateLeft (back 3 ^^^ back 8 ^^^ back 14 ^^^ back 16) 1)

/-- The mixing function of round `t` together with its constant. -/
def mix (t : Nat) (b c d : UInt32) : UInt32 :=
  if t < 20 then ((b &&& c) ||| (~~~b &&& d)) + 0x5a827999
  else if t < 40 then (b ^^^ c ^^^ d) + 0x6ed9eba1
  else if t < 60 then ((b &&& c) ||| (b &&& d) ||| (c &&& d)) + 0x8f1bbcdc
  else (b ^^^ c ^^^ d) + 0xca62c1d6

/-- Round `t` with its schedule word. -/
def round (s : State) (wt : UInt32 × Nat) : State :=
  let w := rotateLeft s.a 5 + mix wt.2 s.b s.c s.d + s.e + wt.1
  ⟨w, s.a, rotateLeft s.b 30, s.c, s.d⟩

/-- Works one block into the state. -/
def compress (s : State) (block : List UInt32) : State :=
  let r := ((Nat.repeat extend 64 block.toArray).toList.zipIdx).foldl round s
  ⟨s.a + r.a, s.b + r.b, s.c + r.c, s.d + r.d, s.e + r.e⟩

/-- The words of a state, in order. -/
def State.words (s : State) : List UInt32 := [s.a, s.b, s.c, s.d, s.e]

end Sha1

/-- The SHA-1 digest of a byte string. -/
def sha1 (message : Bytes) : Hash160 :=
  let s := digest .bigEndian Sha1.compress .start message
  ⟨s.words.flatMap ByteOrder.bigEndian.wordBytes, by simp [Sha1.State.words]⟩

end LedgerVM.Hashing
