import LedgerVM.Bytes.Basic

/-!
# Block-wise hashing

The hash functions of this library cut a padded message into blocks of 64 bytes, four bytes to a
word, and fold a compression step over the blocks.  They differ in the order of bytes in a word and
in the step itself.
-/

namespace LedgerVM.Hashing

/-- The order of bytes in a word and in the length field. -/
inductive ByteOrder where
  | littleEndian
  | bigEndian

/-- Bytes given lowest first, put into the order of the hash function. -/
def ByteOrder.arrange : ByteOrder → Bytes → Bytes
  | .littleEndian, bs => bs
  | .bigEndian, bs => bs.reverse

/-- The word with these four bytes. -/
def ByteOrder.word (order : ByteOrder) (a b c d : UInt8) : UInt32 :=
  match order with
  | .littleEndian => a.toUInt32 ||| b.toUInt32 <<< 8 ||| c.toUInt32 <<< 16 ||| d.toUInt32 <<< 24
  | .bigEndian => d.toUInt32 ||| c.toUInt32 <<< 8 ||| b.toUInt32 <<< 16 ||| a.toUInt32 <<< 24

/-- The words of a byte string whose length is a multiple of four. -/
def ByteOrder.words (order : ByteOrder) : Bytes → List UInt32
  | a :: b :: c :: d :: rest => order.word a b c d :: order.words rest
  | _ => []

/-- The bytes of a word. -/
def ByteOrder.wordBytes (order : ByteOrder) (w : UInt32) : Bytes :=
  order.arrange (Bytes.ofNat 4 w.toNat)

@[simp] theorem ByteOrder.length_wordBytes (order : ByteOrder) (w : UInt32) :
    (order.wordBytes w).length = 4 := by
  cases order <;> simp [wordBytes, arrange]

/-- The message followed by the byte 0x80, zeros up to eight bytes short of a multiple of 64, and
the message's length in bits. -/
def pad (order : ByteOrder) (message : Bytes) : Bytes :=
  let size := message.length
  message ++ 0x80 :: List.replicate ((119 - size % 64) % 64) 0 ++
    order.arrange (Bytes.ofNat 8 (size * 8))

/-- Folds a step over `count` blocks of 64 bytes. -/
def foldBlocks {σ : Type} (step : σ → Bytes → σ) : (count : Nat) → σ → Bytes → σ
  | 0, state, _ => state
  | count + 1, state, bs => foldBlocks step count (step state (bs.take 64)) (bs.drop 64)

/-- Runs a compression step over the padded message. -/
def digest {σ : Type} (order : ByteOrder) (step : σ → List UInt32 → σ) (start : σ)
    (message : Bytes) : σ :=
  let padded := pad order message
  foldBlocks (fun state block => step state (order.words block)) (padded.length / 64) start padded

/-- Rotates a word to the left. -/
def rotateLeft (w : UInt32) (n : UInt32) : UInt32 := w <<< n ||| w >>> (32 - n)

/-- Rotates a word to the right. -/
def rotateRight (w : UInt32) (n : UInt32) : UInt32 := w >>> n ||| w <<< (32 - n)

end LedgerVM.Hashing
