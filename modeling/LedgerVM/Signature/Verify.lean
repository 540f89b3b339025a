import LedgerVM.Signature.Curve
import LedgerVM.Hashing.Sha256

/-!
# Signature checks

A signature is 64 bytes, `r` before `s`, both big-endian, over the SHA-256 digest of the message.  A
malformed key or signature is a failed check, as is a signature whose `s` lies in the upper half of
its range.
-/

namespace LedgerVM.Signature

/-- The number with these big-endian bytes. -/
def ofBigEndian (bs : Bytes) : Nat := Bytes.toNat bs.reverse

/-- Reads a public key: 02 or 03 and an abscissa (even or odd ordinate), 05 and an abscissa (even
ordinate), or 04 and both coordinates.  The point must lie on the curve. -/
def publicKey? : Bytes → Option AffinePoint
  | 0x02 :: x => if x.length = 32 then AffinePoint.ofAbscissa? (ofBigEndian x) false else none
  | 0x03 :: x => if x.length = 32 then AffinePoint.ofAbscissa? (ofBigEndian x) true else none
  | 0x05 :: x => if x.length = 32 then AffinePoint.ofAbscissa? (ofBigEndian x) false else none
  | 0x04 :: xy =>
    if xy.length = 64 then
      let p : AffinePoint := ⟨ofBigEndian (xy.take 32), ofBigEndian (xy.drop 32)⟩
      if p.isOnCurve then some p else none
    else none
  | _ => none

/-- Reads the two numbers of a signature, each between 1 and one below the group's order. -/
def scalars? (signature : Bytes) : Option (Nat × Nat) :=
  if signature.length = 64 then
    let r := ofBigEndian (signature.take 32)
    let s := ofBigEndian (signature.drop 32)
    if 0 < r && r < order && 0 < s && s < order then some (r, s) else none
  else none

/-- Whether `signature` is the key's signature of `message`. -/
def verify (message signature publicKey : Bytes) : Bool :=
  match publicKey? publicKey, scalars? signature with
  | some key, some (r, s) =>
    if order / 2 < s then false
    else
      let w := invMod order s
      let digest := ofBigEndian (Hashing.sha256 message).bytes
      let sum := Point.combine .generator (.ofAffine key) (digest % order * w % order)
        (r * w % order) 256 .infinity
      match sum.abscissa? with
      | some x => x % order == r
      | none => false
  | _, _ => false

end LedgerVM.Signature
