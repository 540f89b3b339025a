/-!
# The curve secp256k1

The curve `y² = x³ + 7` over the field of `p` elements, with field elements as natural numbers below
`p`.  Points are kept in Jacobian coordinates while they are added, so that a multiple of a point
costs one inversion at its end: `(x, y, z)` with `z ≠ 0` stands for the affine point
`(x / z², y / z³)`, and `z = 0` for infinity.
-/

namespace LedgerVM.Signature

/-- The size of the field. -/
def fieldSize : Nat := Nat.pow 2 256 - Nat.pow 2 32 - 977

/-- The number of points of the curve, a prime. -/
def order : Nat := 0xfffffffffffffffffffffffffffffffebaaedce6af48a03bbfd25e8cd0364141

/-- Raises `b` to a power modulo `m` by repeated squaring; `fuel` bounds the number of bits of the
exponent. -/
def powMod (m : Nat) : (fuel b e : Nat) → Nat
  | 0, _, _ => 1 % m
  | fuel + 1, b, e =>
    if e = 0 then 1 % m
    else
      let half := powMod m fuel (b * b % m) (e / 2)
      if e % 2 = 1 then half * b % m else half

/-- The inverse modulo a prime of 256 bits, by Fermat's little theorem; zero has none and gives
zero. -/
def invMod (m b : Nat) : Nat := powMod m 256 (b % m) (m - 2)

/-- The sum of field elements. -/
def fieldAdd (a b : Nat) : Nat := (a + b) % fieldSize

/-- The difference of field elements. -/
def fieldSub (a b : Nat) : Nat := (a + fieldSize - b % fieldSize) % fieldSize

/-- The product of field elements. -/
def fieldMul (a b : Nat) : Nat := a * b % fieldSize

/-- An affine point of the plane over the field. -/
structure AffinePoint where
  (x y : Nat)

/-- The point lies on the curve, with both coordinates reduced. -/
def AffinePoint.isOnCurve (p : AffinePoint) : Bool :=
  p.x < fieldSize && p.y < fieldSize &&
    fieldMul p.y p.y == fieldAdd (fieldMul (fieldMul p.x p.x) p.x) 7

/-- The point with abscissa `x` whose ordinate is odd or even as asked, if `x` belongs to the
curve. -/
def AffinePoint.ofAbscissa? (x : Nat) (odd : Bool) : Option AffinePoint :=
  if x < fieldSize then
    let root := powMod fieldSize 256 (fieldAdd (fieldMul (fieldMul x x) x) 7) ((fieldSize + 1) / 4)
    let y := if (root % 2 == 1) == odd then root else fieldSub 0 root
    let p : AffinePoint := ⟨x, y⟩
    if p.isOnCurve then some p else none
  else none

/-- A point in Jacobian coordinates. -/
structure Point where
  (x y z : Nat)

namespace Point

/-- The point at infinity. -/
def infinity : Point := ⟨1, 1, 0⟩

/-- The point with the given affine coordinates. -/
def ofAffine (p : AffinePoint) : Point := ⟨p.x, p.y, 1⟩

/-- The generator of the curve's group. -/
def generator : Point :=
  ofAffine ⟨0x79be667ef9dcbbac55a06295ce870b07029bfcdb2dce28d959f2815b16f81798,
    0x483ada7726a3c4655da4fbfc0e1108a8fd17b448a68554199c47d08ffb10d4b8⟩

/-- Twice a point. -/
def double (p : Point) : Point :=
  if p.z = 0 || p.y = 0 then infinity
  else
    let yy := fieldMul p.y p.y
    let s := fieldMul 4 (fieldMul p.x yy)
    let m := fieldMul 3 (fieldMul p.x p.x)
    let x := fieldSub (fieldMul m m) (fieldAdd s s)
    ⟨x, fieldSub (fieldMul m (fieldSub s x)) (fieldMul 8 (fieldMul yy yy)),
      fieldMul 2 (fieldMul p.y p.z)⟩

/-- The sum of two points. -/
def add (p q : Point) : Point :=
  if p.z = 0 then q
  else if q.z = 0 then p
  else
    let pz := fieldMul p.z p.z
    let qz := fieldMul q.z q.z
    let u1 := fieldMul p.x qz
    let u2 := fieldMul q.x pz
    let s1 := fieldMul p.y (fieldMul qz q.z)
    let s2 := fieldMul q.y (fieldMul pz p.z)
    if u1 = u2 then
      if s1 = s2 then double p else infinity
    else
      let h := fieldSub u2 u1
      let r := fieldSub s2 s1
      let hh := fieldMul h h
      let hhh := fieldMul hh h
      let v := fieldMul u1 hh
      let x := fieldSub (fieldSub (fieldMul r r) hhh) (fieldAdd v v)
      ⟨x, fieldSub (fieldMul r (fieldSub v x)) (fieldMul s1 hhh), fieldMul h (fieldMul p.z q.z)⟩

/-- The sum of `j` times `p` and `k` times `q`, reading both multipliers bit by bit from bit
`bits - 1` down. -/
def combine (p q : Point) (j k : Nat) : (bits : Nat) → Point → Point
  | 0, acc => acc
  | bit + 1, acc =>
    let acc := acc.double
    let acc := if j.testBit bit then acc.add p else acc
    let acc := if k.testBit bit then acc.add q else acc
    combine p q j k bit acc

/-- The affine abscissa of a point, none at infinity. -/
def abscissa? (p : Point) : Option Nat :=
  if p.z = 0 then none
  else
    let w := invMod fieldSize p.z
    some (fieldMul p.x (fieldMul w w))

end Point
end LedgerVM.Signature
