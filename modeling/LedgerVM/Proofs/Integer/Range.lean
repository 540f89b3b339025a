import LedgerVM.Operator.Arithmetic
import LedgerVM.Proofs.Machine.Range
import Mathlib.Data.Rat.Floor

/-!
# Bits, quotients and shifts of integers in range

Bitwise operations are known by what they do at every place of the infinite two's complement, division by the integer
part of the rational quotient, and a shift by the product with a power of two, rounded down.  None of them leaves the
range of integers, but for the least integer divided by `-1` (`inRange_tdiv`) and shifts to the left.
-/

namespace LedgerVM

/-! ### Bits -/

namespace Integer

variable {i j : Int} {place : Nat}

/-- An integer has a one at a place of its infinite two's complement: it is odd without the digits below. -/
def HasBit (i : Int) (place : Nat) : Prop := i / 2 ^ place % 2 = 1

theorem hasBit_iff : HasBit i place ↔ bit i place = true := by
  unfold HasBit
  cases i with
  | ofNat m =>
    rw [bit, Nat.testBit_eq_decide_div_mod_eq, decide_eq_true_eq, Int.ofNat_eq_natCast]
    norm_cast
  | negSucc m =>
    have hdiv : (m : Int).ediv (2 ^ place) = ((m / 2 ^ place : Nat) : Int) := by norm_cast
    rw [bit, Nat.testBit_eq_decide_div_mod_eq, Bool.not_eq_true', decide_eq_false_iff_not,
      Int.negSucc_ediv m (by positivity), hdiv]
    omega

/-- Far to the left there is nothing but the sign. -/
theorem bit_of_natAbs_le (h : i.natAbs ≤ place) : bit i place = decide (i < 0) := by
  have hpow : i.natAbs < 2 ^ place := Nat.lt_two_pow_self.trans_le (Nat.pow_le_pow_right (by omega) h)
  cases i with
  | ofNat m => exact (Nat.testBit_lt_two_pow hpow).trans (decide_eq_false (by simp)).symm
  | negSucc m =>
    have hm : m.testBit place = false := Nat.testBit_lt_two_pow (by omega)
    rw [bit, hm]
    exact (decide_eq_true (Int.negSucc_lt_zero m)).symm

/-- An integer is known by its bits. -/
theorem eq_of_bit (h : ∀ place, bit i place = bit j place) : i = j := by
  have hsign : decide (i < 0) = decide (j < 0) :=
    calc decide (i < 0) = bit i (i.natAbs + j.natAbs) := (bit_of_natAbs_le (by omega)).symm
      _ = bit j (i.natAbs + j.natAbs) := h _
      _ = decide (j < 0) := bit_of_natAbs_le (by omega)
  cases i with
  | ofNat m =>
    cases j with
    | ofNat n => exact congrArg Int.ofNat (Nat.eq_of_testBit_eq h)
    | negSucc n => simp [Int.negSucc_lt_zero, Int.not_lt.2 (Int.natCast_nonneg m)] at hsign
  | negSucc m =>
    cases j with
    | ofNat n => simp [Int.negSucc_lt_zero, Int.not_lt.2 (Int.natCast_nonneg n)] at hsign
    | negSucc n => exact congrArg Int.negSucc (Nat.eq_of_testBit_eq fun place => Bool.not_inj (h place))

theorem eq_of_hasBit (h : ∀ place, HasBit i place ↔ HasBit j place) : i = j :=
  eq_of_bit fun place => by
    rw [Bool.eq_iff_iff, ← hasBit_iff, ← hasBit_iff]
    exact h place

/-- The integers in range are those with the same bit at every place from the topmost on. -/
theorem inRange_iff_bit : Item.InRange i ↔ ∀ place ≥ 255, bit i place = bit i 255 := by
  have hsign : (∀ place ≥ 255, bit i place = bit i 255) ↔ ∀ place ≥ 255, bit i place = decide (i < 0) := by
    constructor
    · intro h place hplace
      rw [h place hplace, ← h (i.natAbs + 255) (by omega)]
      exact bit_of_natAbs_le (by omega)
    · intro h place hplace
      rw [h place hplace, h 255 le_rfl]
  have hbelow : ∀ m : Nat, m < 2 ^ 255 ↔ ∀ place ≥ 255, m.testBit place = false := fun m =>
    ⟨fun h place hplace => Nat.testBit_lt_two_pow (h.trans_le (Nat.pow_le_pow_right (by omega) hplace)),
      Nat.lt_pow_two_of_testBit m⟩
  rw [hsign, Item.InRange]
  cases i with
  | ofNat m =>
    have hbits : (∀ place ≥ 255, bit (.ofNat m) place = decide (Int.ofNat m < 0)) ↔ m < 2 ^ 255 := by
      rw [decide_eq_false (by simp), hbelow]
      rfl
    rw [hbits, Int.ofNat_eq_natCast]
    omega
  | negSucc m =>
    have hbits : (∀ place ≥ 255, bit (.negSucc m) place = decide (Int.negSucc m < 0)) ↔ m < 2 ^ 255 := by
      simp only [decide_eq_true (Int.negSucc_lt_zero m), bit, Bool.not_eq_true', hbelow]
    rw [hbits]
    omega

/-- An operation that works place by place keeps to the range. -/
theorem inRange_of_bits {a b v : Int} {f : Bool → Bool → Bool} (ha : Item.InRange a) (hb : Item.InRange b)
    (hv : ∀ place, bit v place = f (bit a place) (bit b place)) : Item.InRange v :=
  inRange_iff_bit.2 fun place hplace => by
    rw [hv, hv, inRange_iff_bit.1 ha place hplace, inRange_iff_bit.1 hb place hplace]

end Integer

/-! ### Quotients and shifts as rational numbers -/

/-- The integer part of a rational number. -/
def truncate (q : ℚ) : Int := if 0 ≤ q then ⌊q⌋ else ⌈q⌉

theorem truncate_div_natCast (a : Int) (n : Nat) : truncate ((a : ℚ) / n) = a.tdiv n := by
  unfold truncate
  rw [Rat.floor_intCast_div_natCast, Rat.ceil_intCast_div_natCast]
  split
  · rename_i hquotient
    rcases Nat.eq_zero_or_pos n with rfl | hn
    · simp
    · have ha : 0 ≤ a := by
        rw [le_div_iff₀ (by exact_mod_cast hn)] at hquotient
        simpa using hquotient
      exact (Int.tdiv_eq_ediv_of_nonneg ha).symm
  · rename_i hquotient
    have ha : 0 ≤ -a := by
      by_contra h
      exact hquotient (div_nonneg (by exact_mod_cast (by omega : 0 ≤ a)) (Nat.cast_nonneg n))
    rw [← Int.tdiv_eq_ediv_of_nonneg ha, Int.neg_tdiv, neg_neg]

theorem truncate_div (a b : Int) : truncate ((a : ℚ) / b) = a.tdiv b := by
  obtain ⟨n, rfl | rfl⟩ := b.eq_nat_or_neg
  · exact truncate_div_natCast a n
  · have hquotient : (a : ℚ) / ((-(n : Int) : Int) : ℚ) = ((-a : Int) : ℚ) / n := by
      push_cast
      rw [div_neg, neg_div]
    rw [hquotient, truncate_div_natCast, Int.neg_tdiv, Int.tdiv_neg]

theorem floor_mul_zpow (x s : Int) : ⌊(x : ℚ) * 2 ^ s⌋ = shiftLeft x s := by
  unfold shiftLeft
  split
  · rename_i hs
    obtain ⟨n, rfl⟩ := Int.eq_ofNat_of_zero_le hs
    have hcast : (x : ℚ) * 2 ^ (n : Int) = ((x * 2 ^ n : Int) : ℚ) := by push_cast; rw [zpow_natCast]
    rw [hcast, Int.floor_intCast]
    simp
  · rename_i hs
    obtain ⟨n, hn⟩ := Int.eq_ofNat_of_zero_le (by omega : 0 ≤ -s)
    obtain rfl : s = -(n : Int) := by omega
    have hcast : (x : ℚ) * 2 ^ (-(n : Int)) = (x : ℚ) / (2 ^ n : Nat) := by
      push_cast
      rw [zpow_neg, zpow_natCast, div_eq_mul_inv]
    rw [hcast, Rat.floor_intCast_div_natCast]
    simp

/-! ### Results in range -/

namespace Item

variable {a b x s : Int}

theorem inRange_tdiv (ha : InRange a) : InRange (a.tdiv b) ∨ a = -2 ^ 255 ∧ b = -1 := by
  have hsize : (a.tdiv b).natAbs = a.natAbs / b.natAbs := Int.natAbs_tdiv a b
  unfold InRange at ha ⊢
  by_cases hb : b.natAbs ≤ 1
  · obtain rfl | rfl | rfl : b = 0 ∨ b = 1 ∨ b = -1 := by omega
    · simp
    · left
      rwa [Int.tdiv_one]
    · rw [Int.tdiv_neg, Int.tdiv_one]
      omega
  · -- any other divisor at least halves the dividend
    have hhalf : a.natAbs / b.natAbs ≤ a.natAbs / 2 := Nat.div_le_div_left (by omega) (by omega)
    omega

theorem inRange_tmod (ha : InRange a) : InRange (a.tmod b) := by
  have hsize : (a.tmod b).natAbs ≤ a.natAbs := by
    rw [Int.natAbs_tmod]
    exact Nat.mod_le _ _
  have habove : 0 ≤ a → 0 ≤ a.tmod b := Int.tmod_nonneg b
  have hbelow : 0 ≤ -a → 0 ≤ -a.tmod b := fun h => Int.neg_tmod a b ▸ Int.tmod_nonneg b h
  unfold InRange at ha ⊢
  omega

theorem inRange_shiftLeft (hx : InRange x) (hs : s ≤ 0) : InRange (shiftLeft x s) := by
  unfold shiftLeft
  split
  · obtain rfl : s = 0 := by omega
    simpa using hx
  · generalize hd : Nat.pow 2 (-s).toNat = d
    have hpos : (0 : Int) < d := by
      rw [← hd]
      exact_mod_cast Nat.two_pow_pos _
    unfold InRange at hx ⊢
    constructor
    · rw [Int.le_ediv_iff_mul_le hpos]
      nlinarith
    · rw [Int.ediv_lt_iff_lt_mul hpos]
      nlinarith

end Item
end LedgerVM
