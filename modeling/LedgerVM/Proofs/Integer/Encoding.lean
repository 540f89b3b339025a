import LedgerVM.Proofs.Bytes.Signed
import LedgerVM.Proofs.Operator.Arithmetic
import Mathlib.Data.List.Induction
import Mathlib.Tactic.Linarith

/-!
# Shortest encodings

In two's complement the topmost bit of a byte string counts negatively (`Bytes.twosComplement`).  So a byte that
repeats the sign of the bytes below it says nothing, and the shortest encoding of an integer is what is left of any
other when such bytes are taken away from its end (`Bytes.ofInt_toInt`).  The integers that fit in `n` bytes are those
of `8 * n` bits, from the least to the greatest (`Bytes.length_ofInt_le_pow`); `integer_encoding_exact` says all this
of the operands that are read and the results that are pushed.
-/

namespace LedgerVM

namespace Bytes

variable {bs cs : Bytes} {b : UInt8}

/-! ### Two's complement -/

/-- The topmost bit is set. -/
def isNegative (bs : Bytes) : Bool := bs.getLast?.any (128 ≤ ·)

/-- The integer that a byte string denotes, lowest byte first and the topmost bit counted negatively. -/
def twosComplement (bs : Bytes) : Int := toNat bs - if bs.isNegative then 256 ^ bs.length else 0

theorem isNegative_concat (bs : Bytes) (b : UInt8) : (bs ++ [b]).isNegative = decide (128 ≤ b.toNat) := by
  simp only [isNegative, List.getLast?_append, List.getLast?_singleton, Option.some_or, Option.any_some,
    UInt8.le_iff_toNat_le]
  rfl

theorem toNat_concat (bs : Bytes) (b : UInt8) : toNat (bs ++ [b]) = toNat bs + 256 ^ bs.length * b.toNat := by
  induction bs with
  | nil => simp
  | cons c bs ih =>
    rw [List.cons_append, toNat_cons, ih, toNat_cons, List.length_cons, pow_succ]
    ring

theorem capacity_eq_pow (w : Nat) : capacity w = 256 ^ w := by
  induction w with
  | zero => rfl
  | succ w ih => rw [capacity, ih, pow_succ, Nat.mul_comm]

/-- The integer of a topmost byte. -/
def signed (b : UInt8) : Int := if 128 ≤ b.toNat then b.toNat - 256 else b.toNat

theorem twosComplement_concat (bs : Bytes) (b : UInt8) :
    twosComplement (bs ++ [b]) = toNat bs + 256 ^ bs.length * signed b := by
  unfold twosComplement signed
  rw [isNegative_concat, toNat_concat, List.length_append, List.length_singleton]
  by_cases hb : 128 ≤ b.toNat
  · rw [if_pos (decide_eq_true hb), if_pos hb]
    push_cast
    ring
  · rw [if_neg (by simpa using hb), if_neg hb]
    push_cast
    ring

theorem toInt_concat (bs : Bytes) (b : UInt8) : toInt (bs ++ [b]) = toNat bs + 256 ^ bs.length * signed b := by
  induction bs with
  | nil =>
    have hsign : toInt [b] = signed b := by
      rw [toInt_singleton, signed]
      split <;> split <;> omega
    simp [hsign]
  | cons c bs ih =>
    rw [List.cons_append, toInt_cons c (by simp), ih, toNat_cons, List.length_cons, pow_succ]
    push_cast
    ring

/-- What is read from a byte string is what it denotes. -/
theorem toInt_eq_twosComplement (bs : Bytes) : toInt bs = twosComplement bs := by
  rcases bs.eq_nil_or_concat' with rfl | ⟨bs, b, rfl⟩
  · rfl
  · rw [toInt_concat, twosComplement_concat]

/-! ### Bytes that repeat the sign -/

/-- The byte that may follow a byte string without changing what it denotes. -/
def extension (bs : Bytes) : UInt8 := if bs.isNegative then 0xFF else 0x00

/-- A byte string, last byte first, from the first byte on that says more than the sign of those after it. -/
def trimReversed : Bytes → Bytes
  | [] => []
  | b :: bs => if b = extension bs.reverse then trimReversed bs else b :: bs

/-- A byte string without the bytes at its end that only repeat the sign. -/
def trim (bs : Bytes) : Bytes := (trimReversed bs.reverse).reverse

theorem trim_concat (bs : Bytes) (b : UInt8) :
    trim (bs ++ [b]) = if b = extension bs then trim bs else bs ++ [b] := by
  unfold trim
  rw [List.reverse_concat, trimReversed, List.reverse_reverse]
  split
  · rfl
  · rw [List.reverse_cons, List.reverse_reverse]

/-- The last byte says more than the sign of those before it. -/
def Tight (bs : Bytes) : Prop := ∀ init b, bs = init ++ [b] → b ≠ extension init

theorem tight_trim (bs : Bytes) : Tight (trim bs) := by
  induction bs using List.reverseRecOn with
  | nil => exact fun init b h => absurd h (by simp [trim, trimReversed])
  | append_singleton bs b ih =>
    rw [trim_concat]
    split
    · exact ih
    · rename_i hsays
      intro init c h
      obtain ⟨rfl, rfl⟩ : bs = init ∧ b = c := by simpa using h
      exact hsays

/-! ### How many bytes an integer needs -/

theorem isNegative_iff {n : Nat} (hn : bs.length = n + 1) : bs.isNegative = true ↔ 128 * 256 ^ n ≤ toNat bs := by
  rcases bs.eq_nil_or_concat' with rfl | ⟨bs, b, rfl⟩
  · cases hn
  · have hlength : bs.length = n := by simpa using hn
    have hbs := toNat_lt bs
    rw [capacity_eq_pow, hlength] at hbs
    rw [isNegative_concat, toNat_concat, hlength, decide_eq_true_eq]
    constructor
    · intro hb
      have := Nat.mul_le_mul_left (256 ^ n) hb
      omega
    · intro hsum
      by_contra hb
      have := Nat.mul_le_mul_left (256 ^ n) (show b.toNat ≤ 127 by omega)
      omega

/-- A byte string denotes an integer in the range of its length. -/
theorem toInt_mem_range {n : Nat} (hn : bs.length = n + 1) :
    -(128 * 256 ^ n) ≤ toInt bs ∧ toInt bs < 128 * 256 ^ n := by
  have hsign := isNegative_iff hn
  have hlt := toNat_lt bs
  rw [capacity_eq_pow, hn, pow_succ] at hlt
  rw [toInt_eq_twosComplement, twosComplement, hn, pow_succ]
  zify at hsign hlt
  split
  · rename_i hnegative
    have hhigh := hsign.1 hnegative
    omega
  · rename_i hpositive
    have hlow := mt hsign.2 hpositive
    omega

/-- No byte string that denotes an integer is shorter than its encoding. -/
theorem length_ofInt_toInt_le (bs : Bytes) : (ofInt (toInt bs)).length ≤ bs.length := by
  cases hn : bs.length with
  | zero =>
    rw [List.length_eq_zero_iff.1 hn]
    decide
  | succ n => exact (length_ofInt_le n _).2 (toInt_mem_range hn)

/-- Byte strings of one length that denote the same integer are the same. -/
theorem eq_of_toInt_eq (hlength : bs.length = cs.length) (h : toInt bs = toInt cs) : bs = cs := by
  have hvalue : toNat bs = toNat cs := by
    rw [toInt_eq_bmod, toInt_eq_bmod, hlength] at h
    have hmod := congrArg (· % ((capacity cs.length : Nat) : Int)) h
    simp only [Int.bmod_emod] at hmod
    have hbs := toNat_lt bs
    have hcs := toNat_lt cs
    rw [hlength] at hbs
    norm_cast at hmod
    rwa [Nat.mod_eq_of_lt hbs, Nat.mod_eq_of_lt hcs] at hmod
  rw [← ofNat_toNat bs, ← ofNat_toNat cs, hlength, hvalue]

/-! ### Encodings are the tight byte strings -/

/-- A byte that repeats the sign changes nothing. -/
theorem toInt_concat_extension (bs : Bytes) : toInt (bs ++ [extension bs]) = toInt bs := by
  rw [toInt_concat, toInt_eq_twosComplement, twosComplement, extension]
  cases bs.isNegative with
  | true =>
    have hones : signed 0xFF = -1 := rfl
    rw [if_pos rfl, if_pos rfl, hones]
    ring
  | false =>
    have hzeros : signed 0x00 = 0 := rfl
    rw [if_neg nofun, if_neg nofun, hzeros]
    ring

theorem toInt_trim (bs : Bytes) : toInt (trim bs) = toInt bs := by
  induction bs using List.reverseRecOn with
  | nil => rfl
  | append_singleton bs b ih =>
    rw [trim_concat]
    split
    · rename_i hrepeats
      rw [ih, hrepeats, toInt_concat_extension]
    · rfl

/-- A byte that says more than the sign of those before it takes the integer out of their range. -/
theorem length_lt_of_ne_extension (hb : b ≠ extension bs) : bs.length < (ofInt (toInt (bs ++ [b]))).length := by
  have hsigned : -128 ≤ signed b ∧ signed b < 128 ∧ (signed b = 0 → b = 0x00) ∧ (signed b = -1 → b = 0xFF) := by
    have hlt : b.toNat < 256 := b.toNat_lt
    have hzero : b = 0x00 ↔ b.toNat = 0 := UInt8.toNat_inj.symm
    have hones : b = 0xFF ↔ b.toNat = 255 := UInt8.toNat_inj.symm
    rw [hzero, hones, signed]
    split <;> omega
  obtain ⟨hleast, hgreatest, hzero, hones⟩ := hsigned
  rw [← Nat.not_le, toInt_concat]
  cases hn : bs.length with
  | zero =>
    -- a single byte other than zero denotes an integer other than zero
    obtain rfl : bs = [] := List.length_eq_zero_iff.1 hn
    have hne : signed b ≠ 0 := fun h => hb (hzero h)
    intro hnone
    have hempty : ofInt (signed b) = [] := by simpa using hnone
    have hback := toInt_ofInt (signed b)
    rw [hempty] at hback
    exact hne hback.symm
  | succ n =>
    have hsign := isNegative_iff hn
    have hlt := toNat_lt bs
    rw [capacity_eq_pow, hn, pow_succ] at hlt
    have hpow : (0 : Int) < 256 ^ n := by positivity
    rw [length_ofInt_le, pow_succ]
    zify at hsign hlt
    rw [extension] at hb
    rintro ⟨hlow, hhigh⟩
    split at hb
    · rename_i hnegative
      have hpast := hsign.1 hnegative
      have hcases : 0 ≤ signed b ∨ signed b ≤ -2 := by
        have hne : signed b ≠ -1 := fun h => hb (hones h)
        omega
      rcases hcases with hcase | hcase
      · have habove := mul_le_mul_of_nonneg_left hcase hpow.le
        linarith
      · have hbelow := mul_le_mul_of_nonneg_left hcase hpow.le
        linarith
    · rename_i hpositive
      have hpast := mt hsign.2 hpositive
      have hcases : 1 ≤ signed b ∨ signed b ≤ -1 := by
        have hne : signed b ≠ 0 := fun h => hb (hzero h)
        omega
      rcases hcases with hcase | hcase
      · have habove := mul_le_mul_of_nonneg_left hcase hpow.le
        linarith
      · have hbelow := mul_le_mul_of_nonneg_left hcase hpow.le
        linarith

theorem ofInt_toInt_of_tight (hbs : bs.Tight) : ofInt (toInt bs) = bs := by
  refine eq_of_toInt_eq ?_ (toInt_ofInt _)
  rcases bs.eq_nil_or_concat' with rfl | ⟨bs, b, rfl⟩
  · rfl
  · have hshort := length_ofInt_toInt_le (bs ++ [b])
    have hlong := length_lt_of_ne_extension (hbs bs b rfl)
    rw [List.length_append, List.length_singleton] at hshort ⊢
    omega

/-- The encoding of an integer is what is left of any byte string that denotes it without the bytes that only repeat
the sign. -/
theorem ofInt_toInt (bs : Bytes) : ofInt (toInt bs) = trim bs := by
  rw [← toInt_trim, ofInt_toInt_of_tight (tight_trim bs)]

theorem length_ofInt_le_pow (i : Int) {n : Nat} (hn : 1 ≤ n) :
    (ofInt i).length ≤ n ↔ -2 ^ (8 * n - 1) ≤ i ∧ i < 2 ^ (8 * n - 1) := by
  obtain ⟨n, rfl⟩ : ∃ k, n = k + 1 := ⟨n - 1, by omega⟩
  have hpow : (2 : Int) ^ (8 * (n + 1) - 1) = 128 * 256 ^ n := by
    rw [show 8 * (n + 1) - 1 = 7 + 8 * n by omega, pow_add, pow_mul]
    norm_num
  rw [hpow]
  exact length_ofInt_le n i

end Bytes

open Bytes in
/-- The encoding of an integer denotes it in two's complement, no other byte string that denotes it is as short, and
it takes up to `n` bytes exactly in the range of the numbers of `n` bytes.  Up to 32 bytes it is read back as the
integer, and only such integers are results of arithmetic.  The other way round, every byte string of up to 32 bytes
is read as the integer it denotes, whose encoding is the byte string without the bytes that only repeat the sign. -/
theorem integer_encoding_exact (i : Int) (bs : Bytes) :
    (twosComplement (ofInt i) = i ∧ (i = 0 → ofInt i = []) ∧
      ∀ cs : Bytes, twosComplement cs = i → cs = ofInt i ∨ (ofInt i).length < cs.length) ∧
    ((ofInt i).length ≤ 32 → (Item.byteArray (ofInt i)).toInteger = .ok i) ∧
    (∀ n ≥ 1, (ofInt i).length ≤ n ↔ -2 ^ (8 * n - 1) ≤ i ∧ i < 2 ^ (8 * n - 1)) ∧
    (∀ w : Workbench,
      (-2 ^ 255 ≤ i ∧ i < 2 ^ 255 → Operation.pushInteger i w = .ok () { w with stack := .integer i :: w.stack }) ∧
      (¬(-2 ^ 255 ≤ i ∧ i < 2 ^ 255) → Operation.pushInteger i w = .error (.integerOverflow 32) w)) ∧
    (bs.length ≤ 32 → (Item.byteArray bs).toInteger = .ok (twosComplement bs)) ∧
    ofInt (twosComplement bs) = bs.trim ∧ (ofInt (twosComplement bs)).length ≤ bs.length := by
  have hread (cs : Bytes) (hcs : cs.length ≤ 32) : (Item.byteArray cs).toInteger = .ok (toInt cs) :=
    if_neg (Nat.not_lt.2 hcs)
  simp only [← toInt_eq_twosComplement]
  refine ⟨⟨toInt_ofInt i, fun hzero => if_pos hzero, fun cs hcs => ?_⟩, fun hwidth => ?_,
    fun n => length_ofInt_le_pow i, fun w => ?_, hread bs, ofInt_toInt bs, length_ofInt_toInt_le bs⟩
  · rw [← hcs]
    rcases Nat.eq_or_lt_of_le (length_ofInt_toInt_le cs) with hsame | hshorter
    · exact .inl (eq_of_toInt_eq hsame.symm (toInt_ofInt _).symm)
    · exact .inr hshorter
  · rw [hread _ hwidth, toInt_ofInt]
  · rw [Operation.pushInteger_eq]
    exact ⟨fun hrange => if_pos hrange, fun hrange => if_neg hrange⟩

open Bytes in
/-- The least integer takes 32 bytes and is read back, and three bytes that denote -128 are trimmed to one. -/
theorem least_integer_read_back :
    (ofInt (-2 ^ 255)).length ≤ 32 ∧ ¬(ofInt (-2 ^ 255)).length ≤ 31 ∧
    (Item.byteArray (ofInt (-2 ^ 255))).toInteger = .ok (-2 ^ 255) ∧
    (∀ w, Operation.pushInteger (-2 ^ 255) w = .ok () { w with stack := .integer (-2 ^ 255) :: w.stack }) ∧
    (Item.byteArray [0x80, 0xFF, 0xFF]).toInteger = .ok (-128) ∧ ofInt (-128) = [0x80] := by
  have hvalue : twosComplement [0x80, 0xFF, 0xFF] = -128 := by decide
  have htrim : trim [0x80, 0xFF, 0xFF] = [0x80] := by decide
  obtain ⟨-, hback, hwidth, hpush, hread, hencoding, -⟩ := integer_encoding_exact (-2 ^ 255) [0x80, 0xFF, 0xFF]
  have hfits : (ofInt (-2 ^ 255)).length ≤ 32 := (hwidth 32 (by decide)).2 (by decide)
  have hmore : ¬(ofInt (-2 ^ 255)).length ≤ 31 := mt (hwidth 31 (by decide)).1 (by decide)
  rw [hvalue] at hread hencoding
  exact ⟨hfits, hmore, hback hfits, fun w => (hpush w).1 (by decide), hread (by decide), hencoding.trans htrim⟩

end LedgerVM
