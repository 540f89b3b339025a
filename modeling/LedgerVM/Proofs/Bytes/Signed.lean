import LedgerVM.Bytes.Signed
import Mathlib.Tactic.Ring

/-!
# Signed integers and their bytes

An integer takes no more than `n` bytes if it lies in the range of the two's-complement numbers of `n` bytes, and only
then (`length_ofInt_le`).  It is read back from its bytes (`toInt_ofInt`).
-/

namespace LedgerVM.Bytes

theorem length_ofIntNonempty_le (n : Nat) (i : Int) :
    (ofIntNonempty i).length ≤ n + 1 ↔ -(128 * 256 ^ n) ≤ i ∧ i < 128 * 256 ^ n := by
  induction n generalizing i with
  | zero =>
    unfold ofIntNonempty
    split
    · rename_i hbyte
      simp only [List.length_singleton]
      omega
    · rename_i hbyte
      have hmore : 0 < (ofIntNonempty (i / 256)).length := by
        unfold ofIntNonempty
        split <;> simp
      simp only [List.length_cons]
      omega
  | succ n ih =>
    have hpow : (1 : Int) ≤ 256 ^ n := by
      have := Int.pow_pos (n := 256) (m := n) (by decide)
      omega
    unfold ofIntNonempty
    split
    · rename_i hbyte
      simp only [List.length_singleton, pow_succ]
      omega
    · rename_i hbyte
      have hquotient := ih (i / 256)
      simp only [List.length_cons, pow_succ]
      omega

theorem length_ofInt_le (n : Nat) (i : Int) :
    (ofInt i).length ≤ n + 1 ↔ -(128 * 256 ^ n) ≤ i ∧ i < 128 * 256 ^ n := by
  unfold ofInt
  split
  · rename_i hzero
    have hpow : (1 : Int) ≤ 256 ^ n := by
      have := Int.pow_pos (n := 256) (m := n) (by decide)
      omega
    rw [hzero, List.length_nil]
    omega
  · exact length_ofIntNonempty_le n i

/-! ### Reading back -/

theorem toInt_singleton (b : UInt8) : toInt [b] = if b.toNat < 128 then (b.toNat : Int) else b.toNat - 256 := by
  simp only [toInt, UInt8.lt_iff_toNat_lt]
  rfl

theorem toInt_cons {bs : Bytes} (b : UInt8) (hbs : bs ≠ []) : toInt (b :: bs) = b.toNat + 256 * toInt bs := by
  cases bs with
  | nil => exact absurd rfl hbs
  | cons c bs => rfl

/-- A byte string denotes the number around zero that is congruent to its natural number. -/
theorem toInt_eq_bmod (bs : Bytes) : toInt bs = (toNat bs : Int).bmod (capacity bs.length) := by
  have hresidue {n m : Nat} (hlt : n < m) : (n : Int).bmod m = if 2 * n < m then (n : Int) else n - m := by
    rw [Int.bmod_def, ← Int.natCast_mod, Nat.mod_eq_of_lt hlt]
    split <;> split <;> omega
  induction bs with
  | nil => rfl
  | cons b bs ih =>
    have hb : b.toNat < 256 := b.toNat_lt
    rw [hresidue (toNat_lt _), toNat_cons, List.length_cons, capacity]
    cases bs with
    | nil =>
      rw [toInt_singleton, toNat_nil, List.length_nil, capacity]
      split <;> split <;> omega
    | cons c bs =>
      rw [hresidue (toNat_lt _), List.length_cons, capacity] at ih
      rw [toInt_cons b (List.cons_ne_nil c bs), ih, List.length_cons, capacity]
      split <;> split <;> omega

theorem ofIntNonempty_ne_nil (i : Int) : ofIntNonempty i ≠ [] := by
  unfold ofIntNonempty
  split <;> exact List.cons_ne_nil _ _

theorem toInt_ofIntNonempty (i : Int) : toInt (ofIntNonempty i) = i := by
  induction i using ofIntNonempty.induct with
  | case1 i hbyte =>
    rw [ofIntNonempty, if_pos hbyte, toInt_singleton, UInt8.toNat_ofNat']
    split <;> omega
  | case2 i hbyte ih =>
    rw [ofIntNonempty, if_neg hbyte, toInt_cons _ (ofIntNonempty_ne_nil _), ih, UInt8.toNat_ofNat']
    omega

/-- An integer is read back from its bytes. -/
theorem toInt_ofInt (i : Int) : toInt (ofInt i) = i := by
  unfold ofInt
  split
  · rename_i hzero
    rw [hzero]
    rfl
  · exact toInt_ofIntNonempty i

/-- Zero is denoted by the byte strings of zeros, of any length. -/
theorem toInt_eq_zero_iff (bs : Bytes) : toInt bs = 0 ↔ ∀ b ∈ bs, b = 0 := by
  have hzero (b : UInt8) : b = 0 ↔ b.toNat = 0 := UInt8.toNat_inj.symm
  induction bs with
  | nil => simp [toInt]
  | cons b bs ih =>
    have hb : b.toNat < 256 := b.toNat_lt
    rw [List.forall_mem_cons, hzero b]
    by_cases hbs : bs = []
    · subst hbs
      rw [toInt_singleton]
      simp only [List.not_mem_nil, false_implies, implies_true, and_true]
      split <;> omega
    · rw [toInt_cons b hbs]
      constructor
      · intro hsum
        exact ⟨by omega, ih.1 (by omega)⟩
      · rintro ⟨hlow, hhigh⟩
        have hrest := ih.2 hhigh
        omega

theorem toInt_ofNat_int16 (i : Int16) : toInt (ofNat 2 i.toUInt16.toNat) = i.toInt := by
  have hlt : i.toUInt16.toNat < capacity 2 := i.toUInt16.toNat_lt
  rw [toInt_eq_bmod, toNat_ofNat, length_ofNat, Nat.mod_eq_of_lt hlt]
  exact (BitVec.toInt_eq_toNat_bmod i.toBitVec).symm

end LedgerVM.Bytes
