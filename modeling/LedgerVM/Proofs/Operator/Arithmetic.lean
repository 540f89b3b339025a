import LedgerVM.Proofs.Integer.Range
import LedgerVM.Proofs.Operator.Action

/-!
# Arithmetic of operators

What arithmetic operators compute is written down as a table (`Operator.Computes`) in the terms of mathematics, without
regard to how it is computed, and beside it where there is nothing to compute (`Operator.Refuses`) and where integers in
range may make one out of range (`Operator.MayOverflow`).  An operator leaves what the table says, or else overflows:
it never wraps around (`Operator.arithmetic_exact`).
-/

namespace LedgerVM

/-! ### The table -/

/-- The number of integers an arithmetic operator takes. -/
def Operator.integers? : Operator → Option Nat
  | unary _ => some 1
  | binary _ | shift _ => some 2
  | _ => none

open Integer in
/-- What an arithmetic operator makes of integers, in the order in which they were put on the stack. -/
inductive Operator.Computes : Operator → List Int → Int → Prop
  | inc (x : Int) : Computes (.unary .inc) [x] (x + 1)
  | dec (x : Int) : Computes (.unary .dec) [x] (x - 1)
  | sign (x : Int) : Computes (.unary .sign) [x] (if 0 < x then 1 else if x < 0 then -1 else 0)
  | negate (x : Int) : Computes (.unary .negate) [x] (-x)
  | abs (x : Int) : Computes (.unary .abs) [x] |x|
  | invert {x v : Int} (hbits : ∀ place, HasBit v place ↔ ¬HasBit x place) : Computes (.unary .invert) [x] v
  | and {a b v : Int} (hbits : ∀ place, HasBit v place ↔ HasBit a place ∧ HasBit b place) :
      Computes (.binary .and) [a, b] v
  | or {a b v : Int} (hbits : ∀ place, HasBit v place ↔ HasBit a place ∨ HasBit b place) :
      Computes (.binary .or) [a, b] v
  | xor {a b v : Int} (hbits : ∀ place, HasBit v place ↔ Xor (HasBit a place) (HasBit b place)) :
      Computes (.binary .xor) [a, b] v
  | add (a b : Int) : Computes (.binary .add) [a, b] (a + b)
  | sub (a b : Int) : Computes (.binary .sub) [a, b] (a - b)
  | mul (a b : Int) : Computes (.binary .mul) [a, b] (a * b)
  | div {a b : Int} (hb : b ≠ 0) : Computes (.binary .div) [a, b] (truncate ((a : ℚ) / b))
  | mod {a b : Int} (hb : b ≠ 0) : Computes (.binary .mod) [a, b] (a - truncate ((a : ℚ) / b) * b)
  | min (a b : Int) : Computes (.binary .min) [a, b] (Min.min a b)
  | max (a b : Int) : Computes (.binary .max) [a, b] (Max.max a b)
  | shl {x s : Int} (hs : |s| ≤ 256) : Computes (.shift true) [x, s] ⌊(x : ℚ) * 2 ^ s⌋
  | shr {x s : Int} (hs : |s| ≤ 256) : Computes (.shift false) [x, s] ⌊(x : ℚ) * 2 ^ (-s)⌋

/-- The integers an arithmetic operator has no value for, and the fault it ends in. -/
inductive Operator.Refuses : Operator → List Int → Fault → Prop
  | div (a : Int) : Refuses (.binary .div) [a, 0] .divisionByZero
  | mod (a : Int) : Refuses (.binary .mod) [a, 0] .divisionByZero
  | shift {toLeft : Bool} {x s : Int} (hs : 256 < |s|) :
      Refuses (.shift toLeft) [x, s] (.shiftOutOfRange (clampInt64 s) 256)

/-- The integers in range of which an arithmetic operator may make one that is not. -/
inductive Operator.MayOverflow : Operator → List Int → Prop
  | inc (x : Int) : MayOverflow (.unary .inc) [x]
  | dec (x : Int) : MayOverflow (.unary .dec) [x]
  | negate (x : Int) : MayOverflow (.unary .negate) [x]
  | abs (x : Int) : MayOverflow (.unary .abs) [x]
  | add (a b : Int) : MayOverflow (.binary .add) [a, b]
  | sub (a b : Int) : MayOverflow (.binary .sub) [a, b]
  | mul (a b : Int) : MayOverflow (.binary .mul) [a, b]
  | div : MayOverflow (.binary .div) [-2 ^ 255, -1]
  | shl {x s : Int} (hs : 0 < s) : MayOverflow (.shift true) [x, s]
  | shr {x s : Int} (hs : s < 0) : MayOverflow (.shift false) [x, s]

/-- The operator takes its operands off the stack.  It leaves an item of this value in their place, or overflows if the
value is out of range. -/
def Operator.Leaves (op : Operator) (operands : List Item) (value : Int) : Prop :=
  ∀ limits transaction rest heap,
    if Item.InRange value then
      ∃ item, op.run limits transaction ⟨operands.reverse ++ rest, heap⟩ = .ok () ⟨item :: rest, heap⟩ ∧
        item.toInteger = .ok value
    else ∃ left, op.run limits transaction ⟨operands.reverse ++ rest, heap⟩ = .error (.integerOverflow 32) left

/-- The operator ends in a fault on these operands. -/
def Operator.FaultsWith (op : Operator) (operands : List Item) (fault : Fault) : Prop :=
  ∀ limits transaction rest heap,
    ∃ left, op.run limits transaction ⟨operands.reverse ++ rest, heap⟩ = .error fault left

/-! ### What operators compute -/

/-- What an arithmetic operator computes of its integers, whatever their size. -/
def Operator.result : Operator → List Int → Except Fault Int
  | unary op, [x] => .ok (op.apply x)
  | binary op, [a, b] => op.apply a b
  | shift toLeft, [x, s] =>
    if |s| ≤ 256 then .ok (shiftLeft x (if toLeft then s else -s))
    else .error (.shiftOutOfRange (clampInt64 s) shiftLimit)
  | _, _ => .error .stackUnderflow

namespace Operator

variable {op : Operator} {items rest : List Item} {values : List Int} {value a b x s : Int} {fault : Fault}

open Integer in
theorem Computes.result_eq (h : op.Computes values value) : op.result values = .ok value := by
  cases h with
  | inc | dec | negate | add | sub | mul => rfl
  | sign x =>
    refine congrArg Except.ok ?_
    show x.sign = _
    split
    · exact Int.sign_eq_one_of_pos ‹_›
    · split
      · exact Int.sign_eq_neg_one_of_neg ‹_›
      · rw [(by omega : x = 0), Int.sign_zero]
  | abs x => exact congrArg Except.ok (Int.abs_eq_natAbs x).symm
  | invert hbits =>
    refine congrArg Except.ok (eq_of_hasBit fun place => ?_)
    simp [UnaryOperator.apply, hbits, hasBit_iff, bit_bitNot]
  | and hbits =>
    refine congrArg Except.ok (eq_of_hasBit fun place => ?_)
    simp [hbits, hasBit_iff, bit_bitAnd]
  | or hbits =>
    refine congrArg Except.ok (eq_of_hasBit fun place => ?_)
    simp [hbits, hasBit_iff, bit_bitOr]
  | xor hbits =>
    refine congrArg Except.ok (eq_of_hasBit fun place => ?_)
    simp [hbits, hasBit_iff, bit_bitXor, Xor]
    grind
  | div hb =>
    rw [truncate_div]
    exact if_neg hb
  | mod hb =>
    rw [truncate_div, mul_comm, ← Int.tmod_def]
    exact if_neg hb
  | min a b =>
    refine congrArg Except.ok ?_
    rw [min_comm, min_def_lt]
  | max a b =>
    refine congrArg Except.ok ?_
    rw [max_def_lt]
  | shl hs =>
    rw [floor_mul_zpow]
    exact if_pos hs
  | shr hs =>
    rw [floor_mul_zpow]
    exact if_pos hs

/-- Every arithmetic operator has a value or is refused. -/
theorem computes_or_refuses (harity : op.integers? = some values.length) :
    (∃ value, op.Computes values value) ∨ ∃ fault, op.Refuses values fault := by
  cases op with
  | unary op =>
    obtain ⟨x, rfl⟩ := List.length_eq_one_iff.1 (Option.some.inj harity).symm
    left
    cases op with
    | invert => exact ⟨Integer.bitNot x, .invert fun place => by simp [Integer.hasBit_iff, Integer.bit_bitNot]⟩
    | inc => exact ⟨_, .inc x⟩
    | dec => exact ⟨_, .dec x⟩
    | sign => exact ⟨_, .sign x⟩
    | negate => exact ⟨_, .negate x⟩
    | abs => exact ⟨_, .abs x⟩
  | binary op =>
    obtain ⟨a, b, rfl⟩ := List.length_eq_two.1 (Option.some.inj harity).symm
    cases op with
    | and => exact .inl ⟨Integer.bitAnd a b, .and fun place => by simp [Integer.hasBit_iff, Integer.bit_bitAnd]⟩
    | or => exact .inl ⟨Integer.bitOr a b, .or fun place => by simp [Integer.hasBit_iff, Integer.bit_bitOr]⟩
    | xor =>
      refine .inl ⟨Integer.bitXor a b, .xor fun place => ?_⟩
      simp [Integer.hasBit_iff, Integer.bit_bitXor, Xor]
      grind
    | add => exact .inl ⟨_, .add a b⟩
    | sub => exact .inl ⟨_, .sub a b⟩
    | mul => exact .inl ⟨_, .mul a b⟩
    | div =>
      rcases eq_or_ne b 0 with rfl | hb
      · exact .inr ⟨.divisionByZero, .div a⟩
      · exact .inl ⟨_, .div hb⟩
    | mod =>
      rcases eq_or_ne b 0 with rfl | hb
      · exact .inr ⟨.divisionByZero, .mod a⟩
      · exact .inl ⟨_, .mod hb⟩
    | min => exact .inl ⟨_, .min a b⟩
    | max => exact .inl ⟨_, .max a b⟩
  | shift toLeft =>
    obtain ⟨x, s, rfl⟩ := List.length_eq_two.1 (Option.some.inj harity).symm
    rcases le_or_gt |s| 256 with hs | hs
    · left
      cases toLeft with
      | false => exact ⟨_, .shr hs⟩
      | true => exact ⟨_, .shl hs⟩
    · exact .inr ⟨_, .shift hs⟩
  | _ => cases harity

/-! ### Running arithmetic operators -/

/-- The items stand for these integers. -/
def StandFor (items : List Item) (values : List Int) : Prop :=
  List.Forall₂ (fun item value => item.toInteger = .ok value) items values

end Operator

namespace Operation

variable {item itemA itemB : Item} {rest : List Item} {heap : Heap} {x a b s : Int}

theorem popInteger_eq (hx : item.toInteger = .ok x) : popInteger ⟨item :: rest, heap⟩ = .ok x ⟨rest, heap⟩ := by
  show (Action.ofExcept item.toInteger : Operation Int) ⟨rest, heap⟩ = _
  rw [hx]
  rfl

theorem popPair_eq (ha : itemA.toInteger = .ok a) (hb : itemB.toInteger = .ok b) :
    popPair ⟨itemB :: itemA :: rest, heap⟩ = .ok (a, b) ⟨rest, heap⟩ := by
  rw [popPair, Action.bind_of_ok (popInteger_eq hb), Action.bind_of_ok (popInteger_eq ha)]
  rfl

theorem popShift_eq (hs : item.toInteger = .ok s) :
    popShift ⟨item :: rest, heap⟩ =
      if |s| ≤ 256 then .ok s ⟨rest, heap⟩ else .error (.shiftOutOfRange (clampInt64 s) 256) ⟨rest, heap⟩ := by
  rw [popShift, Action.bind_of_ok (popInteger_eq hs)]
  split
  · rename_i hnear
    exact (if_pos (abs_le.2 hnear)).symm
  · rename_i hfar
    exact (if_neg fun h => hfar (abs_le.1 h)).symm

theorem pushInteger_eq (value : Int) (w : Workbench) :
    pushInteger value w =
      if Item.InRange value then .ok () { w with stack := .integer value :: w.stack }
      else .error (.integerOverflow 32) w := by
  rw [pushInteger]
  split
  · rename_i hwide
    rw [if_neg (fun h => absurd (Item.inRange_iff.1 h) (by omega))]
    rfl
  · rename_i hnarrow
    rw [if_pos (Item.inRange_iff.2 (by omega))]
    rfl

end Operation

namespace Operator

variable {limits : Limits} {transaction : Option Transaction} {item itemA itemB : Item} {items rest : List Item}
  {heap : Heap} {values : List Int} {x a b s value : Int} {fault : Fault}

theorem run_unary {op : UnaryOperator} (hx : item.toInteger = .ok x) :
    (unary op).run limits transaction ⟨item :: rest, heap⟩ = Operation.pushInteger (op.apply x) ⟨rest, heap⟩ := by
  rw [run, Action.bind_of_ok (Operation.popInteger_eq hx)]

theorem run_binary {op : BinaryOperator} (ha : itemA.toInteger = .ok a) (hb : itemB.toInteger = .ok b) :
    (binary op).run limits transaction ⟨itemB :: itemA :: rest, heap⟩ =
      match op.apply a b with
      | .ok value => Operation.pushInteger value ⟨rest, heap⟩
      | .error fault => .error fault ⟨rest, heap⟩ := by
  rw [run, Action.bind_of_ok (Operation.popPair_eq ha hb)]
  dsimp only
  cases hvalue : op.apply a b with
  | ok value => rw [Action.bind_of_ok (Action.ofExcept_eq_ok.2 ⟨rfl, rfl⟩)]
  | error fault => rw [Action.bind_of_error (Action.ofExcept_eq_error.2 ⟨rfl, rfl⟩)]

/-- A shift by zero does not look at the item to be shifted. -/
theorem run_shift_zero {toLeft : Bool} (hs : item.toInteger = .ok 0) :
    (shift toLeft).run limits transaction ⟨item :: rest, heap⟩ = .ok () ⟨rest, heap⟩ := by
  have hnear : Operation.popShift ⟨item :: rest, heap⟩ = .ok 0 ⟨rest, heap⟩ := Operation.popShift_eq hs
  rw [run, Action.bind_of_ok hnear]
  rfl

theorem run_shift {toLeft : Bool} (hx : itemA.toInteger = .ok x) (hs : itemB.toInteger = .ok s) (hnear : |s| ≤ 256)
    (hzero : s ≠ 0) :
    (shift toLeft).run limits transaction ⟨itemB :: itemA :: rest, heap⟩ =
      Operation.pushInteger (shiftLeft x (if toLeft then s else -s)) ⟨rest, heap⟩ := by
  rw [run, Action.bind_of_ok ((Operation.popShift_eq hs).trans (if_pos hnear)), if_pos hzero,
    Action.bind_of_ok (Operation.popInteger_eq hx)]

theorem run_shift_far {toLeft : Bool} (hs : item.toInteger = .ok s) (hfar : 256 < |s|) :
    (shift toLeft).run limits transaction ⟨item :: rest, heap⟩ =
      .error (.shiftOutOfRange (clampInt64 s) 256) ⟨rest, heap⟩ := by
  rw [run, Action.bind_of_error ((Operation.popShift_eq hs).trans (if_neg (by omega)))]

variable {op : Operator}

/-- Where an arithmetic operator has a value, that is put on the stack if it is in range; or else it is the value of an
operand, which is left as it is. -/
theorem run_of_result_ok (hitems : StandFor items values) (harity : op.integers? = some values.length)
    (hresult : op.result values = .ok value) :
    op.run limits transaction ⟨items.reverse ++ rest, heap⟩ = Operation.pushInteger value ⟨rest, heap⟩ ∨
      value ∈ values ∧ ∃ item, item.toInteger = .ok value ∧
        op.run limits transaction ⟨items.reverse ++ rest, heap⟩ = .ok () ⟨item :: rest, heap⟩ := by
  cases op with
  | unary op =>
    obtain ⟨x, rfl⟩ := List.length_eq_one_iff.1 (Option.some.inj harity).symm
    obtain _ | ⟨hx, _ | _⟩ := hitems
    cases hresult
    exact .inl (run_unary hx)
  | binary op =>
    obtain ⟨a, b, rfl⟩ := List.length_eq_two.1 (Option.some.inj harity).symm
    obtain _ | ⟨ha, _ | ⟨hb, _ | _⟩⟩ := hitems
    have hvalue : op.apply a b = .ok value := hresult
    left
    refine (run_binary ha hb).trans ?_
    rw [hvalue]
    rfl
  | shift toLeft =>
    obtain ⟨x, s, rfl⟩ := List.length_eq_two.1 (Option.some.inj harity).symm
    obtain _ | ⟨hx, _ | ⟨hs, _ | _⟩⟩ := hitems
    by_cases hnear : |s| ≤ 256
    · obtain rfl : shiftLeft x (if toLeft then s else -s) = value := Except.ok.inj ((if_pos hnear).symm.trans hresult)
      rcases eq_or_ne s 0 with rfl | hzero
      · have hvalue : shiftLeft x (if toLeft then 0 else -0) = x := by simp [shiftLeft]
        rw [hvalue]
        exact .inr ⟨by simp, _, hx, run_shift_zero hs⟩
      · exact .inl (run_shift hx hs hnear hzero)
    · cases (if_neg hnear).symm.trans hresult
  | _ => cases harity

/-- Where it has none, it ends in the fault. -/
theorem run_of_refuses (hitems : StandFor items values) (hrefuses : op.Refuses values fault) :
    ∃ left, op.run limits transaction ⟨items.reverse ++ rest, heap⟩ = .error fault left := by
  cases hrefuses with
  | div a | mod a =>
    obtain _ | ⟨ha, _ | ⟨hb, _ | _⟩⟩ := hitems
    exact ⟨_, run_binary ha hb⟩
  | shift hfar =>
    obtain _ | ⟨hx, _ | ⟨hs, _ | _⟩⟩ := hitems
    exact ⟨_, run_shift_far hs hfar⟩

open Integer in
/-- Of integers in range, the operator makes one in range except where it may overflow. -/
theorem Computes.inRange (h : op.Computes values value) (hrange : ∀ v ∈ values, Item.InRange v) :
    Item.InRange value ∨ op.MayOverflow values := by
  have hresult := h.result_eq
  cases h with
  | inc x => exact .inr (.inc x)
  | dec x => exact .inr (.dec x)
  | negate x => exact .inr (.negate x)
  | abs x => exact .inr (.abs x)
  | add a b => exact .inr (.add a b)
  | sub a b => exact .inr (.sub a b)
  | mul a b => exact .inr (.mul a b)
  | sign x =>
    left
    split
    · decide
    · split <;> decide
  | @invert x _ hbits =>
    obtain rfl : bitNot x = value := Except.ok.inj hresult
    have hx : Item.InRange x := hrange x (by simp)
    exact .inl (inRange_of_bits (f := fun c _ => !c) hx hx fun place => bit_bitNot x place)
  | @and a b _ hbits =>
    obtain rfl : bitAnd a b = value := Except.ok.inj hresult
    exact .inl (inRange_of_bits (hrange a (by simp)) (hrange b (by simp)) fun place => bit_bitAnd a b place)
  | @or a b _ hbits =>
    obtain rfl : bitOr a b = value := Except.ok.inj hresult
    exact .inl (inRange_of_bits (hrange a (by simp)) (hrange b (by simp)) fun place => bit_bitOr a b place)
  | @xor a b _ hbits =>
    obtain rfl : bitXor a b = value := Except.ok.inj hresult
    exact .inl (inRange_of_bits (hrange a (by simp)) (hrange b (by simp)) fun place => bit_bitXor a b place)
  | @div a b hb =>
    rw [truncate_div]
    rcases Item.inRange_tdiv (b := b) (hrange a (by simp)) with hquotient | ⟨rfl, rfl⟩
    · exact .inl hquotient
    · exact .inr .div
  | @mod a b hb =>
    rw [truncate_div, mul_comm, ← Int.tmod_def]
    exact .inl (Item.inRange_tmod (hrange a (by simp)))
  | min a b =>
    rcases min_choice a b with h | h <;> rw [h]
    · exact .inl (hrange a (by simp))
    · exact .inl (hrange b (by simp))
  | max a b =>
    rcases max_choice a b with h | h <;> rw [h]
    · exact .inl (hrange a (by simp))
    · exact .inl (hrange b (by simp))
  | @shl x s hs =>
    rcases le_or_gt s 0 with hright | hleft
    · rw [floor_mul_zpow]
      exact .inl (Item.inRange_shiftLeft (hrange x (by simp)) hright)
    · exact .inr (.shl hleft)
  | @shr x s hs =>
    rcases le_or_gt 0 s with hright | hleft
    · rw [floor_mul_zpow]
      exact .inl (Item.inRange_shiftLeft (hrange x (by simp)) (by omega))
    · exact .inr (.shr hleft)

theorem Computes.integers?_eq (h : op.Computes values value) : op.integers? = some values.length := by
  cases h <;> rfl

/-- The value of an operator is left on the stack, or it overflows. -/
theorem Computes.leaves (h : op.Computes values value) (hitems : StandFor items values)
    (hrange : ∀ v ∈ values, Item.InRange v) : op.Leaves items value := by
  intro limits transaction rest heap
  rcases run_of_result_ok hitems h.integers?_eq h.result_eq with hrun | ⟨hoperand, item, hitem, hrun⟩
  · rw [hrun, Operation.pushInteger_eq]
    split
    · exact ⟨_, rfl, rfl⟩
    · exact ⟨_, rfl⟩
  · rw [if_pos (hrange value hoperand)]
    exact ⟨item, hrun, hitem⟩

/-! ### Laws of the table -/

/-- The quotient and the remainder make up the dividend, and the remainder is smaller than the divisor and never of the
other sign than the dividend. -/
theorem division_with_remainder {q r : Int} (hq : (binary .div).Computes [a, b] q)
    (hr : (binary .mod).Computes [a, b] r) :
    a = q * b + r ∧ |r| < |b| ∧ (r = 0 ∨ r.sign = a.sign) := by
  cases hq with
  | div hb =>
    obtain rfl : a.tmod b = r := by
      have hresult := hr.result_eq
      rw [result, BinaryOperator.apply, if_neg hb] at hresult
      exact Except.ok.inj hresult
    rw [truncate_div]
    refine ⟨(Int.tdiv_mul_add_tmod a b).symm, ?_, ?_⟩
    · rw [Int.abs_eq_natAbs, Int.abs_eq_natAbs, Int.natAbs_tmod]
      exact_mod_cast Nat.mod_lt _ (Int.natAbs_pos.2 hb)
    · have hsign := Int.sign_tmod a b
      split at hsign
      · exact .inl (Int.sign_eq_zero_iff_zero.1 hsign)
      · exact .inr hsign

/-- Shifting to the left is shifting to the right by as much the other way. -/
theorem shift_mirror : (shift true).Computes [x, s] value ↔ (shift false).Computes [x, -s] value := by
  constructor
  · intro h
    cases h with
    | shl hs =>
      have hmirror := Computes.shr (x := x) (s := -s) (by rwa [abs_neg])
      rwa [neg_neg] at hmirror
  · intro h
    cases h with
    | shr hs =>
      rw [neg_neg]
      exact .shl (by rwa [abs_neg] at hs)

/-- Let items stand for integers in range.  An arithmetic operator on them leaves an item that stands for the value of
the table, or overflows if that is out of range, which it can only be where the table says so; where there is no value
it ends in the fault of the table. -/
theorem arithmetic_exact (op : Operator) (hitems : StandFor items values) (hrange : ∀ v ∈ values, Item.InRange v)
    (harity : op.integers? = some values.length) :
    ((∃ value, op.Computes values value) ∨ ∃ fault, op.Refuses values fault) ∧
    (∀ value, op.Computes values value →
      op.Leaves items value ∧ (¬Item.InRange value → op.MayOverflow values)) ∧
    (∀ fault, op.Refuses values fault → op.FaultsWith items fault) ∧
    (∀ a b q r, (binary .div).Computes [a, b] q → (binary .mod).Computes [a, b] r →
      a = q * b + r ∧ |r| < |b| ∧ (r = 0 ∨ r.sign = a.sign)) ∧
    (∀ x s value, (shift true).Computes [x, s] value ↔ (shift false).Computes [x, -s] value) := by
  refine ⟨computes_or_refuses harity, fun value h => ⟨h.leaves hitems hrange, ?_⟩, ?_, ?_, ?_⟩
  · exact fun hout => (h.inRange hrange).resolve_left hout
  · intro fault h limits transaction rest heap
    exact run_of_refuses hitems h
  · exact fun a b q r hq hr => division_with_remainder hq hr
  · exact fun x s value => shift_mirror

/-- Dividing `-7`, given as a byte string, by `2` leaves `-3`, and dividing the least integer by `-1` overflows. -/
theorem divisions_by_two_and_minus_one :
    (binary .div).Leaves [.byteArray [0xF9], .integer 2] (-3) ∧
      (binary .div).Leaves [.integer (-2 ^ 255), .integer (-1)] (2 ^ 255) := by
  have hseven : StandFor [.byteArray [0xF9], .integer 2] [-7, 2] := .cons rfl (.cons rfl .nil)
  have hleast : StandFor [.integer (-2 ^ 255), .integer (-1)] [-2 ^ 255, -1] := .cons rfl (.cons rfl .nil)
  have hexact := (arithmetic_exact (binary .div) hseven (by decide) rfl).2.1 _ (.div (by decide))
  have hsharp := (arithmetic_exact (binary .div) hleast (by decide) rfl).2.1 _ (.div (by decide))
  rw [truncate_div] at hexact hsharp
  exact ⟨hexact.1, hsharp.1⟩

end Operator
end LedgerVM
