import LedgerVM.Proofs.Machine.HandOver
import LedgerVM.Proofs.Machine.Range
import LedgerVM.Proofs.Service.Writes

/-!
# Operands of integer operators

An operator that takes integers reads every one of its operands, but for the value of a shift by zero, which is left as
it is (`Operator.exists_integer_of_run`).  A byte string of more than 32 bytes cannot be read as an integer, and an
integer item as wide as that never comes up in a machine that was not given any.  So wherever a wide operand is found,
the machine faults (`Machine.wide_operand_faults`).
-/

namespace LedgerVM

/-- The number of operands, from the top of the stack on, that an operator takes for integers. -/
def Operator.integerOperands : Operator → Nat
  | unary _ | nonzero => 1
  | binary _ | shift _ | compare _ => 2
  | within => 3
  | _ => 0

/-- The operator shifts by zero, for which it does not look at what is shifted. -/
def Operator.ShiftsByZero (op : Operator) (stack : List Item) : Prop :=
  ∃ toLeft count rest, op = .shift toLeft ∧ stack = count :: rest ∧ count.toInteger = .ok 0

namespace Operation

variable {w v : Workbench}

theorem popInteger_eq_ok {x : Int} :
    popInteger w = .ok x v ↔
      ∃ item rest, w.stack = item :: rest ∧ item.toInteger = .ok x ∧ v = { w with stack := rest } :=
  popAs_eq_ok

theorem popPair_eq_ok {a b : Int} (h : popPair w = .ok (a, b) v) :
    ∃ itemA itemB rest, w.stack = itemB :: itemA :: rest ∧ itemA.toInteger = .ok a ∧ itemB.toInteger = .ok b := by
  obtain ⟨b', u, hb, h⟩ := Action.bind_eq_ok.1 h
  obtain ⟨a', t, ha, h⟩ := Action.bind_eq_ok.1 h
  cases h
  obtain ⟨itemB, below, hstack, hitemB, rfl⟩ := popInteger_eq_ok.1 hb
  obtain ⟨itemA, rest, hbelow, hitemA, -⟩ := popInteger_eq_ok.1 ha
  obtain rfl : below = itemA :: rest := hbelow
  exact ⟨itemA, itemB, rest, hstack, hitemA, hitemB⟩

theorem popShift_eq_ok {s : Int} (h : popShift w = .ok s v) :
    ∃ item rest, w.stack = item :: rest ∧ item.toInteger = .ok s ∧ v = { w with stack := rest } := by
  obtain ⟨s', u, hs, h⟩ := Action.bind_eq_ok.1 h
  split at h
  · cases h
    exact popInteger_eq_ok.1 hs
  · cases h

end Operation

namespace Operator

variable {op : Operator} {limits : Limits} {transaction : Option Transaction} {w v : Workbench} {i : Nat}

/-- An operator that succeeds has read every one of its integers, unless it shifts by zero. -/
theorem exists_integer_of_run (hrun : op.run limits transaction w = .ok () v) (hi : i < op.integerOperands)
    (hshift : ¬(op.ShiftsByZero w.stack ∧ i = 1)) :
    ∃ item value, w.stack[i]? = some item ∧ item.toInteger = .ok value := by
  cases op with
  | unary op | nonzero =>
    obtain ⟨x, u, hx, -⟩ := Action.bind_eq_ok.1 hrun
    obtain ⟨item, rest, hstack, hitem, -⟩ := Operation.popInteger_eq_ok.1 hx
    obtain rfl : i = 0 := Nat.lt_one_iff.1 hi
    exact ⟨item, x, by rw [hstack]; rfl, hitem⟩
  | binary op | compare op =>
    obtain ⟨⟨a, b⟩, u, hpair, -⟩ := Action.bind_eq_ok.1 hrun
    obtain ⟨itemA, itemB, rest, hstack, hitemA, hitemB⟩ := Operation.popPair_eq_ok hpair
    rw [hstack]
    match i, hi with
    | 0, _ => exact ⟨itemB, b, rfl, hitemB⟩
    | 1, _ => exact ⟨itemA, a, rfl, hitemA⟩
  | shift toLeft =>
    obtain ⟨s, u, hs, hrun⟩ := Action.bind_eq_ok.1 hrun
    obtain ⟨count, rest, hstack, hcount, rfl⟩ := Operation.popShift_eq_ok hs
    match i, hi with
    | 0, _ => exact ⟨count, s, by rw [hstack]; rfl, hcount⟩
    | 1, _ =>
      have hzero : s ≠ 0 := by
        rintro rfl
        exact hshift ⟨⟨toLeft, count, rest, rfl, hstack, hcount⟩, rfl⟩
      rw [if_pos hzero] at hrun
      obtain ⟨x, u, hx, -⟩ := Action.bind_eq_ok.1 hrun
      obtain ⟨item, below, hrest, hitem, -⟩ := Operation.popInteger_eq_ok.1 hx
      obtain rfl : rest = item :: below := hrest
      exact ⟨item, x, by rw [hstack]; rfl, hitem⟩
  | within =>
    obtain ⟨upper, u, hupper, hrun⟩ := Action.bind_eq_ok.1 hrun
    obtain ⟨lower, t, hlower, hrun⟩ := Action.bind_eq_ok.1 hrun
    obtain ⟨x, s, hx, -⟩ := Action.bind_eq_ok.1 hrun
    obtain ⟨itemUpper, below, hstack, hitemUpper, rfl⟩ := Operation.popInteger_eq_ok.1 hupper
    obtain ⟨itemLower, rest, hbelow, hitemLower, rfl⟩ := Operation.popInteger_eq_ok.1 hlower
    obtain ⟨itemX, rest', hrest, hitemX, -⟩ := Operation.popInteger_eq_ok.1 hx
    obtain rfl : below = itemLower :: rest := hbelow
    obtain rfl : rest = itemX :: rest' := hrest
    rw [hstack]
    match i, hi with
    | 0, _ => exact ⟨itemUpper, upper, rfl, hitemUpper⟩
    | 1, _ => exact ⟨itemLower, lower, rfl, hitemLower⟩
    | 2, _ => exact ⟨itemX, x, rfl, hitemX⟩
  | _ => cases hi

end Operator

namespace Machine

variable {setting : Setting} {m : Machine} {op : Operator} {stack : List Item} {item : Item} {bytes : Bytes} {i : Nat}

/-- A machine faults if its next instruction is an operator that does not succeed on its stack. -/
theorem faulted_of_operator (hnext : m.next? = some (.operate op)) (hstack : m.calls.stack? = some stack)
    (hfails : ∀ v, op.run setting.limits setting.transaction ⟨stack, m.calls.heap⟩ ≠ .ok () v) :
    (m.advance setting).status = .faulted := by
  obtain ⟨frame, rest, size, hframes, hdecode⟩ := next?_eq_some.1 hnext
  obtain rfl : frame.stack = stack := by
    rw [CallStack.stack?, hframes] at hstack
    exact Option.some.inj hstack
  rw [advance_eq setting (by rw [hframes]; exact List.cons_ne_nil _ _)]
  cases hstep : step setting m with
  | error fault n => rfl
  | ok _ n =>
    obtain ⟨frame', rest', i, size', p, gas, hframes', hdecode', -, -, -, hexecute, -⟩ := step_eq_ok.1 hstep
    rw [hframes] at hframes'
    cases hframes'
    rw [hdecode] at hdecode'
    cases hdecode'
    obtain ⟨c, hc, -⟩ := MachineAction.onCalls_eq_ok.1 hexecute
    obtain ⟨top, below, w, htop, hrun, -⟩ := CallAction.onTop_eq_ok.1 hc
    cases htop
    exact absurd hrun (hfails w)

/-- The machine was given integers in range only, and then driven. -/
def GivenInRange (setting : Setting) (m : Machine) : Prop :=
  ∃ script entry arguments heap start calls, heap.Resolves arguments ∧
    (∀ value, heap.Reaches arguments (.integer value) → Item.InRange value) ∧
    load setting.limits script entry arguments (initial setting.limits heap) = .ok () start ∧
    start.debug setting calls = some m

/-- No integer on the stack of a machine that was given integers in range is out of range. -/
theorem GivenInRange.inRange {value : Int} (h : m.GivenInRange setting) (hstack : m.calls.stack? = some stack)
    (hvalue : .integer value ∈ stack) : Item.InRange value := by
  obtain ⟨script, entry, arguments, heap, start, calls, hresolves, hintegers, hload, hdebug⟩ := h
  obtain ⟨frame, hframe, rfl⟩ := Option.map_eq_some_iff.1 hstack
  have hitems : .integer value ∈ frame.items := by simp [Frame.items, hvalue]
  have hretained : .integer value ∈ m.retained := by
    refine List.mem_append_left _ (List.mem_append_left _ (List.mem_append_left _ ?_))
    exact List.mem_flatMap.2 ⟨frame, List.mem_of_head? hframe, hitems⟩
  have hgiven := Bounds.holdsGiven_ranged hresolves hintegers
  exact (holds_of_debug (Bounds.suits_ranged setting) hgiven hload hdebug (.root hretained)).2

/-- Let the next instruction take an integer from a place of the stack where there is an item whose encoding is longer
than 32 bytes: a byte string, or any item if the machine was given integers in range.  Then the machine faults, unless
the item is the value of a shift by zero. -/
theorem wide_operand_faults (hnext : m.next? = some (.operate op)) (hstack : m.calls.stack? = some stack)
    (hi : i < op.integerOperands) (hitem : stack[i]? = some item) (hbytes : item.toBytes = .ok bytes)
    (hwide : 32 < bytes.length) (hsupplied : (∃ data, item = .byteArray data) ∨ m.GivenInRange setting)
    (hshift : ¬(op.ShiftsByZero stack ∧ i = 1)) : (m.advance setting).status = .faulted := by
  refine faulted_of_operator hnext hstack fun v hrun => ?_
  obtain ⟨item', value, hitem', hvalue⟩ := Operator.exists_integer_of_run hrun hi hshift
  obtain rfl : item = item' := Option.some.inj (hitem.symm.trans hitem')
  cases item with
  | boolean b => cases b <;> cases hbytes <;> simp at hwide
  | integer x =>
    cases hbytes
    have hrange : Item.InRange x := by
      rcases hsupplied with ⟨data, hdata⟩ | hgiven
      · cases hdata
      · exact hgiven.inRange hstack (List.mem_of_getElem? hitem)
    have hnarrow : (Bytes.ofInt x).length ≤ 32 := Item.inRange_iff.1 hrange
    omega
  | byteArray data =>
    cases hbytes
    cases (if_pos hwide).symm.trans hvalue
  | array ref | struct ref | map ref | interface handle => cases hbytes

/-- A script pushes 33 bytes and increments them.  Once they are pushed, the machine faults. -/
theorem wide_increment_faults : ∃ m,
    (ofScript Setting.blank.limits (0x21 :: List.replicate 33 0x01 ++ [0x8B])).debug Setting.blank [.stepInto] =
      some m ∧ (m.advance Setting.blank).status = .faulted := by
  let data : Item → Option Bytes
    | .byteArray bytes => some bytes
    | _ => none
  have hends : ((ofScript Setting.blank.limits (0x21 :: List.replicate 33 0x01 ++ [0x8B])).debug Setting.blank
        [.stepInto]).map (fun m => (m.next?, m.calls.stack?.map (·.map data))) =
      some (some (.operate (.unary .inc)), some [some (List.replicate 33 0x01)]) := by
    decide +kernel
  obtain ⟨m, hdebug, hm⟩ := Option.map_eq_some_iff.1 hends
  obtain ⟨hnext, hm⟩ := Prod.mk.inj hm
  obtain ⟨stack, hstack, hdata⟩ := Option.map_eq_some_iff.1 hm
  obtain ⟨item, rfl, hitem⟩ := List.map_eq_singleton_iff.1 hdata
  cases item with
  | byteArray bytes =>
    cases hitem
    refine ⟨m, hdebug, wide_operand_faults (i := 0) hnext hstack (by decide) rfl rfl (by decide) (.inl ⟨_, rfl⟩) ?_⟩
    rintro ⟨-, hfirst⟩
    cases hfirst
  | _ => cases hitem

end Machine
end LedgerVM
