import LedgerVM.Proofs.Machine.Failure
import LedgerVM.Proofs.Machine.HandOver
import LedgerVM.Proofs.Service.Reports

/-!
# The index that a fault reports

A step fails with the report of an index if the instruction that it executes is an operator or a service that refuses
an operand as a count or an index, and for no other reason (`Machine.step_reports`).  What is reported of the operand
is the operand itself if it is a signed 64-bit number.  Otherwise it hangs on the check (`Machine.index_reports_exact`).
-/

namespace LedgerVM

open LedgerVM.Action LedgerVM.Action.Quiet

/-! ### Decoding -/

theorem decodeOpcode_silent (opcode : UInt8) (position : Nat) (rest : Bytes) :
    Silent (decodeOpcode opcode position rest) := by
  have hoperand (offset length : Nat) : Silent (operandBytes opcode position rest offset length) := .ite nofun nofun
  have hnumber (width : Nat) : Silent (do return Bytes.toNat (← operandBytes opcode position rest 0 width)) :=
    .bind (hoperand 0 width) fun _ => nofun
  unfold decodeOpcode
  -- the first byte is looked up kind by kind: literals, small numbers, calls, services, slots, the rest
  refine .ite (.bind (hoperand _ _) fun _ => nofun) ?_
  refine .ite (.bind (hnumber 1) fun _ => .bind (hoperand _ _) fun _ => nofun) ?_
  refine .ite (.bind (hnumber 2) fun _ => .bind (hoperand _ _) fun _ => nofun) ?_
  refine .ite (.bind (hnumber 4) fun length => .ite nofun (.bind (hoperand _ _) fun _ => nofun)) ?_
  refine .ite nofun (.ite nofun ?_)
  refine .ite (.bind (hoperand _ _) fun bytes => ?_) ?_
  · split <;> exact nofun
  refine .ite (.bind (hnumber 1) fun length => .ite nofun ?_) ?_
  · exact .bind (hoperand _ _) fun name => .ite nofun (.ite nofun nofun)
  refine .ite (.bind (hoperand _ _) fun _ => nofun) ?_
  split
  · exact nofun
  · exact .bind (hoperand _ _) fun _ => nofun
  · exact .bind (hnumber 1) fun _ => nofun
  · exact nofun

theorem decode_silent (script : Bytes) (position : Nat) : Silent (decode script position) := by
  unfold decode
  split
  · exact nofun
  · exact decodeOpcode_silent _ _ _

/-! ### The call stack -/

theorem Frame.target_silent (f : Frame) (target : Int) : Silent (f.target target) := .ite nofun nofun

namespace CallAction

variable {α : Type}

theorem onTop_reports {operation : Operation α} {c : CallStack} {index : Int} {length : Nat} :
    (onTop operation).Reports c index length ↔
      ∃ stack, c.stack? = some stack ∧ operation.Reports ⟨stack, c.heap⟩ index length := by
  obtain ⟨frames, statics, heap⟩ := c
  unfold Reports onTop CallStack.stack?
  cases frames with
  | nil => simp
  | cons frame rest => cases hrun : operation ⟨frame.stack, heap⟩ <;> simp [hrun]

theorem onTop_quiet {operation : Operation α} (h : operation.Quiet) : (onTop operation).Quiet := by
  intro c index length hreports
  obtain ⟨stack, -, hreports⟩ := onTop_reports.1 hreports
  exact h _ index length hreports

theorem top_quiet : top.Quiet := by
  rintro c index length ⟨d, h⟩
  unfold top at h
  split at h <;> cases h

theorem setTop_quiet (frame : Frame) : (setTop frame).Quiet := by
  rintro c index length ⟨d, h⟩
  unfold setTop at h
  split at h <;> cases h

theorem modifyTop_quiet (f : Frame → Frame) : (modifyTop f).Quiet := bind top_quiet fun _ => setTop_quiet _

theorem pushFrame_quiet (maxDepth : Nat) (frame : Frame) : (pushFrame maxDepth frame).Quiet := by
  rintro c index length ⟨d, h⟩
  unfold pushFrame at h
  split at h <;> cases h

theorem popFrame_quiet : popFrame.Quiet := by
  rintro c index length ⟨d, h⟩
  unfold popFrame at h
  split at h <;> cases h

theorem newFrame_quiet (script : Script) (stack : List Item) : (newFrame script stack).Quiet :=
  of_ok fun _ => ⟨_, _, rfl⟩

theorem jump_quiet (target : Int) : (jump target).Quiet :=
  bind top_quiet fun frame => bind (ofExcept (frame.target_silent target)) fun _ => setTop_quiet _

theorem takeStack_quiet : takeStack.Quiet := bind top_quiet fun _ => bind (setTop_quiet _) fun _ => pure _

theorem peekAlt_quiet : peekAlt.Quiet := by
  refine bind top_quiet fun frame => ?_
  split
  · exact pure _
  · exact throw rfl

theorem popAlt_quiet : popAlt.Quiet := by
  refine bind top_quiet fun frame => ?_
  split
  · exact bind (setTop_quiet _) fun _ => pure _
  · exact throw rfl

theorem slot?_quiet (kind : SlotKind) : (slot? kind).Quiet := by
  refine bind top_quiet fun frame => ?_
  cases kind with
  | «local» | argument => exact pure _
  | static => exact bind (of_ok fun c => ⟨c, c, rfl⟩) fun _ => pure _

theorem setSlot_quiet (kind : SlotKind) (values : List Item) : (setSlot kind values).Quiet := by
  refine bind top_quiet fun frame => ?_
  cases kind with
  | «local» | argument => exact setTop_quiet _
  | static => exact of_ok fun c => ⟨⟨⟩, _, rfl⟩

theorem initStatic_quiet (count : Nat) : (initStatic count).Quiet :=
  bind (slot?_quiet _) fun _ => check rfl (setSlot_quiet _ _)

theorem initSlots_quiet (locals arguments : Nat) : (initSlots locals arguments).Quiet := by
  have harguments : (do if arguments ≠ 0 then setSlot .argument (← onTop (.popMany arguments)) :
      CallAction Unit).Quiet := by
    split
    · exact bind (onTop_quiet (Operation.popMany_quiet _)) fun _ => setSlot_quiet _ _
    · exact pure _
  refine bind top_quiet fun frame => check rfl ?_
  dsimp only
  split
  · exact bind (setSlot_quiet _ _) fun _ => harguments
  · exact harguments

theorem slot_quiet (kind : SlotKind) : (slot kind).Quiet := by
  refine bind (slot?_quiet kind) fun found => ?_
  split
  · exact pure _
  · exact throw rfl

theorem load_quiet (kind : SlotKind) (index : Nat) : (load kind index).Quiet := by
  refine bind (slot_quiet kind) fun values => ?_
  split
  · exact pure _
  · exact throw rfl

theorem store_quiet (kind : SlotKind) (index : Nat) (item : Item) : (store kind index item).Quiet := by
  refine bind (slot_quiet kind) fun values => ?_
  split
  · exact setSlot_quiet _ _
  · exact throw rfl

end CallAction

/-! ### Instructions -/

open CallAction

namespace MachineAction

variable {α : Type}

theorem onCalls_quiet {action : CallAction α} (h : action.Quiet) : (onCalls action).Quiet := within h

theorem onStack_reports {operation : Operation α} {m : Machine} {index : Int} {length : Nat} :
    (onStack operation).Reports m index length ↔
      ∃ stack, m.calls.stack? = some stack ∧ operation.Reports ⟨stack, m.calls.heap⟩ index length :=
  reports_within.trans onTop_reports

theorem onStack_quiet {operation : Operation α} (h : operation.Quiet) : (onStack operation).Quiet :=
  onCalls_quiet (onTop_quiet h)

theorem findService_quiet (id : UInt32) : (findService id).Quiet := by
  unfold findService
  split
  · exact pure _
  · exact throw rfl

theorem findService_bind_reports {id : UInt32} {f : Service → MachineAction α} {m : Machine} {index : Int}
    {length : Nat} :
    (findService id >>= f).Reports m index length ↔
      ∃ service, Service.ofId? id = some service ∧ (f service).Reports m index length := by
  unfold findService
  cases Service.ofId? id with
  | none =>
    refine iff_of_false ?_ (by simp)
    rintro ⟨n, h⟩
    cases h
  | some service => simp

theorem callService_reports {setting : Setting} {service : Service} {m : Machine} {index : Int} {length : Nat} :
    (callService setting service).Reports m index length ↔
      ∃ stack item check, m.calls.stack? = some stack ∧ service.Checks stack item check ∧
        check.Reports item index length := by
  cases hframes : m.calls.frames with
  | nil =>
    unfold Reports callService CallStack.stack?
    rw [hframes]
    simp
  | cons frame rest =>
    have hstack := CallStack.stack?_of_frames hframes
    obtain ⟨context, hcall⟩ : ∃ context, (callService setting service).Reports m index length ↔
        (service.run context).Reports ⟨⟨frame.stack, m.calls.heap⟩, m.effects⟩ index length := by
      refine ⟨{ setting, executing := frame.script.hash, calling := m.calls.calling?,
                entry := m.calls.entry?.getD frame.script.hash }, ?_⟩
      unfold Reports callService
      rw [hframes]
      dsimp only
      cases service.run _ _ <;> simp
    rw [hcall, service.run_reports context, hstack]
    simp

theorem call_quiet (limits : Limits) (target : Int) : (call limits target).Quiet :=
  onCalls_quiet <| bind top_quiet fun frame => bind (ofExcept (frame.target_silent target)) fun _ =>
    bind takeStack_quiet fun _ => pushFrame_quiet _ _

theorem ret_quiet : ret.Quiet := by
  refine bind (onCalls_quiet popFrame_quiet) fun frame => bind (of_ok fun m => ⟨m, m, rfl⟩) fun m => ?_
  split
  · exact of_ok fun m => ⟨⟨⟩, _, rfl⟩
  · exact onStack_quiet (Operation.pushAll_quiet _)

theorem callTarget_quiet (ledger : Ledger) (target : Hash160) : (callTarget ledger target).Quiet := by
  have hcheck : (checkDynamicInvoke ledger).Quiet := by
    refine bind (onCalls_quiet top_quiet) fun frame => bind (ofExcept (.mapError (fun _ => rfl) _)) fun found => ?_
    split
    · split
      · exact throw rfl
      · exact pure _
    · exact throw rfl
  unfold callTarget
  split
  · refine bind hcheck fun _ => bind (onStack_quiet Operation.popBytes_quiet) fun bytes => ?_
    split
    · exact pure _
    · exact throw rfl
  · exact pure _

theorem appCall_quiet (setting : Setting) (target : Hash160) (tail : Bool) : (appCall setting target tail).Quiet := by
  refine bind (callTarget_quiet _ _) fun hash => bind (ofExcept (.mapError (fun _ => rfl) _)) fun found => ?_
  split
  · exact throw rfl
  · refine onCalls_quiet (bind takeStack_quiet fun stack => bind (newFrame_quiet _ _) fun frame => ?_)
    dsimp only
    split
    · exact bind popFrame_quiet fun _ => pushFrame_quiet _ _
    · exact pushFrame_quiet _ _

end MachineAction

open MachineAction

namespace Instruction

/-- The instruction takes an operand off the stack and checks it in this way. -/
inductive Checks (h : Heap) : Instruction → List Item → Item → IndexCheck → Prop
  | operate {op : Operator} {stack : List Item} {item : Item} {check : IndexCheck}
      (hop : op.Checks h stack item check) : Checks h (.operate op) stack item check
  | syscall {id : UInt32} {service : Service} {stack : List Item} {item : Item} {check : IndexCheck}
      (hid : Service.ofId? id = some service) (hservice : service.Checks stack item check) :
      Checks h (.syscall id) stack item check

variable {setting : Setting} {position : Nat} {m : Machine} {index : Int} {length : Nat}

/-- An instruction that neither is an operator nor calls a service reports no index. -/
theorem execute_quiet {i : Instruction} (hoperate : ∀ op, i ≠ .operate op) (hsyscall : ∀ id, i ≠ .syscall id) :
    (i.execute setting position).Quiet := by
  cases i with
  | operate op => exact absurd rfl (hoperate op)
  | syscall id => exact absurd rfl (hsyscall id)
  | pushBytes data =>
    simp only [execute]
    exact check rfl (onStack_quiet (Operation.push_quiet _))
  | pushInt value => exact onStack_quiet (Operation.push_quiet _)
  | nop => exact pure _
  | jump offset => exact onCalls_quiet (jump_quiet _)
  | jumpIf expected offset =>
    refine onCalls_quiet (bind top_quiet fun frame => bind (ofExcept (frame.target_silent _)) fun pointer => ?_)
    refine bind (onTop_quiet Operation.popBool_quiet) fun popped => ?_
    split
    · exact modifyTop_quiet _
    · exact pure _
  | call offset => exact call_quiet _ _
  | ret => exact ret_quiet
  | appCall target tail => exact appCall_quiet setting target tail
  | dupFromAlt =>
    exact onCalls_quiet (bind peekAlt_quiet fun item => onTop_quiet (Operation.pushDuplicate_quiet item))
  | toAlt => exact onCalls_quiet (bind (onTop_quiet Operation.pop_quiet) fun _ => modifyTop_quiet _)
  | fromAlt => exact onCalls_quiet (bind popAlt_quiet fun _ => onTop_quiet (Operation.push_quiet _))
  | initStatic count =>
    simp only [execute]
    exact check rfl (onCalls_quiet (initStatic_quiet _))
  | initSlots locals arguments =>
    simp only [execute]
    exact check rfl (onCalls_quiet (initSlots_quiet _ _))
  | load slot index => exact onCalls_quiet (bind (load_quiet _ _) fun _ => onTop_quiet (Operation.push_quiet _))
  | store slot index =>
    exact onCalls_quiet (bind (onTop_quiet Operation.pop_quiet) fun _ => store_quiet _ _ _)
  | raise => exact bind (onCalls_quiet (modifyTop_quiet _)) fun _ => throw rfl
  | raiseUnless =>
    refine bind (onStack_quiet Operation.popBool_quiet) fun passed => ?_
    split
    · exact bind (onCalls_quiet (modifyTop_quiet _)) fun _ => throw rfl
    · exact pure _

/-- An instruction reports the operand that it refuses, and nothing else. -/
theorem execute_reports (i : Instruction) :
    (i.execute setting position).Reports m index length ↔
      ∃ stack item check, m.calls.stack? = some stack ∧ i.Checks m.calls.heap stack item check ∧
        check.Reports item index length := by
  by_cases hoperate : ∃ op, i = .operate op
  · obtain ⟨op, rfl⟩ := hoperate
    refine onStack_reports.trans (exists_congr fun stack => ?_)
    rw [Operator.run_reports]
    constructor
    · rintro ⟨hstack, item, check, hchecks, hitem⟩
      exact ⟨item, check, hstack, .operate hchecks, hitem⟩
    · rintro ⟨item, check, hstack, hchecks, hitem⟩
      cases hchecks with
      | operate hchecks => exact ⟨hstack, item, check, hchecks, hitem⟩
  by_cases hsyscall : ∃ id, i = .syscall id
  · obtain ⟨id, rfl⟩ := hsyscall
    refine findService_bind_reports.trans ?_
    simp only [callService_reports]
    constructor
    · rintro ⟨service, hid, stack, item, check, hstack, hchecks, hitem⟩
      exact ⟨stack, item, check, hstack, .syscall hid hchecks, hitem⟩
    · rintro ⟨stack, item, check, hstack, hchecks, hitem⟩
      cases hchecks with
      | syscall hid hchecks => exact ⟨_, hid, stack, item, check, hstack, hchecks, hitem⟩
  · refine iff_of_false (execute_quiet (by simpa using hoperate) (by simpa using hsyscall) _ _ _) ?_
    rintro ⟨stack, item, check, -, hchecks, -⟩
    cases hchecks with
    | operate => exact hoperate ⟨_, rfl⟩
    | syscall => exact hsyscall ⟨_, rfl⟩

end Instruction

/-! ### Steps -/

theorem GasMeter.charge_silent (meter : GasMeter) (price : UInt64) : Silent (meter.charge price) := .ite nofun nofun

theorem GasSchedule.putPrice_quiet (schedule : GasSchedule) : schedule.putPrice.Quiet := by
  unfold putPrice
  refine bind (Operation.peek_quiet 1) fun item => ?_
  refine bind (ofExcept item.toBytes_silent) fun key => ?_
  refine bind (Operation.peek_quiet 2) fun item => ?_
  refine bind (ofExcept item.toBytes_silent) fun value => ?_
  exact pure _

namespace Machine

variable {setting : Setting} {m : Machine} {index : Int} {length : Nat}

/-- The next instruction is read, within the bound on steps, and paid for, so that the step goes on to execute it. -/
def Attempts (setting : Setting) (m : Machine) (i : Instruction) : Prop :=
  ∃ frame rest size p gas, m.calls.frames = frame :: rest ∧
    decode frame.script.bytes frame.pointer = .ok (i, size) ∧
    (∀ limit, setting.limits.steps = some limit → m.steps < limit) ∧
    price setting.schedule i (m.fetched frame) = .ok p (m.fetched frame) ∧ m.gas.charge p = .ok gas

theorem price_quiet (schedule : GasSchedule) (i : Instruction) : (price schedule i).Quiet := by
  have hkeys : multisigKeys.Quiet := by
    refine bind (Operation.peek_quiet 0) fun item => ?_
    split
    · exact bind Operation.heap_quiet fun _ => pure _
    · exact bind Operation.heap_quiet fun _ => pure _
    · exact bind (ofExcept item.toInteger_silent) fun _ => pure _
  rcases price_cases schedule i with ⟨id, hprice⟩ | hprice | hprice
  · rw [hprice]
    refine bind (findService_quiet id) fun service => onStack_quiet ?_
    unfold Service.price
    split
    · exact pure _
    · exact schedule.putPrice_quiet
  · rw [hprice]
    exact bind (onStack_quiet hkeys) fun _ => pure _
  · rw [hprice]
    exact pure _

theorem step_of_nil (hframes : m.calls.frames = []) : step setting m = .error .noFrame m := by
  have htop : onCalls .top m = .error .noFrame m := by
    refine onCalls_eq_error.2 ⟨m.calls, ?_, rfl⟩
    unfold CallAction.top
    rw [hframes]
  exact bind_of_error (bind_of_error htop)

/-- A step reports the operand that its instruction refuses, and nothing else. -/
theorem step_reports :
    (step setting).Reports m index length ↔
      ∃ i stack item check, m.Attempts setting i ∧ m.calls.stack? = some stack ∧
        i.Checks m.calls.heap stack item check ∧ check.Reports item index length := by
  cases hframes : m.calls.frames with
  | nil =>
    refine iff_of_false ?_ ?_
    · rintro ⟨n, h⟩
      rw [step_of_nil hframes] at h
      cases h
    · rintro ⟨i, stack, item, check, ⟨frame, rest, _, _, _, hcons, -⟩, -⟩
      rw [hframes] at hcons
      cases hcons
  | cons frame rest =>
    have hstack := CallStack.stack?_of_frames hframes
    constructor
    · rintro ⟨n, h⟩
      cases (step_eq_error hframes).1 h with
      | decoding hdecode => exact absurd hdecode (decode_silent _ _ _ _)
      | pricing hi hlimit hprice => exact absurd ⟨n, hprice⟩ (price_quiet _ _ _ _ _)
      | gas hi hlimit hprice hgas => exact absurd hgas (GasMeter.charge_silent _ _ _ _)
      | executing hi hlimit hprice hgas hexecute =>
        obtain ⟨stack, item, check, hentering, hchecks, hitem⟩ := (Instruction.execute_reports _).1 ⟨n, hexecute⟩
        exact ⟨_, stack, item, check, ⟨frame, rest, _, _, _, hframes, hi, hlimit, hprice, hgas⟩,
          hstack.trans hentering, hchecks, hitem⟩
    · rintro ⟨i, stack, item, check, ⟨frame', rest', size, p, gas, hframes', hi, hlimit, hprice, hgas⟩, hstack',
        hchecks, hitem⟩
      cases hframes.symm.trans hframes'
      have hentering : (m.entering frame rest size gas).calls.stack? = some stack := hstack.symm.trans hstack'
      obtain ⟨n, hexecute⟩ := (Instruction.execute_reports i).2 ⟨stack, item, check, hentering, hchecks, hitem⟩
      exact ⟨n, (step_eq_error hframes).2 (.executing hi hlimit hprice hgas hexecute)⟩

/-- A step reports an index exactly if its instruction takes an operand as a count or an index and refuses it.  An
operand that is a signed 64-bit number is reported as it is.  Of any other the nearest such number is reported if it was
below the range and refused as a count, or above the range and refused as the place of an element.  Otherwise what is
reported does not even have the sign of the operand. -/
theorem index_reports_exact :
    ((step setting).Reports m index length ↔
      ∃ i stack item check v, m.Attempts setting i ∧ m.calls.stack? = some stack ∧
        i.Checks m.calls.heap stack item check ∧ item.toInteger = .ok v ∧ check.Refuses v ∧
        index = check.report v ∧ length = check.length) ∧
    ∀ check v, IndexCheck.Refuses check v →
      (minInt64 ≤ v → v ≤ maxInt64 → check.report v = v) ∧
      (check.report v = clampInt64 v ↔
        (v < minInt64 → check = .count) ∧ (maxInt64 < v → ∃ elements, check = .element elements)) ∧
      (check.report v ≠ clampInt64 v → (check.report v < 0 ↔ 0 ≤ v)) := by
  constructor
  · rw [step_reports]
    constructor
    · rintro ⟨i, stack, item, check, hattempts, hstack, hchecks, v, hv, hreport⟩
      exact ⟨i, stack, item, check, v, hattempts, hstack, hchecks, hv, hreport⟩
    · rintro ⟨i, stack, item, check, v, hattempts, hstack, hchecks, hv, hreport⟩
      exact ⟨i, stack, item, check, hattempts, hstack, hchecks, v, hv, hreport⟩
  · intro check v h
    exact ⟨IndexCheck.report_of_fits h, IndexCheck.report_eq_clampInt64_iff h, IndexCheck.report_neg_iff h⟩

/-- A machine that is about to pick an element of an empty array, by an integer that is below every index. -/
def picking : Machine where
  gas := { limit := 1000 }
  calls :=
    { frames :=
        [{ script := { bytes := [0xC3], hash := .zero 20 }, stack := [.integer (minInt64 - 1), .array 0],
           statics := 0 }]
      statics := #[none]
      heap := { lists := #[[]] } }

/-- The integer is reported as one that is above every index, though the nearest number is below them. -/
theorem low_key_reported_high :
    (step Setting.blank).Reports picking maxInt64 0 ∧ clampInt64 (minInt64 - 1) = minInt64 := by
  refine ⟨index_reports_exact.1.2 ?_, by decide⟩
  refine ⟨.operate (.collection .pickItem), [.integer (minInt64 - 1), .array 0], _, _, minInt64 - 1, ?_, rfl,
    .operate (.element (.inl rfl) rfl), rfl, .inl (by decide), by decide, rfl⟩
  exact ⟨_, _, 1, 1, _, rfl, rfl, nofun, rfl, rfl⟩

end Machine
end LedgerVM
