import LedgerVM.Machine.Step
import LedgerVM.Proofs.Machine.Execute

/-!
# What a step does

* `Machine.step_eq_ok`: a step that succeeds fetched an instruction, paid for it, moved the executing frame
  behind it and executed it within the limits; every fact about such a step is derived from this one.
* `Machine.step_commutes`: a step does not read the breakpoints.
-/

namespace LedgerVM

namespace Machine

variable {setting : Setting} {m n : Machine}

/-! ### Prices -/

private theorem peek_reads (k : Nat) : (Operation.peek k).Reads where
  ok w item v h := by
    unfold Operation.peek at h
    split at h <;> cases h
    rfl
  error w fault v h := by
    unfold Operation.peek at h
    split at h <;> cases h
    rfl

private theorem heap_reads : Operation.heap.Reads where
  ok w heap v h := by
    cases h
    rfl
  error := nofun

private theorem multisigKeys_reads : multisigKeys.Reads := by
  refine .bind (peek_reads 0) fun item => ?_
  cases item with
  | array ref | struct ref => exact .bind heap_reads fun _ => .pure _
  | _ => exact .bind (.ofExcept _) fun _ => .pure _

private theorem servicePrice_reads (schedule : GasSchedule) (service : Service) :
    (service.price schedule).Reads := by
  unfold Service.price
  split
  · exact .pure _
  · refine .bind (peek_reads 1) fun key => .bind (.ofExcept _) fun _ => ?_
    exact .bind (peek_reads 2) fun value => .bind (.ofExcept _) fun _ => .pure _

private theorem onTop_reads {α : Type} {operation : Operation α} (hreads : operation.Reads) :
    (CallAction.onTop operation).Reads where
  ok c x d h := by
    obtain ⟨frame, rest, w, hframes, hw, rfl⟩ := CallAction.onTop_eq_ok.1 h
    rw [hreads.ok _ _ _ hw, ← hframes]
  error c fault d h := by
    unfold CallAction.onTop at h
    split at h
    · cases h
      rfl
    · rename_i frame rest hframes
      split at h
      · cases h
      · rename_i w hw
        cases h
        rw [hreads.error _ _ _ hw, ← hframes]

/-- A price hangs on the service, on the number of keys, or on the instruction alone. -/
theorem price_cases (schedule : GasSchedule) (i : Instruction) :
    (∃ id, price schedule i =
      MachineAction.findService id >>= fun service => MachineAction.onStack (service.price schedule)) ∨
    (price schedule i =
      MachineAction.onStack multisigKeys >>= fun keys => Pure.pure (schedule.multisigPrice keys)) ∨
    price schedule i = Pure.pure (schedule.instructionPrice i) := by
  cases i with
  | syscall id => exact .inl ⟨id, rfl⟩
  | operate op =>
    cases op with
    | checkMultisig => exact .inr (.inl rfl)
    | _ => exact .inr (.inr rfl)
  | _ => exact .inr (.inr rfl)

/-- Asking for a price changes nothing. -/
theorem price_reads (schedule : GasSchedule) (i : Instruction) : (price schedule i).Reads := by
  rcases price_cases schedule i with ⟨id, hprice⟩ | hprice | hprice
  · rw [hprice]
    refine .bind (MachineAction.findService_reads id) fun service => ?_
    exact MachineAction.onCalls_reads (onTop_reads (servicePrice_reads schedule service))
  · rw [hprice]
    exact .bind (MachineAction.onCalls_reads (onTop_reads multisigKeys_reads)) fun _ => .pure _
  · rw [hprice]
    exact .pure _

/-- A price does not hang on the book of the run. -/
theorem price_bookless (schedule : GasSchedule) (i : Instruction) : (price schedule i).Bookless := by
  have hclosed := MachineAction.closed_bookless
  rcases price_cases schedule i with ⟨id, hprice⟩ | hprice | hprice
  · rw [hprice]
    exact hclosed.bind (hclosed.findService id) fun _ => .onCalls _
  · rw [hprice]
    exact hclosed.bind (.onCalls _) fun _ => hclosed.pure _
  · rw [hprice]
    exact hclosed.pure _

/-! ### The parts of a step -/

theorem fetch_eq_ok {i : Instruction} {size : Nat} :
    fetch m = .ok (i, size) n ↔ ∃ frame rest, m.calls.frames = frame :: rest ∧
      decode frame.script.bytes frame.pointer = .ok (i, size) ∧ n = { m with cursor := some frame.location } := by
  constructor
  · intro h
    obtain ⟨frame, p, htop, hdecode⟩ := Action.bind_eq_ok.1 h
    obtain ⟨c, hc, rfl⟩ := MachineAction.onCalls_eq_ok.1 htop
    unfold CallAction.top at hc
    split at hc
    · rename_i frame' rest hframes
      cases hc
      obtain ⟨_, q, hq, hfetched⟩ := Action.bind_eq_ok.1 hdecode
      cases hq
      obtain ⟨hi, rfl⟩ := Action.ofExcept_eq_ok.1 hfetched
      exact ⟨frame, rest, hframes, hi, rfl⟩
    · cases hc
  · rintro ⟨frame, rest, hframes, hi, rfl⟩
    have htop : MachineAction.onCalls .top m = .ok frame m := by
      refine MachineAction.onCalls_eq_ok.2 ⟨m.calls, ?_, rfl⟩
      simp [CallAction.top, hframes]
    refine Action.bind_eq_ok.2 ⟨frame, m, htop, Action.bind_eq_ok.2 ⟨⟨⟩, _, rfl, ?_⟩⟩
    exact Action.ofExcept_eq_ok.2 ⟨hi, rfl⟩

theorem checkSteps_eq_ok {limits : Limits} :
    checkSteps limits m = .ok () n ↔ n = m ∧ ∀ limit, limits.steps = some limit → m.steps < limit := by
  unfold checkSteps
  cases limits.steps with
  | none =>
    constructor
    · intro h
      cases h
      exact ⟨rfl, by simp⟩
    · rintro ⟨rfl, -⟩
      rfl
  | some limit =>
    show (if limit ≤ m.steps then _ else _ : MachineAction Unit) m = .ok () n ↔ _
    split
    · rename_i hle
      constructor
      · intro h
        cases h
      · rintro ⟨-, hlt⟩
        have := hlt limit rfl
        omega
    · rename_i hlt
      constructor
      · intro h
        cases h
        exact ⟨rfl, fun _ heq => Option.some.inj heq ▸ Nat.lt_of_not_le hlt⟩
      · rintro ⟨rfl, -⟩
        rfl

theorem charge_eq_ok {schedule : GasSchedule} {i : Instruction} :
    charge schedule i m = .ok () n ↔ ∃ p gas, price schedule i m = .ok p m ∧ m.gas.charge p = .ok gas ∧
      n = { m with gas, steps := m.steps + 1 } := by
  constructor
  · intro h
    obtain ⟨p, q, hp, hcharge⟩ := Action.bind_eq_ok.1 h
    obtain rfl := (price_reads schedule i).ok m p q hp
    obtain ⟨_, q, hq, hcharge⟩ := Action.bind_eq_ok.1 hcharge
    cases hq
    obtain ⟨gas, q, hpaid, hn⟩ := Action.bind_eq_ok.1 hcharge
    obtain ⟨hgas, rfl⟩ := Action.ofExcept_eq_ok.1 hpaid
    cases hn
    exact ⟨p, gas, hp, hgas, rfl⟩
  · rintro ⟨p, gas, hp, hgas, rfl⟩
    refine Action.bind_eq_ok.2 ⟨p, m, hp, Action.bind_eq_ok.2 ⟨m, m, rfl, ?_⟩⟩
    exact Action.bind_eq_ok.2 ⟨gas, m, Action.ofExcept_eq_ok.2 ⟨hgas, rfl⟩, rfl⟩

theorem checkSize_eq_ok {limits : Limits} :
    checkSize limits m = .ok () n ↔ n = m ∧ m.size ≤ limits.stackSize := by
  show (if limits.stackSize < m.size then _ else _ : MachineAction Unit) m = .ok () n ↔ _
  split
  · rename_i hlt
    constructor
    · intro h
      cases h
    · rintro ⟨-, hle⟩
      omega
  · rename_i hle
    constructor
    · intro h
      cases h
      exact ⟨rfl, Nat.le_of_not_lt hle⟩
    · rintro ⟨rfl, -⟩
      rfl

/-! ### The whole step -/

/-- The instruction that a machine is about to execute. -/
def next? (m : Machine) : Option Instruction :=
  match m.calls.frames with
  | frame :: _ => (decode frame.script.bytes frame.pointer).toOption.map Prod.fst
  | [] => none

theorem next?_eq_some {i : Instruction} :
    m.next? = some i ↔ ∃ frame rest size, m.calls.frames = frame :: rest ∧
      decode frame.script.bytes frame.pointer = .ok (i, size) := by
  unfold next?
  cases hframes : m.calls.frames with
  | nil => simp
  | cons frame rest =>
    cases hdecode : decode frame.script.bytes frame.pointer with
    | ok found =>
      obtain ⟨j, size⟩ := found
      simp [Except.toOption, hdecode, eq_comm]
    | error fault => simp [Except.toOption, hdecode]

/-- The machine as it executes an instruction of some size that it has paid for. -/
def entering (m : Machine) (frame : Frame) (rest : List Frame) (size : Nat) (gas : GasMeter) : Machine :=
  { m with
    calls := { m.calls with frames := { frame with pointer := frame.pointer + size } :: rest }
    gas
    steps := m.steps + 1
    cursor := some frame.location }

/-- A step that succeeds fetched an instruction, kept to the bound on steps, paid for the instruction, moved
behind it, executed it and left no more items than may be. -/
theorem step_eq_ok : step setting m = .ok () n ↔ ∃ frame rest i size p gas,
    m.calls.frames = frame :: rest ∧ decode frame.script.bytes frame.pointer = .ok (i, size) ∧
    (∀ limit, setting.limits.steps = some limit → m.steps < limit) ∧
    price setting.schedule i { m with cursor := some frame.location } =
      .ok p { m with cursor := some frame.location } ∧
    m.gas.charge p = .ok gas ∧ i.execute setting frame.pointer (m.entering frame rest size gas) = .ok () n ∧
    n.size ≤ setting.limits.stackSize := by
  constructor
  · intro h
    obtain ⟨⟨i, size⟩, q, hfetch, h⟩ := Action.bind_eq_ok.1 h
    obtain ⟨frame, rest, hframes, hdecode, rfl⟩ := fetch_eq_ok.1 hfetch
    obtain ⟨_, q, hsteps, h⟩ := Action.bind_eq_ok.1 h
    obtain ⟨rfl, hlimit⟩ := checkSteps_eq_ok.1 hsteps
    obtain ⟨_, q, hcharge, h⟩ := Action.bind_eq_ok.1 h
    obtain ⟨p, gas, hprice, hgas, rfl⟩ := charge_eq_ok.1 hcharge
    obtain ⟨top, q, htop, h⟩ := Action.bind_eq_ok.1 h
    obtain ⟨c, hc, rfl⟩ := MachineAction.onCalls_eq_ok.1 htop
    simp only [CallAction.top, hframes] at hc
    cases hc
    obtain ⟨_, q, hset, h⟩ := Action.bind_eq_ok.1 h
    obtain ⟨c, hc, rfl⟩ := MachineAction.onCalls_eq_ok.1 hset
    simp only [CallAction.setTop, hframes] at hc
    cases hc
    obtain ⟨_, q, hexecute, hsize⟩ := Action.bind_eq_ok.1 h
    obtain ⟨rfl, hle⟩ := checkSize_eq_ok.1 hsize
    exact ⟨frame, rest, i, size, p, gas, hframes, hdecode, hlimit, hprice, hgas, hexecute, hle⟩
  · rintro ⟨frame, rest, i, size, p, gas, hframes, hdecode, hlimit, hprice, hgas, hexecute, hle⟩
    refine Action.bind_eq_ok.2 ⟨(i, size), _, fetch_eq_ok.2 ⟨frame, rest, hframes, hdecode, rfl⟩, ?_⟩
    refine Action.bind_eq_ok.2 ⟨⟨⟩, _, checkSteps_eq_ok.2 ⟨rfl, hlimit⟩, ?_⟩
    refine Action.bind_eq_ok.2 ⟨⟨⟩, _, charge_eq_ok.2 ⟨p, gas, hprice, hgas, rfl⟩, ?_⟩
    refine Action.bind_eq_ok.2 ⟨frame, _, MachineAction.onCalls_eq_ok.2 ⟨m.calls, ?_, rfl⟩, ?_⟩
    · simp only [CallAction.top, hframes]
    refine Action.bind_eq_ok.2 ⟨⟨⟩, m.entering frame rest size gas, ?_, ?_⟩
    · refine MachineAction.onCalls_eq_ok.2 ⟨(m.entering frame rest size gas).calls, ?_, rfl⟩
      simp only [CallAction.setTop, hframes]
      rfl
    · exact Action.bind_eq_ok.2 ⟨⟨⟩, n, hexecute, checkSize_eq_ok.2 ⟨rfl, hle⟩⟩

/-- A step that succeeds counts one instruction, and changes no breakpoint. -/
theorem book_of_step (h : step setting m = .ok () n) : n.steps = m.steps + 1 ∧ n.breakpoints = m.breakpoints := by
  obtain ⟨frame, rest, i, size, p, gas, -, -, -, -, -, hexecute, -⟩ := step_eq_ok.1 h
  have hbook := (i.execute_bookless setting frame.pointer).book_of_ok hexecute
  exact ⟨congrArg Book.steps hbook, congrArg Book.breakpoints hbook⟩

theorem fault_of_step (h : step setting m = .ok () n) : n.fault = m.fault := by
  obtain ⟨frame, rest, i, size, p, gas, -, -, -, -, -, hexecute, -⟩ := step_eq_ok.1 h
  exact congrArg Book.fault ((i.execute_bookless setting frame.pointer).book_of_ok hexecute)

/-- After a step that succeeds the machine either has a frame and the status it had, or it has halted without
one. -/
theorem frames_of_step (h : step setting m = .ok () n) :
    (n.status = m.status ∧ n.calls.frames ≠ []) ∨ (n.status = .halted ∧ n.calls.frames = []) := by
  obtain ⟨frame, rest, i, size, p, gas, -, -, -, -, -, hexecute, -⟩ := step_eq_ok.1 h
  have hframes : (m.entering frame rest size gas).calls.frames ≠ [] := List.cons_ne_nil _ _
  have hstays := Instruction.frames_of_execute hframes hexecute
  exact hstays

/-! ### Breakpoints -/

/-- The machine with other breakpoints. -/
def withBreakpoints (breakpoints : List Location) (m : Machine) : Machine := { m with breakpoints }

/-- A step does not read the breakpoints. -/
theorem step_commutes (setting : Setting) (bs : List Location) :
    Action.Commutes (withBreakpoints bs) (step setting) := by
  have hbookless {α : Type} {a : MachineAction α} (ha : a.Bookless) : Action.Commutes (withBreakpoints bs) a :=
    ha.commutes fun book => { book with breakpoints := bs }
  have hfetch : Action.Commutes (withBreakpoints bs) fetch :=
    .bind (hbookless (.onCalls _)) fun _ => .bind (.modify fun _ => rfl) fun _ => .ofExcept _
  have hsteps : Action.Commutes (withBreakpoints bs) (checkSteps setting.limits) := by
    unfold checkSteps
    cases setting.limits.steps with
    | none => exact .pure _
    | some limit =>
      refine .get_bind fun m => ?_
      show (if limit ≤ m.steps then _ else _ : MachineAction Unit) (withBreakpoints bs m) = _
      split <;> rfl
  have hcharge (i : Instruction) : Action.Commutes (withBreakpoints bs) (charge setting.schedule i) := by
    refine .bind (hbookless (price_bookless setting.schedule i)) fun p => .get_bind fun m => ?_
    have hdebit (gas : GasMeter) : Action.Commutes (withBreakpoints bs)
        (modify fun m => { m with gas, steps := m.steps + 1 } : MachineAction Unit) := .modify fun _ => rfl
    exact Action.Commutes.bind (.ofExcept (m.gas.charge p)) hdebit m
  have hsize : Action.Commutes (withBreakpoints bs) (checkSize setting.limits) := by
    refine .get_bind fun m => ?_
    show (if setting.limits.stackSize < m.size then _ else _ : MachineAction Unit) (withBreakpoints bs m) = _
    split <;> rfl
  refine .bind hfetch fun ⟨i, size⟩ => .bind hsteps fun _ => .bind (hcharge i) fun _ => ?_
  refine .bind (hbookless (.onCalls _)) fun frame => .bind (hbookless (.onCalls _)) fun _ => ?_
  exact .bind (hbookless (i.execute_bookless setting _)) fun _ => hsize

end Machine
end LedgerVM
