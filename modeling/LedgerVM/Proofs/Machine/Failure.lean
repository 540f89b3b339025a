import LedgerVM.Proofs.Machine.Step

/-!
# How a step fails

A step looks at its parts in a fixed order: the instruction, the bound on steps, the price, the gas, what the
instruction does, the number of items.  The first part that fails is the fault of the step, and says how much of
it was done (`Machine.step_eq_error`).  A step that fails before the instruction is executed leaves gas and steps as
they were; one that fails later has paid and counted (`StepFails.count`).
-/

namespace LedgerVM

namespace Machine

variable {setting : Setting} {m n : Machine} {frame : Frame} {rest : List Frame} {fault : Fault}

/-- The machine once it has looked for its next instruction. -/
def fetched (m : Machine) (frame : Frame) : Machine := { m with cursor := some frame.location }

/-- The ways in which a step fails on a machine whose executing frame is `frame`: the fault, and the machine as it
was when the step failed. -/
inductive StepFails (setting : Setting) (m : Machine) (frame : Frame) (rest : List Frame) : Fault → Machine → Prop
  | decoding {fault : Fault} (h : decode frame.script.bytes frame.pointer = .error fault) :
      StepFails setting m frame rest fault (m.fetched frame)
  | stepLimit {i : Instruction} {size limit : Nat} (hi : decode frame.script.bytes frame.pointer = .ok (i, size))
      (hlimit : setting.limits.steps = some limit) (h : limit ≤ m.steps) :
      StepFails setting m frame rest (.stepLimit limit) (m.fetched frame)
  | pricing {i : Instruction} {size : Nat} {fault : Fault} {n : Machine}
      (hi : decode frame.script.bytes frame.pointer = .ok (i, size))
      (hsteps : ∀ limit, setting.limits.steps = some limit → m.steps < limit)
      (h : price setting.schedule i (m.fetched frame) = .error fault n) : StepFails setting m frame rest fault n
  | gas {i : Instruction} {size : Nat} {p : UInt64} {fault : Fault}
      (hi : decode frame.script.bytes frame.pointer = .ok (i, size))
      (hsteps : ∀ limit, setting.limits.steps = some limit → m.steps < limit)
      (hprice : price setting.schedule i (m.fetched frame) = .ok p (m.fetched frame))
      (h : m.gas.charge p = .error fault) : StepFails setting m frame rest fault (m.fetched frame)
  | executing {i : Instruction} {size : Nat} {p : UInt64} {gas : GasMeter} {fault : Fault} {n : Machine}
      (hi : decode frame.script.bytes frame.pointer = .ok (i, size))
      (hsteps : ∀ limit, setting.limits.steps = some limit → m.steps < limit)
      (hprice : price setting.schedule i (m.fetched frame) = .ok p (m.fetched frame))
      (hgas : m.gas.charge p = .ok gas)
      (h : i.execute setting frame.pointer (m.entering frame rest size gas) = .error fault n) :
      StepFails setting m frame rest fault n
  | size {i : Instruction} {size : Nat} {p : UInt64} {gas : GasMeter} {n : Machine}
      (hi : decode frame.script.bytes frame.pointer = .ok (i, size))
      (hsteps : ∀ limit, setting.limits.steps = some limit → m.steps < limit)
      (hprice : price setting.schedule i (m.fetched frame) = .ok p (m.fetched frame))
      (hgas : m.gas.charge p = .ok gas)
      (hexecute : i.execute setting frame.pointer (m.entering frame rest size gas) = .ok () n)
      (h : setting.limits.stackSize < n.size) :
      StepFails setting m frame rest (.stackOverflow n.size setting.limits.stackSize) n

/-! ### The parts of a step that fail -/

theorem fetch_eq_error (hframes : m.calls.frames = frame :: rest) :
    fetch m = .error fault n ↔ decode frame.script.bytes frame.pointer = .error fault ∧ n = m.fetched frame := by
  have htop : MachineAction.onCalls .top m = .ok frame m := by
    refine MachineAction.onCalls_eq_ok.2 ⟨m.calls, ?_, rfl⟩
    simp only [CallAction.top, hframes]
  constructor
  · intro h
    rcases Action.bind_eq_error.1 h with hnone | ⟨top, p, htop', h⟩
    · rw [htop] at hnone
      cases hnone
    · rw [htop] at htop'
      cases htop'
      rcases Action.bind_eq_error.1 h with hset | ⟨_, p, hset, h⟩
      · cases hset
      · cases hset
        obtain ⟨hdecode, rfl⟩ := Action.ofExcept_eq_error.1 h
        exact ⟨hdecode, rfl⟩
  · rintro ⟨hdecode, rfl⟩
    refine Action.bind_eq_error.2 (.inr ⟨frame, m, htop, Action.bind_eq_error.2 (.inr ⟨⟨⟩, _, rfl, ?_⟩)⟩)
    exact Action.ofExcept_eq_error.2 ⟨hdecode, rfl⟩

theorem checkSteps_eq_error {limits : Limits} :
    checkSteps limits m = .error fault n ↔
      ∃ limit, limits.steps = some limit ∧ limit ≤ m.steps ∧ fault = .stepLimit limit ∧ n = m := by
  unfold checkSteps
  cases limits.steps with
  | none =>
    constructor
    · intro h
      cases h
    · rintro ⟨limit, hlimit, -⟩
      cases hlimit
  | some limit =>
    show (if limit ≤ m.steps then _ else _ : MachineAction Unit) m = .error fault n ↔ _
    by_cases hle : limit ≤ m.steps
    · rw [if_pos hle]
      constructor
      · intro h
        cases h
        exact ⟨limit, rfl, hle, rfl, rfl⟩
      · rintro ⟨_, hlimit, -, rfl, rfl⟩
        cases hlimit
        rfl
    · rw [if_neg hle]
      constructor
      · intro h
        cases h
      · rintro ⟨_, hlimit, hle', -⟩
        cases hlimit
        exact absurd hle' hle

theorem charge_eq_error {schedule : GasSchedule} {i : Instruction} :
    charge schedule i m = .error fault n ↔ price schedule i m = .error fault n ∨
      ∃ p, price schedule i m = .ok p m ∧ m.gas.charge p = .error fault ∧ n = m := by
  constructor
  · intro h
    rcases Action.bind_eq_error.1 h with hprice | ⟨p, q, hprice, hdebit⟩
    · exact .inl hprice
    · obtain rfl := (price_reads schedule i).ok m p q hprice
      rcases Action.bind_eq_error.1 hdebit with hget | ⟨_, q, hget, hdebit⟩
      · cases hget
      · cases hget
        rcases Action.bind_eq_error.1 hdebit with hpaid | ⟨gas, q, -, hcount⟩
        · obtain ⟨hgas, rfl⟩ := Action.ofExcept_eq_error.1 hpaid
          exact .inr ⟨p, hprice, hgas, rfl⟩
        · cases hcount
  · rintro (hprice | ⟨p, hprice, hgas, rfl⟩)
    · exact Action.bind_eq_error.2 (.inl hprice)
    · refine Action.bind_eq_error.2 (.inr ⟨p, n, hprice, Action.bind_eq_error.2 (.inr ⟨n, n, rfl, ?_⟩)⟩)
      exact Action.bind_eq_error.2 (.inl (Action.ofExcept_eq_error.2 ⟨hgas, rfl⟩))

theorem checkSize_eq_error {limits : Limits} :
    checkSize limits m = .error fault n ↔
      limits.stackSize < m.size ∧ fault = .stackOverflow m.size limits.stackSize ∧ n = m := by
  show (if limits.stackSize < m.size then _ else _ : MachineAction Unit) m = .error fault n ↔ _
  by_cases hlt : limits.stackSize < m.size
  · rw [if_pos hlt]
    constructor
    · intro h
      cases h
      exact ⟨hlt, rfl, rfl⟩
    · rintro ⟨-, rfl, rfl⟩
      rfl
  · rw [if_neg hlt]
    constructor
    · intro h
      cases h
    · rintro ⟨hlt', -⟩
      exact absurd hlt' hlt

/-- The part of a step that comes once the instruction has been paid for. -/
private theorem enter_eq_error {i : Instruction} {size : Nat} {gas : GasMeter}
    (hframes : m.calls.frames = frame :: rest) {p : Machine}
    (hp : p = { m.fetched frame with gas, steps := m.steps + 1 }) :
    (do
      let frame ← MachineAction.onCalls .top
      MachineAction.onCalls (.setTop { frame with pointer := frame.pointer + size })
      i.execute setting frame.pointer
      checkSize setting.limits : MachineAction Unit) p = .error fault n ↔
    i.execute setting frame.pointer (m.entering frame rest size gas) = .error fault n ∨
    ∃ q, i.execute setting frame.pointer (m.entering frame rest size gas) = .ok () q ∧
      setting.limits.stackSize < q.size ∧ fault = .stackOverflow q.size setting.limits.stackSize ∧ n = q := by
  subst hp
  have htop : MachineAction.onCalls .top { m.fetched frame with gas, steps := m.steps + 1 } =
      .ok frame { m.fetched frame with gas, steps := m.steps + 1 } := by
    refine MachineAction.onCalls_eq_ok.2 ⟨m.calls, ?_, rfl⟩
    show CallAction.top m.calls = _
    simp only [CallAction.top, hframes]
  have hset : MachineAction.onCalls (.setTop { frame with pointer := frame.pointer + size })
      { m.fetched frame with gas, steps := m.steps + 1 } = .ok () (m.entering frame rest size gas) := by
    refine MachineAction.onCalls_eq_ok.2 ⟨(m.entering frame rest size gas).calls, ?_, rfl⟩
    show CallAction.setTop _ m.calls = _
    simp only [CallAction.setTop, hframes]
    rfl
  rw [Action.bind_apply, htop]
  dsimp only
  rw [Action.bind_apply, hset]
  dsimp only
  rw [Action.bind_eq_error]
  simp only [checkSize_eq_error]
  constructor
  · rintro (h | ⟨_, q, hq, h⟩)
    · exact .inl h
    · exact .inr ⟨q, hq, h⟩
  · rintro (h | ⟨q, hq, h⟩)
    · exact .inl h
    · exact .inr ⟨⟨⟩, q, hq, h⟩

/-! ### The whole step -/

/-- A step fails in one of the ways there are, and in no other. -/
theorem step_eq_error (hframes : m.calls.frames = frame :: rest) :
    step setting m = .error fault n ↔ StepFails setting m frame rest fault n := by
  constructor
  · intro h
    rcases Action.bind_eq_error.1 h with hfetch | ⟨⟨i, size⟩, q, hfetch, h⟩
    · obtain ⟨hdecode, rfl⟩ := (fetch_eq_error hframes).1 hfetch
      exact .decoding hdecode
    obtain ⟨top, below, hframes', hi, rfl⟩ := fetch_eq_ok.1 hfetch
    rw [hframes] at hframes'
    cases hframes'
    rcases Action.bind_eq_error.1 h with hsteps | ⟨_, q, hsteps, h⟩
    · obtain ⟨limit, hlimit, hle, rfl, rfl⟩ := checkSteps_eq_error.1 hsteps
      exact .stepLimit hi hlimit hle
    obtain ⟨rfl, hlimit⟩ := checkSteps_eq_ok.1 hsteps
    rcases Action.bind_eq_error.1 h with hcharge | ⟨_, q, hcharge, h⟩
    · rcases charge_eq_error.1 hcharge with hprice | ⟨p, hprice, hgas, rfl⟩
      · exact .pricing hi hlimit hprice
      · exact .gas hi hlimit hprice hgas
    obtain ⟨p, gas, hprice, hgas, rfl⟩ := charge_eq_ok.1 hcharge
    rcases (enter_eq_error hframes rfl).1 h with hexecute | ⟨q, hexecute, hlt, rfl, rfl⟩
    · exact .executing hi hlimit hprice hgas hexecute
    · exact .size hi hlimit hprice hgas hexecute hlt
  · intro h
    have hfetch {i : Instruction} {size : Nat} (hi : decode frame.script.bytes frame.pointer = .ok (i, size)) :
        fetch m = .ok (i, size) (m.fetched frame) := fetch_eq_ok.2 ⟨frame, rest, hframes, hi, rfl⟩
    have hsteps (hlimit : ∀ limit, setting.limits.steps = some limit → m.steps < limit) :
        checkSteps setting.limits (m.fetched frame) = .ok () (m.fetched frame) := checkSteps_eq_ok.2 ⟨rfl, hlimit⟩
    have hcharge {i : Instruction} {p : UInt64} {gas : GasMeter}
        (hprice : price setting.schedule i (m.fetched frame) = .ok p (m.fetched frame))
        (hgas : m.gas.charge p = .ok gas) : charge setting.schedule i (m.fetched frame) =
          .ok () { m.fetched frame with gas, steps := m.steps + 1 } := charge_eq_ok.2 ⟨p, gas, hprice, hgas, rfl⟩
    cases h with
    | decoding hdecode => exact Action.bind_eq_error.2 (.inl ((fetch_eq_error hframes).2 ⟨hdecode, rfl⟩))
    | stepLimit hi hlimit hle =>
      refine Action.bind_eq_error.2 (.inr ⟨_, _, hfetch hi, Action.bind_eq_error.2 (.inl ?_)⟩)
      exact checkSteps_eq_error.2 ⟨_, hlimit, hle, rfl, rfl⟩
    | pricing hi hlimit hprice =>
      refine Action.bind_eq_error.2 (.inr ⟨_, _, hfetch hi, Action.bind_eq_error.2 (.inr ⟨⟨⟩, _, hsteps hlimit, ?_⟩)⟩)
      exact Action.bind_eq_error.2 (.inl (charge_eq_error.2 (.inl hprice)))
    | gas hi hlimit hprice hgas =>
      refine Action.bind_eq_error.2 (.inr ⟨_, _, hfetch hi, Action.bind_eq_error.2 (.inr ⟨⟨⟩, _, hsteps hlimit, ?_⟩)⟩)
      exact Action.bind_eq_error.2 (.inl (charge_eq_error.2 (.inr ⟨_, hprice, hgas, rfl⟩)))
    | executing hi hlimit hprice hgas hexecute =>
      refine Action.bind_eq_error.2 (.inr ⟨_, _, hfetch hi, Action.bind_eq_error.2 (.inr ⟨⟨⟩, _, hsteps hlimit, ?_⟩)⟩)
      refine Action.bind_eq_error.2 (.inr ⟨⟨⟩, _, hcharge hprice hgas, ?_⟩)
      exact (enter_eq_error hframes rfl).2 (.inl hexecute)
    | size hi hlimit hprice hgas hexecute hlt =>
      refine Action.bind_eq_error.2 (.inr ⟨_, _, hfetch hi, Action.bind_eq_error.2 (.inr ⟨⟨⟩, _, hsteps hlimit, ?_⟩)⟩)
      refine Action.bind_eq_error.2 (.inr ⟨⟨⟩, _, hcharge hprice hgas, ?_⟩)
      exact (enter_eq_error hframes rfl).2 (.inr ⟨_, hexecute, hlt, rfl, rfl⟩)

/-- A step that fails has either left gas and steps alone, or has paid for one instruction and counted it within the
bound on steps. -/
theorem StepFails.count (h : StepFails setting m frame rest fault n) :
    (n.gas = m.gas ∧ n.steps = m.steps) ∨
      ∃ p, m.gas.charge p = .ok n.gas ∧ n.steps = m.steps + 1 ∧
        ∀ limit, setting.limits.steps = some limit → m.steps < limit := by
  cases h with
  | decoding _ | stepLimit _ _ _ | gas _ _ _ _ => exact .inl ⟨rfl, rfl⟩
  | pricing _ _ hprice =>
    have hbook := (price_bookless _ _).book_of_error hprice
    exact .inl ⟨congrArg Book.gas hbook, congrArg Book.steps hbook⟩
  | executing _ hlimit _ hgas hexecute =>
    have hbook := (Instruction.execute_bookless _ _ _).book_of_error hexecute
    have hpaid : n.gas = _ := congrArg Book.gas hbook
    exact .inr ⟨_, hgas.trans (congrArg _ hpaid.symm), congrArg Book.steps hbook, hlimit⟩
  | size _ hlimit _ hgas hexecute _ =>
    have hbook := (Instruction.execute_bookless _ _ _).book_of_ok hexecute
    have hpaid : n.gas = _ := congrArg Book.gas hbook
    exact .inr ⟨_, hgas.trans (congrArg _ hpaid.symm), congrArg Book.steps hbook, hlimit⟩

end Machine
end LedgerVM
