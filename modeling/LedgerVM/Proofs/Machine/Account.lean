import LedgerVM.Proofs.Machine.Debugger
import LedgerVM.Proofs.Machine.Gas
import Mathlib.Algebra.GroupWithZero.Nat

/-!
# The account of a run

Every instruction that a run counts was paid for, at the price it had on the machine as it was just before
(`Machine.bill`).  So the gas used is the sum of these prices, and the steps are their number (`Steps.billed`).  What
bars an instruction before it is executed (`Machine.Barred`) leaves gas, steps and everything else alone; a step that
fails for any other reason has paid for its instruction and counted it.
-/

namespace LedgerVM

namespace Machine

variable {setting : Setting} {m n start last : Machine} {fault : Fault} {i : Instruction}

/-! ### Prices -/

/-- The price of the next instruction on the machine as it is. -/
def quote (setting : Setting) (m : Machine) : Option UInt64 :=
  m.next?.bind fun i =>
    match price setting.schedule i m with
    | .ok p _ => some p
    | .error _ _ => none

/-- What keeps a machine from executing its next instruction: there is none, as many instructions were executed as may
be, the instruction has no price, or what is left of the gas does not cover it. -/
inductive Barred (setting : Setting) (m : Machine) : Fault → Prop
  | decoding {frame : Frame} {rest : List Frame} {fault : Fault} (hframes : m.calls.frames = frame :: rest)
      (h : decode frame.script.bytes frame.pointer = .error fault) : Barred setting m fault
  | stepLimit {i : Instruction} {limit : Nat} (hi : m.next? = some i) (hlimit : setting.limits.steps = some limit)
      (h : limit ≤ m.steps) : Barred setting m (.stepLimit limit)
  | pricing {i : Instruction} {fault : Fault} (hi : m.next? = some i)
      (hsteps : ∀ limit, setting.limits.steps = some limit → m.steps < limit)
      (h : price setting.schedule i m = .error fault m) : Barred setting m fault
  | gas {p : UInt64} (hsteps : ∀ limit, setting.limits.steps = some limit → m.steps < limit)
      (hp : m.quote setting = some p) (h : m.gas.remaining < p) :
      Barred setting m (.insufficientGas p m.gas.remaining)

/-- One machine paid for its next instruction and counted it, and so became the other. -/
structure Paid (setting : Setting) (p : UInt64) (m n : Machine) : Prop where
  quote : m.quote setting = some p
  limit : n.gas.limit = m.gas.limit
  consumed : n.gas.consumed.toNat = m.gas.consumed.toNat + p.toNat
  steps : n.steps = m.steps + 1

/-- Looking for the instruction does not change what it costs. -/
private theorem price_fetched (schedule : GasSchedule) (i : Instruction) (m : Machine) (frame : Frame) :
    price schedule i (m.fetched frame) =
      match price schedule i m with
      | .ok p _ => .ok p (m.fetched frame)
      | .error fault _ => .error fault (m.fetched frame) := by
  have hbook := price_bookless schedule i { m.book with cursor := some frame.location } m
  have hreads := price_reads schedule i
  have hfetched : m.fetched frame = m.withBook { m.book with cursor := some frame.location } := rfl
  rw [hfetched, hbook]
  cases hprice : price schedule i m with
  | ok p q =>
    rw [hreads.ok _ _ _ hprice]
    rfl
  | error fault q =>
    rw [hreads.error _ _ _ hprice]
    rfl

private theorem quote_of_price {frame : Frame} {p : UInt64} {q : Machine} (hi : m.next? = some i)
    (h : price setting.schedule i (m.fetched frame) = .ok p q) : m.quote setting = some p := by
  rw [price_fetched] at h
  rw [quote, hi, Option.bind_some]
  cases hprice : price setting.schedule i m with
  | ok p' q' =>
    rw [hprice] at h
    cases h
    rfl
  | error fault q' =>
    rw [hprice] at h
    cases h

private theorem price_of_quote {p : UInt64} (frame : Frame) (h : m.quote setting = some p) :
    ∃ i, m.next? = some i ∧ price setting.schedule i (m.fetched frame) = .ok p (m.fetched frame) := by
  obtain ⟨i, hi, hprice⟩ := Option.bind_eq_some_iff.1 h
  refine ⟨i, hi, ?_⟩
  rw [price_fetched]
  split at hprice
  · rw [Option.some.inj hprice]
  · cases hprice

/-! ### Steps -/

private theorem fetched_eq {frame : Frame} {rest : List Frame} (hframes : m.calls.frames = frame :: rest) :
    m.fetched frame = { m with cursor := m.location? } := by
  simp [fetched, location?, hframes]

/-- An instruction that is barred is not executed: the step fails, and the machine has only looked for it. -/
theorem step_of_barred (h : m.Barred setting fault) :
    step setting m = .error fault { m with cursor := m.location? } := by
  cases h with
  | decoding hframes hdecode =>
    rw [← fetched_eq hframes]
    exact (step_eq_error hframes).2 (.decoding hdecode)
  | stepLimit hi hlimit hle =>
    obtain ⟨frame, rest, size, hframes, hdecode⟩ := next?_eq_some.1 hi
    rw [← fetched_eq hframes]
    exact (step_eq_error hframes).2 (.stepLimit hdecode hlimit hle)
  | pricing hi hsteps hprice =>
    obtain ⟨frame, rest, size, hframes, hdecode⟩ := next?_eq_some.1 hi
    rw [← fetched_eq hframes]
    refine (step_eq_error hframes).2 (.pricing hdecode hsteps ?_)
    rw [price_fetched, hprice]
  | @gas p hsteps hp hshort =>
    obtain ⟨i, hi, -⟩ := Option.bind_eq_some_iff.1 hp
    obtain ⟨frame, rest, size, hframes, hdecode⟩ := next?_eq_some.1 hi
    obtain ⟨j, hj, hprice⟩ := price_of_quote frame hp
    rw [hi] at hj
    cases hj
    rw [← fetched_eq hframes]
    exact (step_eq_error hframes).2 (.gas hdecode hsteps hprice (if_pos hshort))

private theorem paid_of_charge {p : UInt64} (hm : m.gas.Solvent) (hp : m.quote setting = some p)
    (hgas : m.gas.charge p = .ok n.gas) (hsteps : n.steps = m.steps + 1) : m.Paid setting p n where
  quote := hp
  limit := (GasMeter.debited_of_charge hm hgas).limit
  consumed := GasMeter.toNat_consumed_of_charge hm hgas
  steps := hsteps

/-- A step that succeeds has paid for its instruction. -/
theorem paid_of_step (hm : m.gas.Solvent) (h : step setting m = .ok () n) : ∃ p, m.Paid setting p n := by
  obtain ⟨frame, rest, i, size, p, hframes, hi, hprice, hgas⟩ := charge_of_step h
  have hquote := quote_of_price (next?_eq_some.2 ⟨frame, rest, size, hframes, hi⟩) hprice
  exact ⟨p, paid_of_charge hm hquote hgas (book_of_step h).1⟩

/-- A step that fails was barred, or has paid for its instruction before it failed. -/
theorem paid_of_step_error (hm : m.gas.Solvent) (hframes : m.calls.frames ≠ [])
    (h : step setting m = .error fault n) : m.Barred setting fault ∨ ∃ p, m.Paid setting p n := by
  obtain ⟨frame, rest, hframes⟩ := List.exists_cons_of_ne_nil hframes
  have hnext {i : Instruction} {size : Nat} (hi : decode frame.script.bytes frame.pointer = .ok (i, size)) :
      m.next? = some i := next?_eq_some.2 ⟨frame, rest, size, hframes, hi⟩
  have hfails := (step_eq_error hframes).1 h
  cases hfails with
  | decoding hdecode => exact .inl (.decoding hframes hdecode)
  | stepLimit hi hlimit hle => exact .inl (.stepLimit (hnext hi) hlimit hle)
  | @pricing i size fault n hi hsteps hprice =>
    refine .inl (.pricing (hnext hi) hsteps ?_)
    rw [price_fetched] at hprice
    cases hasked : price setting.schedule i m with
    | ok p q =>
      rw [hasked] at hprice
      cases hprice
    | error fault q =>
      rw [hasked] at hprice
      cases hprice
      rw [(price_reads setting.schedule i).error _ _ _ hasked]
  | @gas i size p fault hi hsteps hprice hgas =>
    unfold GasMeter.charge at hgas
    split at hgas
    · rename_i hshort
      cases hgas
      exact .inl (.gas hsteps (quote_of_price (hnext hi) hprice) hshort)
    · cases hgas
  | executing hi hsteps hprice hgas hexecute =>
    have hbook := (Instruction.execute_bookless _ _ _).book_of_error hexecute
    have hpaid : n.gas = _ := congrArg Book.gas hbook
    have hquote := quote_of_price (hnext hi) hprice
    exact .inr ⟨_, paid_of_charge hm hquote (hgas.trans (congrArg _ hpaid.symm)) (congrArg Book.steps hbook)⟩
  | size hi hsteps hprice hgas hexecute hlt =>
    have hbook := (Instruction.execute_bookless _ _ _).book_of_ok hexecute
    have hpaid : n.gas = _ := congrArg Book.gas hbook
    have hquote := quote_of_price (hnext hi) hprice
    exact .inr ⟨_, paid_of_charge hm hquote (hgas.trans (congrArg _ hpaid.symm)) (congrArg Book.steps hbook)⟩

/-! ### Runs -/

/-- An advance has paid for its instruction and counted it, or left gas and steps alone. -/
theorem paid_of_advance (hlive : m.Live) (hm : m.status = .running) (hgas : m.gas.Solvent) :
    (∃ p, m.Paid setting p (m.advance setting)) ∨
      (m.advance setting).gas = m.gas ∧ (m.advance setting).steps = m.steps := by
  have hframes := hlive.frames_ne_nil hm
  rcases hlive.advance_eq_step setting hm with ⟨n, status, hstep, hn⟩ | ⟨fault, n, hstep, hn⟩
  · rw [hn]
    obtain ⟨p, hpaid⟩ := paid_of_step hgas hstep
    exact .inl ⟨p, hpaid.quote, hpaid.limit, hpaid.consumed, hpaid.steps⟩
  · rw [hn]
    rcases paid_of_step_error hgas hframes hstep with hbarred | ⟨p, hpaid⟩
    · have hleft := step_of_barred hbarred
      rw [hstep] at hleft
      cases hleft
      exact .inr ⟨rfl, rfl⟩
    · exact .inl ⟨p, hpaid.quote, hpaid.limit, hpaid.consumed, hpaid.steps⟩

/-- The prices of the instructions that a machine counts as it advances a number of times, each on the machine as it
was just before. -/
def bill (setting : Setting) : Nat → Machine → List UInt64
  | 0, _ => []
  | k + 1, m =>
    (if m.steps < (m.advance setting).steps then (m.quote setting).toList else []) ++
      bill setting k (m.advance setting)

/-- Along a run the gas used grows by the bill, and the steps by the number of its entries. -/
theorem Steps.billed {k : Nat} (h : Steps setting k m last) (hlive : m.Live) (hgas : m.gas.Solvent) :
    last.steps = m.steps + (bill setting k m).length ∧
      last.gas.consumed.toNat = m.gas.consumed.toNat + ((bill setting k m).map UInt64.toNat).sum := by
  induction h with
  | refl => exact ⟨rfl, rfl⟩
  | @cons k m last hm _ ih =>
    have hdebited : m.gas.Debited (m.advance setting).gas := debited_of_advance hlive hm hgas
    obtain ⟨hsteps, hconsumed⟩ := ih (hlive.advance setting hm) hdebited.solvent
    rcases paid_of_advance hlive hm hgas with ⟨p, hpaid⟩ | ⟨hsame, hnone⟩
    · have hcounted : m.steps < (m.advance setting).steps := by
        rw [hpaid.steps]
        exact Nat.lt_succ_self _
      have hbill : bill setting (k + 1) m = p :: bill setting k (m.advance setting) := by
        rw [bill, if_pos hcounted, hpaid.quote]
        rfl
      have hmore := hpaid.consumed
      have hone := hpaid.steps
      rw [hbill, List.length_cons, List.map_cons, List.sum_cons]
      omega
    · have hbill : bill setting (k + 1) m = bill setting k (m.advance setting) := by
        rw [bill, if_neg (by omega)]
        rfl
      rw [hbill, hsteps, hconsumed, hsame, hnone]
      exact ⟨rfl, rfl⟩

/-- The gas that a machine used and the steps that it counted are those of the bill of its run, and the budget it was
given covers them. -/
structure Accounted (m : Machine) (setting : Setting) (start : Machine) : Prop where
  billed : ∃ k, Steps setting k start m.bare ∧ m.steps = (bill setting k start).length ∧
    m.gas.consumed.toNat = ((bill setting k start).map UInt64.toNat).sum
  limit : m.gas.limit = setting.limits.gas
  solvent : m.gas.consumed ≤ m.gas.limit

theorem accounted_of_debug {script : Bytes} {entry : Nat} {arguments : List Item} {heap : Heap} {calls : List DebugCall}
    (hload : load setting.limits script entry arguments (initial setting.limits heap) = .ok () start)
    (hdebug : start.debug setting calls = some m) : m.Accounted setting start := by
  obtain ⟨hsolvent, hnone, hzero⟩ := solvent_of_load hload
  have hlive := (fresh_of_load hload).1
  obtain ⟨-, k, hrun⟩ := steps_of_driven hload hdebug
  obtain ⟨hsteps, hconsumed⟩ := hrun.billed hlive hsolvent
  have hdebited : start.gas.Debited m.gas := hrun.debited hlive hsolvent
  have hlimit : start.gas.limit = setting.limits.gas := by
    rw [(load_eq_ok hload).1]
    rfl
  rw [hzero, Nat.zero_add] at hsteps
  rw [hnone, UInt64.toNat_zero, Nat.zero_add] at hconsumed
  exact ⟨⟨k, hrun, hsteps, hconsumed⟩, hdebited.limit.trans hlimit, hdebited.solvent⟩

end Machine
end LedgerVM
