import LedgerVM.Proofs.Machine.Extension
import LedgerVM.Proofs.Machine.Gas

/-!
# Limits only cut runs short

The machine holds nothing of the limits but its gas budget.  A run that halted is therefore made again, step by step,
under any looser limits, until the new bound on steps or the new budget is used up (`Steps.endsUnder`): it ends in the
same machine, or faults for want of gas or of steps (`limits_only_cut_short`).
-/

namespace LedgerVM

namespace Machine

variable {setting : Setting} {limits : Limits} {m n last : Machine} {k : Nat}

/-- The machine with another gas budget. -/
def withBudget (limit : UInt64) (m : Machine) : Machine := { m with gas := { m.gas with limit } }

/-- An action that leaves the book alone does not look at the budget. -/
theorem ok_withBudget {α : Type} {a : MachineAction α} {x : α} (ha : a.Bookless) (limit : UInt64)
    (h : a m = .ok x n) : a (m.withBudget limit) = .ok x (n.withBudget limit) := by
  have hcommutes := ha.commutes (fun book => { book with gas := { book.gas with limit } }) m
  rw [h] at hcommutes
  exact hcommutes

/-! ### One step under looser limits -/

section

variable (h : step setting m = .ok () n) (hgas : m.gas.Solvent)
include h

/-- A step beyond the new bound on steps fails before it is counted. -/
theorem step_beyond_steps {limit : Nat} (hlimit : limits.steps = some limit) (hle : limit ≤ m.steps) :
    ∃ q, step (setting.withLimits limits) (m.withBudget limits.gas) = .error (.stepLimit limit) q ∧
      q.steps = m.steps := by
  obtain ⟨frame, rest, i, size, p, gas, hframes, hi, -⟩ := step_eq_ok.1 h
  exact ⟨_, (step_eq_error (m := m.withBudget limits.gas) hframes).2 (.stepLimit hi hlimit hle), rfl⟩

include hgas

/-- A step is made again if the new limits allow it and the new budget covers it. -/
theorem step_withBudget (hlimits : setting.limits.AtMost limits)
    (hsteps : ∀ limit, limits.steps = some limit → m.steps < limit)
    (henough : n.gas.consumed.toNat ≤ limits.gas.toNat) :
    step (setting.withLimits limits) (m.withBudget limits.gas) = .ok () (n.withBudget limits.gas) := by
  obtain ⟨frame, rest, i, size, p, gas, hframes, hi, -, hprice, hcharge, hexecute, hsize⟩ := step_eq_ok.1 h
  have hpaid : n.gas = gas := gas_of_execute hexecute
  have hsum := GasMeter.toNat_consumed_of_charge hgas hcharge
  obtain ⟨-, hmeter⟩ := (GasMeter.charge_eq_ok hgas).1 hcharge
  have hcovered : m.gas.consumed.toNat + p.toNat ≤ limits.gas.toNat := by
    rw [← hsum, ← hpaid]
    exact henough
  have hsolvent : (m.withBudget limits.gas).gas.Solvent := by
    have hbefore : m.gas.consumed.toNat ≤ limits.gas.toNat := by omega
    exact UInt64.le_iff_toNat_le.2 hbefore
  -- neither the price nor the instruction looks at the budget, and looser limits refuse nothing that went through
  have hprice' := ok_withBudget (price_bookless setting.schedule i) limits.gas hprice
  have hexecute' := ok_withBudget (i.execute_bookless setting frame.pointer) limits.gas hexecute
  have hextended := i.execute_extends hlimits frame.pointer _ _ _ hexecute'
  refine step_eq_ok.2 ⟨frame, rest, i, size, p, { gas with limit := limits.gas }, hframes, hi, hsteps, hprice', ?_,
    hextended, Nat.le_trans hsize hlimits.stackSize⟩
  exact (GasMeter.charge_eq_ok hsolvent).2 ⟨hcovered, by rw [hmeter]; rfl⟩

/-- A step that the new budget does not cover fails before anything is paid. -/
theorem step_beyond_budget (hsteps : ∀ limit, limits.steps = some limit → m.steps < limit)
    (hbefore : m.gas.consumed.toNat ≤ limits.gas.toNat) (hshort : limits.gas.toNat < n.gas.consumed.toNat) :
    ∃ price remaining q, step (setting.withLimits limits) (m.withBudget limits.gas) =
      .error (.insufficientGas price remaining) q ∧ q.gas = (m.withBudget limits.gas).gas := by
  obtain ⟨frame, rest, i, size, p, gas, hframes, hi, -, hprice, hcharge, hexecute, -⟩ := step_eq_ok.1 h
  have hpaid : n.gas = gas := gas_of_execute hexecute
  have hsum := GasMeter.toNat_consumed_of_charge hgas hcharge
  have hover : limits.gas.toNat < m.gas.consumed.toNat + p.toNat := by
    rw [← hsum, ← hpaid]
    exact hshort
  have hsolvent : (m.withBudget limits.gas).gas.Solvent := UInt64.le_iff_toNat_le.2 hbefore
  have hprice' := ok_withBudget (price_bookless setting.schedule i) limits.gas hprice
  have hfails := GasMeter.charge_eq_insufficientGas hsolvent hover
  exact ⟨p, _, _, (step_eq_error (m := m.withBudget limits.gas) hframes).2 (.gas hi hsteps hprice' hfails), rfl⟩

end

/-! ### Runs without breakpoints -/

theorem advance_of_step (h : step setting m = .ok () n) (hn : n.breakpoints = []) : m.advance setting = n := by
  obtain ⟨frame, rest, -, -, -, -, hframes, -⟩ := step_eq_ok.1 h
  rw [advance_eq setting (by rw [hframes]; exact List.cons_ne_nil _ _), h]
  exact stopAtBreakpoint_of_nil hn

theorem advance_of_step_error {fault : Fault} (hframes : m.calls.frames ≠ []) (h : step setting m = .error fault n) :
    m.advance setting = n.faultWith fault := by
  rw [advance_eq setting hframes, h]

/-- Where a run halts, each of its steps succeeded. -/
theorem Steps.step_eq_ok_of_halted (h : Steps setting k (m.advance setting) last) (hlive : m.Live)
    (hm : m.status = .running) (hbreakpoints : m.breakpoints = []) (hlast : last.status = .halted) :
    ∃ n, step setting m = .ok () n ∧ m.advance setting = n ∧ n.breakpoints = [] := by
  have hok {n : Machine} (hstep : step setting m = .ok () n) :
      ∃ n, step setting m = .ok () n ∧ m.advance setting = n ∧ n.breakpoints = [] := by
    have hnil : n.breakpoints = [] := (book_of_step hstep).2.trans hbreakpoints
    exact ⟨n, hstep, advance_of_step hstep hnil, hnil⟩
  rcases hlive.advance_cases setting hm with ⟨n, hstep, -⟩ | ⟨n, hstep, -⟩ | ⟨fault, n, -, hn⟩
  · exact hok hstep
  · exact hok hstep
  · -- a fault is the end of the run, and it is not a halt
    have hfaulted : (m.advance setting).status = .faulted := by rw [hn]; rfl
    rw [h.eq_of_stopped (by rw [hfaulted]; decide), hfaulted] at hlast
    cases hlast

/-- How a run that ended in `last` ends under other limits: in the same machine, or with a fault when the budget or
the bound on steps is used up. -/
inductive EndsUnder (limits : Limits) (last : Machine) : Machine → Prop
  | same (hsteps : ∀ limit, limits.steps = some limit → last.steps ≤ limit)
      (hgas : last.gas.consumed.toNat ≤ limits.gas.toNat) : EndsUnder limits last (last.withBudget limits.gas)
  | outOfGas {price remaining : UInt64} {cut : Machine} (hshort : limits.gas.toNat < last.gas.consumed.toNat)
      (hstatus : cut.status = .faulted) (hfault : cut.fault = some (.insufficientGas price remaining))
      (hgas : cut.gas.consumed.toNat ≤ limits.gas.toNat) : EndsUnder limits last cut
  | outOfSteps {limit : Nat} {cut : Machine} (hlimit : limits.steps = some limit) (hshort : limit < last.steps)
      (hstatus : cut.status = .faulted) (hfault : cut.fault = some (.stepLimit limit))
      (hsteps : cut.steps = limit) : EndsUnder limits last cut

/-- A run that halted is made again under looser limits as far as the budget and the bound on steps last. -/
theorem Steps.endsUnder (hlimits : setting.limits.AtMost limits) (h : Steps setting k m last) (hlive : m.Live)
    (hgas : m.gas.Solvent) (hbreakpoints : m.breakpoints = []) (hlast : last.status = .halted)
    (hsteps : ∀ limit, limits.steps = some limit → m.steps ≤ limit)
    (hbefore : m.gas.consumed.toNat ≤ limits.gas.toNat) :
    ∃ j cut, j ≤ k ∧ Steps (setting.withLimits limits) j (m.withBudget limits.gas) cut ∧
      EndsUnder limits last cut := by
  -- along the run the budget and the bound on steps are kept to, until the next step is the one that breaks them
  induction h with
  | refl m => exact ⟨0, _, Nat.le_refl _, .refl _, .same hsteps hbefore⟩
  | @cons k m last hm h ih =>
    obtain ⟨n, hstep, hn, hnil⟩ := h.step_eq_ok_of_halted hlive hm hbreakpoints hlast
    have hcount : last.steps = m.steps + 1 + k := by
      rcases h.steps_eq (hlive.advance setting hm) with hfaulted | hcount
      · rw [hlast] at hfaulted
        cases hfaulted
      · rw [hcount, hn, (book_of_step hstep).1]
    have hpaid := debited_of_step hgas hstep
    have hlater := h.debited (hlive.advance setting hm) (by rw [hn]; exact hpaid.solvent)
    rw [hn] at hlater
    have hrunning : (m.withBudget limits.gas).status = .running := hm
    have hframes : (m.withBudget limits.gas).calls.frames ≠ [] := hlive.frames_ne_nil hm
    by_cases hspent : ∃ limit, limits.steps = some limit ∧ limit ≤ m.steps
    · -- the bound is looked at before the price, so it decides even when the gas is used up as well
      obtain ⟨limit, hlimit, hle⟩ := hspent
      have hexact : m.steps = limit := Nat.le_antisymm (hsteps limit hlimit) hle
      obtain ⟨q, hfails, hq⟩ := step_beyond_steps hstep hlimit hle
      have hcut := advance_of_step_error hframes hfails
      refine ⟨1, _, Nat.succ_le_succ (Nat.zero_le k), .cons hrunning (by rw [hcut]; exact .refl _), ?_⟩
      exact .outOfSteps hlimit (by omega) rfl rfl (hq.trans hexact)
    have hmore : ∀ limit, limits.steps = some limit → m.steps < limit := by
      intro limit hlimit
      exact Nat.lt_of_not_le fun hle => hspent ⟨limit, hlimit, hle⟩
    by_cases henough : n.gas.consumed.toNat ≤ limits.gas.toNat
    · -- the step is made again, and the run goes on from it
      have hagain := advance_of_step (step_withBudget hstep hgas hlimits hmore henough) hnil
      have hnext : ∀ limit, limits.steps = some limit → n.steps ≤ limit := by
        intro limit hlimit
        rw [(book_of_step hstep).1]
        exact hmore limit hlimit
      rw [hn] at ih
      obtain ⟨j, cut, hj, hrun, hends⟩ := ih (hn ▸ hlive.advance setting hm) hpaid.solvent hnil hlast hnext henough
      rw [← hagain] at hrun
      exact ⟨j + 1, cut, Nat.succ_le_succ hj, .cons hrunning hrun, hends⟩
    · have hshort : limits.gas.toNat < n.gas.consumed.toNat := Nat.lt_of_not_le henough
      obtain ⟨price, remaining, q, hfails, hq⟩ := step_beyond_budget hstep hgas hmore hbefore hshort
      have hcut := advance_of_step_error hframes hfails
      have hused : (q.faultWith (.insufficientGas price remaining)).gas.consumed.toNat ≤ limits.gas.toNat := by
        show q.gas.consumed.toNat ≤ limits.gas.toNat
        rw [hq]
        exact hbefore
      refine ⟨1, _, Nat.succ_le_succ (Nat.zero_le k), .cons hrunning (by rw [hcut]; exact .refl _), ?_⟩
      exact .outOfGas (Nat.lt_of_lt_of_le hshort hlater.consumed) rfl rfl hused

/-! ### Invocations -/

/-- Loading a script under looser limits gives the same machine but for its budget. -/
theorem load_withBudget (hlimits : setting.limits.AtMost limits) {script : Bytes} {entry : Nat}
    {arguments : List Item} {heap : Heap}
    (h : load setting.limits script entry arguments (initial setting.limits heap) = .ok () m) :
    load limits script entry arguments (initial limits heap) = .ok () (m.withBudget limits.gas) := by
  have hextends : Action.Extends (load setting.limits script entry arguments) (load limits script entry arguments) :=
    .bind (.within (.bind (.refl _) fun frame => MachineAction.pushFrame_extends hlimits frame)) fun _ => .refl _
  have hbookless : (load limits script entry arguments).Bookless :=
    MachineAction.closed_bookless.bind (.onCalls _) fun _ =>
      MachineAction.closed_bookless.bind (.onCalls _) fun _ => .onCalls _
  exact ok_withBudget hbookless limits.gas (hextends _ _ _ h)

/-- A run that halts, given looser limits on sizes and depth, is loaded all the same and ends in the same machine
if the new budget and the new bound on steps cover it; it faults for want of gas, within the budget, if the budget
does not, and at the bound on steps, having made just as many, if that does not. -/
theorem limits_only_cut_short {script : Bytes} {entry fuel : Nat} {arguments : List Item} {heap : Heap}
    {start : Machine} (hlimits : setting.limits.AtMost limits)
    (hload : load setting.limits script entry arguments (initial setting.limits heap) = .ok () start)
    (hends : start.execute setting fuel = some last) (hhalts : last.status = .halted) :
    ∃ other, load limits script entry arguments (initial limits heap) = .ok () other ∧
      ((∀ limit, limits.steps = some limit → last.steps ≤ limit) → last.gas.consumed ≤ limits.gas →
        other.execute (setting.withLimits limits) fuel = some (last.withBudget limits.gas)) ∧
      ((∀ limit, limits.steps = some limit → last.steps ≤ limit) → limits.gas < last.gas.consumed →
        ∃ cut price remaining, other.execute (setting.withLimits limits) fuel = some cut ∧
          cut.status = .faulted ∧ cut.fault = some (.insufficientGas price remaining) ∧
          cut.gas.consumed ≤ limits.gas) ∧
      (∀ limit, limits.steps = some limit → limit < last.steps → last.gas.consumed ≤ limits.gas →
        ∃ cut, other.execute (setting.withLimits limits) fuel = some cut ∧
          cut.status = .faulted ∧ cut.fault = some (.stepLimit limit) ∧ cut.steps = limit) := by
  obtain ⟨hlive, hrunning, hbreakpoints, -⟩ := fresh_of_load hload
  obtain ⟨hsolvent, hconsumed, hcount⟩ := solvent_of_load hload
  rw [execute_of_running hrunning] at hends
  obtain ⟨k, hk, hrun, -⟩ := runWhile_eq_some hends
  have hsteps : ∀ limit, limits.steps = some limit → start.steps ≤ limit := by
    intro limit _
    rw [hcount]
    exact Nat.zero_le _
  have hbefore : start.gas.consumed.toNat ≤ limits.gas.toNat := by
    rw [hconsumed]
    exact Nat.zero_le _
  obtain ⟨j, cut, hj, hagain, hcut⟩ := hrun.endsUnder hlimits hlive hsolvent hbreakpoints hhalts hsteps hbefore
  have hover : cut.status ≠ .running := by
    cases hcut with
    | same _ _ =>
      -- the budget is no part of the status
      have hsame : (last.withBudget limits.gas).status = .halted := hhalts
      rw [hsame]
      decide
    | outOfGas _ hstatus _ _ | outOfSteps _ _ hstatus _ _ =>
      rw [hstatus]
      decide
  have hexecute : (start.withBudget limits.gas).execute (setting.withLimits limits) fuel = some cut := by
    rw [execute_of_running (by exact hrunning)]
    exact hagain.runWhile_eq hover fuel (Nat.le_trans hj hk)
  refine ⟨_, load_withBudget hlimits hload, fun hwithin henough => ?_, fun hwithin hshort => ?_,
    fun limit hlimit hshort henough => ?_⟩
  · rw [UInt64.le_iff_toNat_le] at henough
    cases hcut with
    | same _ _ => exact hexecute
    | outOfGas hshort _ _ _ => omega
    | outOfSteps hlimit hshort _ _ _ =>
      have hle := hwithin _ hlimit
      omega
  · rw [UInt64.lt_iff_toNat_lt] at hshort
    cases hcut with
    | same _ henough => omega
    | outOfGas _ hstatus hfault hgas => exact ⟨cut, _, _, hexecute, hstatus, hfault, UInt64.le_iff_toNat_le.2 hgas⟩
    | outOfSteps hlimit hshort _ _ _ =>
      have hle := hwithin _ hlimit
      omega
  · rw [UInt64.le_iff_toNat_le] at henough
    cases hcut with
    | same hwithin _ =>
      have hle := hwithin limit hlimit
      omega
    | outOfGas hshort _ _ _ => omega
    | outOfSteps hlimit' _ hstatus hfault hsteps =>
      rw [hlimit] at hlimit'
      cases hlimit'
      exact ⟨cut, hexecute, hstatus, hfault, hsteps⟩

/-- Adding two numbers takes four steps and two units of gas: with as much of both it ends the same, and with less of
either it faults. -/
theorem sum_under_other_limits : ∃ last, (ofScript {} [0x51, 0x52, 0x93]).execute Setting.blank 8 = some last ∧
    last.status = .halted ∧ last.steps = 4 ∧ last.gas.consumed = 2 ∧
    (ofScript { gas := 2, steps := some 4 } [0x51, 0x52, 0x93]).execute
      (Setting.blank.withLimits { gas := 2, steps := some 4 }) 8 = some (last.withBudget 2) ∧
    (∃ cut price remaining, (ofScript { gas := 1 } [0x51, 0x52, 0x93]).execute
      (Setting.blank.withLimits { gas := 1 }) 8 = some cut ∧ cut.fault = some (.insufficientGas price remaining)) ∧
    ∃ cut, (ofScript { steps := some 3 } [0x51, 0x52, 0x93]).execute
      (Setting.blank.withLimits { steps := some 3 }) 8 = some cut ∧ cut.fault = some (.stepLimit 3) := by
  have hends : ((ofScript {} [0x51, 0x52, 0x93]).execute Setting.blank 8).map
      (fun m => (m.status, m.steps, m.gas.consumed)) = some (.halted, 4, 2) := by
    decide +kernel
  obtain ⟨last, hlast, hshape⟩ := Option.map_eq_some_iff.1 hends
  simp only [Prod.mk.injEq] at hshape
  obtain ⟨hstatus, hsteps, hgas⟩ := hshape
  have hloads (limits : Limits) (hdepth : 0 < limits.callDepth) :=
    load_ofScript [0x51, 0x52, 0x93] hdepth
  have hload := hloads {} (by decide)
  refine ⟨last, hlast, hstatus, hsteps, hgas, ?_, ?_, ?_⟩
  · have hlimits : Setting.blank.limits.AtMost { gas := 2, steps := some 4 } :=
      ⟨Nat.le_refl _, Nat.le_refl _, Nat.le_refl _, Nat.le_refl _⟩
    obtain ⟨other, hother, hsame, -, -⟩ := limits_only_cut_short hlimits hload hlast hstatus
    rw [hloads { gas := 2, steps := some 4 } (by decide)] at hother
    cases hother
    refine hsame ?_ ?_
    · rintro limit ⟨⟩
      exact Nat.le_of_eq hsteps
    · rw [hgas]
      decide
  · have hlimits : Setting.blank.limits.AtMost { gas := 1 } :=
      ⟨Nat.le_refl _, Nat.le_refl _, Nat.le_refl _, Nat.le_refl _⟩
    obtain ⟨other, hother, -, hcut, -⟩ := limits_only_cut_short hlimits hload hlast hstatus
    rw [hloads { gas := 1 } (by decide)] at hother
    cases hother
    obtain ⟨cut, price, remaining, hexecute, -, hfault, -⟩ := hcut (by rintro limit ⟨⟩) (by rw [hgas]; decide)
    exact ⟨cut, price, remaining, hexecute, hfault⟩
  · have hlimits : Setting.blank.limits.AtMost { steps := some 3 } :=
      ⟨Nat.le_refl _, Nat.le_refl _, Nat.le_refl _, Nat.le_refl _⟩
    obtain ⟨other, hother, -, -, hcut⟩ := limits_only_cut_short hlimits hload hlast hstatus
    rw [hloads { steps := some 3 } (by decide)] at hother
    cases hother
    obtain ⟨cut, hexecute, -, hfault, -⟩ := hcut 3 rfl (by rw [hsteps]; decide) (by rw [hgas]; decide)
    exact ⟨cut, hexecute, hfault⟩

end Machine
end LedgerVM
