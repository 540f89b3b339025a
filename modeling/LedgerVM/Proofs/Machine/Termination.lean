import Mathlib.Data.List.MinMax
import Mathlib.Order.Nat
import LedgerVM.Proofs.Machine.Consistency
import LedgerVM.Proofs.Machine.Gas

/-!
# Every run ends

Pushes may be free, and other prices may be nothing, but a transfer of control costs the price of an instruction or of
a contract call.  Where these two are not free, gas that is left counts for a whole script: an instruction that does
not transfer control brings the executing frame nearer to the end of its script, and one that does may put it
anywhere in some script, but uses gas (`Machine.potential_of_step`).  Where steps are bounded, a run ends at the bound
whatever anything costs.  Both are measures that every step brings down (`Machine.Measures.endsWithin`).
-/

namespace LedgerVM

/-- The length of the longest script of a deployed contract. -/
def Ledger.longestScript : Ledger → Nat
  | available chain => (chain.contracts.toList.map fun entry => entry.2.script.length).foldr max 0
  | unavailable _ => 0

theorem Ledger.length_le_longestScript {ledger : Ledger} {hash : Hash160} {contract : Contract}
    (h : ledger.contract hash = .ok (some contract)) : contract.script.length ≤ ledger.longestScript := by
  cases ledger with
  | unavailable reason => cases h
  | available chain =>
    have hfound : chain.contracts[hash]? = some contract := Except.ok.inj h
    have hmem : (hash, contract) ∈ chain.contracts.toList :=
      Std.ExtTreeMap.mem_toList_iff_getElem?_eq_some.2 hfound
    exact List.le_max_of_le (List.mem_map.2 ⟨(hash, contract), hmem, rfl⟩) (Nat.le_refl _)

namespace Machine

variable {setting : Setting} {m n start last : Machine} {longest : Nat}

/-! ### The potential -/

/-- How many bytes there are between the executing frame and the end of its script. -/
def distance (m : Machine) : Nat :=
  match m.calls.frames with
  | frame :: _ => frame.script.bytes.length - frame.pointer
  | [] => 0

/-- What is left of the gas, each unit worth a whole script and one step, and of the script at hand. -/
def potential (longest : Nat) (m : Machine) : Nat :=
  (m.gas.limit.toNat - m.gas.consumed.toNat) * (longest + 1) + m.distance

/-- The scope in which no script is longer than `longest`. -/
def scriptsWithin (longest : Nat) (limits : Limits) : CallScope :=
  .ofScripts limits fun script => script.bytes.length ≤ longest

theorem distance_le (hm : m.calls.frames = [] ∨ (scriptsWithin longest setting.limits).HoldsCalls .anywhere m.calls) :
    m.distance ≤ longest := by
  unfold distance
  split
  · rename_i frame rest hframes
    rcases hm with hnil | hm
    · rw [hnil] at hframes
      cases hframes
    · have hscript : frame.script.bytes.length ≤ longest :=
        (hm.frames frame (by rw [hframes]; exact List.mem_cons_self)).script
      omega
  · exact Nat.zero_le _

/-- A transfer of control costs the price of an instruction or of a contract call. -/
theorem price_of_transfers (schedule : GasSchedule) {i : Instruction} (hi : i.transfers = true) :
    price schedule i = Pure.pure schedule.instruction ∨ price schedule i = Pure.pure schedule.appCall := by
  cases i with
  | jump _ | jumpIf _ _ | call _ | ret => exact .inl rfl
  | appCall _ _ => exact .inr rfl
  | _ => cases hi

/-- A step brings the executing frame nearer to the end of its script, or uses gas. -/
theorem distance_or_gas_of_step (hinstruction : 1 ≤ setting.schedule.instruction)
    (happCall : 1 ≤ setting.schedule.appCall) (hgas : m.gas.Solvent)
    (hm : (scriptsWithin longest setting.limits).HoldsCalls .anywhere m.calls) (h : step setting m = .ok () n) :
    n.distance < m.distance ∨ m.gas.consumed.toNat < n.gas.consumed.toNat := by
  obtain ⟨frame, rest, i, size, p, gas, hframes, hdecode, -, hprice, hcharge, hexecute, -⟩ := step_eq_ok.1 h
  cases hi : i.transfers with
  | true =>
    -- whatever the distance becomes, the price was paid
    right
    have hpaid : n.gas = gas := gas_of_execute hexecute
    have hone : 1 ≤ p := by
      rcases price_of_transfers setting.schedule hi with hcost | hcost
      · rw [hcost] at hprice
        cases hprice
        exact hinstruction
      · rw [hcost] at hprice
        cases hprice
        exact happCall
    rw [hpaid, GasMeter.toNat_consumed_of_charge hgas hcharge]
    have hpositive : 1 ≤ p.toNat := UInt64.le_iff_toNat_le.1 hone
    omega
  | false =>
    left
    have hadvances := decode_yields frame.script.bytes frame.pointer
    rw [hdecode] at hadvances
    rcases hadvances with ⟨rfl, -⟩ | ⟨hsize, hinside⟩
    · cases hi
    -- the executing frame is still there, behind the instruction
    let behind : Place := fun script pointer => script = frame.script ∧ pointer = frame.pointer + size
    have hentering : (scriptsWithin longest setting.limits).HoldsCalls behind (m.entering frame rest size gas).calls :=
      holds_entering hm hframes ⟨rfl, rfl⟩
    have hstays := (i.execute_straight (fun _ _ _ => trivial) frame.pointer hi).of_ok hentering hexecute
    obtain ⟨top, others, htop, hscript, hpointer⟩ := hstays.1.top
    rw [distance, distance, htop, hframes]
    simp only [hscript, hpointer]
    omega

/-- Every step that succeeds brings the potential down. -/
theorem potential_of_step (hinstruction : 1 ≤ setting.schedule.instruction) (happCall : 1 ≤ setting.schedule.appCall)
    (hadmits : (scriptsWithin longest setting.limits).Admits setting) (hgas : m.gas.Solvent)
    (hm : (scriptsWithin longest setting.limits).HoldsCalls .anywhere m.calls) (h : step setting m = .ok () n) :
    n.potential longest < m.potential longest := by
  have hpaid := debited_of_step hgas h
  have hwithin : m.gas.consumed.toNat ≤ n.gas.consumed.toNat := hpaid.consumed
  have hbudget : n.gas.consumed.toNat ≤ m.gas.limit.toNat := by
    rw [← hpaid.limit]
    exact UInt64.le_iff_toNat_le.1 hpaid.solvent
  unfold potential
  rw [hpaid.limit]
  rcases distance_or_gas_of_step hinstruction happCall hgas hm h with hnearer | hused
  · have hleft := Nat.mul_le_mul_right (longest + 1) (Nat.sub_le_sub_left hwithin m.gas.limit.toNat)
    omega
  · -- a unit of gas is worth more than any script is long
    have hholds := (step_confined hadmits hm fun _ _ => trivial)
    rw [h] at hholds
    have hfar : n.distance ≤ longest := distance_le hholds.1
    have hleft : (m.gas.limit.toNat - n.gas.consumed.toNat + 1) * (longest + 1) ≤
        (m.gas.limit.toNat - m.gas.consumed.toNat) * (longest + 1) :=
      Nat.mul_le_mul_right (longest + 1) (by omega)
    rw [Nat.add_mul] at hleft
    omega

/-! ### Measures of runs -/

/-- A measure of machines with some property, which every step that succeeds brings down, and which is not nothing
when a step is counted that fails.  It does not look at status and breakpoints. -/
structure Measures (setting : Setting) (P : Machine → Prop) (μ : Machine → Nat) : Prop where
  property : ∀ m status breakpoints, P m → P { m with status, breakpoints }
  measure : ∀ m status breakpoints, μ { m with status, breakpoints } = μ m
  advance : ∀ m, m.Live → m.status = .running → P m → P (m.advance setting)
  ok : ∀ m n, P m → step setting m = .ok () n → μ n < μ m
  error : ∀ m n fault, P m → m.calls.frames ≠ [] → step setting m = .error fault n →
    n.steps = m.steps ∨ n.steps = m.steps + 1 ∧ 0 < μ m

/-- The steps that were counted and what is left of the measure come to no more than the bound. -/
def Within (μ : Machine → Nat) (bound : Nat) (m : Machine) : Prop :=
  m.steps ≤ bound ∧ (m.status ≠ .faulted → m.steps + μ m ≤ bound)

namespace Measures

variable {P : Machine → Prop} {μ : Machine → Nat} {bound : Nat} (hμ : Measures setting P μ)
include hμ

theorem stopAtBreakpoint (m : Machine) : μ m.stopAtBreakpoint = μ m := by
  rcases m.stopAtBreakpoint_eq with heq | ⟨-, heq⟩
  · rw [heq]
  · rw [heq]
    exact hμ.measure m .paused m.breakpoints

/-- An advance after which the machine did not fault has brought the measure down. -/
theorem lt_of_advance (hlive : m.Live) (hm : m.status = .running) (hP : P m)
    (hgoes : (m.advance setting).status ≠ .faulted) : μ (m.advance setting) < μ m := by
  rcases hlive.advance_cases setting hm with ⟨n, hstep, -, -, hn⟩ | ⟨n, hstep, -, hn⟩ | ⟨fault, n, -, hn⟩
  · rw [hn, hμ.stopAtBreakpoint]
    exact hμ.ok m n hP hstep
  · rw [hn]
    exact hμ.ok m n hP hstep
  · rw [hn] at hgoes
    exact absurd rfl hgoes

theorem within_advance (hlive : m.Live) (hm : m.status = .running) (hP : P m) (h : m.Within μ bound) :
    (m.advance setting).Within μ bound := by
  have hleft := h.2 (by rw [hm]; decide)
  rcases hlive.advance_cases setting hm with ⟨n, hstep, -, -, hn⟩ | ⟨n, hstep, -, hn⟩ | ⟨fault, n, hstep, hn⟩
  · have hcount := (book_of_step hstep).1
    have hless := hμ.ok m n hP hstep
    rw [hn, Within, steps_stopAtBreakpoint, hμ.stopAtBreakpoint]
    omega
  · have hcount := (book_of_step hstep).1
    have hless := hμ.ok m n hP hstep
    rw [hn, Within]
    omega
  · -- a step is only counted that was paid for, and there was something left to pay with
    have hcount : n.steps ≤ bound := by
      rcases hμ.error m n fault hP (hlive.frames_ne_nil hm) hstep with hsame | ⟨hone, hpositive⟩
      · omega
      · omega
    rw [hn]
    exact ⟨hcount, fun hgoes => absurd rfl hgoes⟩

/-- A machine stops after no more steps than the measure gives it, and one that fails. -/
theorem stops (hlive : m.Live) (hP : P m) :
    ∃ k last, k ≤ μ m + 1 ∧ Steps setting k m last ∧ last.status ≠ .running := by
  -- by induction on the measure, for the run from the next machine is the shorter one
  induction hleft : μ m using Nat.strong_induction_on generalizing m with
  | _ left ih =>
    by_cases hm : m.status = .running
    · by_cases hgoes : (m.advance setting).status = .running
      · have hless : μ (m.advance setting) < left := by
          rw [← hleft]
          exact hμ.lt_of_advance hlive hm hP (by rw [hgoes]; decide)
        obtain ⟨k, last, hk, hrun, hstops⟩ :=
          ih _ hless (hlive.advance setting hm) (hμ.advance m hlive hm hP) rfl
        exact ⟨k + 1, last, by omega, .cons hm hrun, hstops⟩
      · exact ⟨1, _, by omega, .cons hm (.refl _), hgoes⟩
    · exact ⟨0, m, by omega, .refl m, hm⟩

theorem within_of_steps {k : Nat} (hrun : Steps setting k m last) (hlive : m.Live) (hP : P m) (h : m.Within μ bound) :
    last.Live ∧ P last ∧ last.Within μ bound := by
  refine hrun.keeps (P := fun m => P m ∧ m.Within μ bound) ?_ hlive ⟨hP, h⟩
  intro m hlive hm hboth
  exact ⟨hμ.advance m hlive hm hboth.1, hμ.within_advance hlive hm hboth.1 hboth.2⟩

end Measures

/-! ### How a run stops -/

/-- The next instruction is at a breakpoint. -/
def AtBreakpoint (m : Machine) : Prop := ∃ location ∈ m.breakpoints, m.location? = some location

theorem atBreakpoint_of_advance (hlive : m.Live) (hm : m.status = .running)
    (h : (m.advance setting).status = .paused) : (m.advance setting).AtBreakpoint := by
  rcases hlive.advance_cases setting hm with ⟨n, -, hrunning, -, hn⟩ | ⟨n, -, hhalted, hn⟩ | ⟨fault, n, -, hn⟩
  · rw [hn] at h ⊢
    unfold stopAtBreakpoint at h ⊢
    rw [hrunning] at h ⊢
    cases hlocation : n.location? with
    | none => simp [hlocation, hrunning] at h
    | some location =>
      simp only [hlocation] at h ⊢
      split at h
      · rename_i hany
        obtain ⟨found, hmem, hfound⟩ := List.any_eq_true.1 hany
        rw [of_decide_eq_true hfound] at hmem
        rw [if_pos hany]
        exact ⟨location, hmem, hlocation⟩
      · rw [hrunning] at h
        cases h
  · rw [hn, hhalted] at h
    cases h
  · rw [hn] at h
    cases h

/-- The machine has counted no more steps than the bound, and left to run it halts, faults or stops at a breakpoint
having counted no more than that. -/
structure EndsWithin (setting : Setting) (bound : Nat) (m : Machine) : Prop where
  steps : m.steps ≤ bound
  ends : ∃ last, (∀ fuel, bound < fuel → m.execute setting fuel = some last) ∧
    (last.status = .halted ∨ last.status = .faulted ∨ last.status = .paused ∧ last.AtBreakpoint) ∧
    last.steps ≤ bound

/-- However a loaded machine is driven, it ends within a bound that a measure starts with. -/
theorem Measures.endsWithin {P : Machine → Prop} {μ : Machine → Nat} {bound : Nat} {script : Bytes} {entry : Nat}
    {arguments : List Item} {heap : Heap} {calls : List DebugCall} (hμ : Measures setting P μ)
    (hload : load setting.limits script entry arguments (initial setting.limits heap) = .ok () start)
    (hdebug : start.debug setting calls = some m) (hP : P start) (hstart : start.Within μ bound) :
    m.EndsWithin setting bound := by
  obtain ⟨hlive, k, hrun⟩ := steps_of_driven hload hdebug
  obtain ⟨-, hbare, hwithin⟩ := hμ.within_of_steps hrun (fresh_of_load hload).1 hP hstart
  refine ⟨hwithin.1, ?_⟩
  cases hm : m.status.isTerminal with
  | true =>
    refine ⟨m, fun fuel _ => if_pos hm, ?_, hwithin.1⟩
    cases hstatus : m.status with
    | halted => exact .inl rfl
    | faulted => exact .inr (.inl rfl)
    | running | paused =>
      rw [hstatus] at hm
      cases hm
  | false =>
    -- the machine goes on as it was left, but for its pauses and its breakpoints
    have hresume : m.resume = { m.bare with status := .running, breakpoints := m.breakpoints } := rfl
    have hP' : P m.resume := hμ.property m.bare .running m.breakpoints hbare
    have hsame : μ m.resume = μ m.bare := hμ.measure m.bare .running m.breakpoints
    have hgoes : m.bare.status ≠ .faulted := by
      unfold bare
      cases hstatus : m.status with
      | running | paused => simp
      | halted | faulted =>
        rw [hstatus] at hm
        cases hm
    have hleft : m.bare.steps + μ m.bare ≤ bound := hwithin.2 hgoes
    have hwithin' : m.resume.Within μ bound := ⟨hwithin.1, fun _ => by rw [hsame]; exact hleft⟩
    obtain ⟨j, last, hj, hrest, hstops⟩ := hμ.stops (hlive.resume hm) hP'
    obtain ⟨-, -, hlast⟩ := hμ.within_of_steps hrest (hlive.resume hm) hP' hwithin'
    refine ⟨last, fun fuel hfuel => ?_, ?_, hlast.1⟩
    · rw [execute, if_neg (by simp [hm])]
      exact hrest.runWhile_eq hstops fuel (by omega)
    · have hpauses : last.status = .paused → last.AtBreakpoint :=
        (hrest.keeps (P := fun m => m.status = .paused → m.AtBreakpoint)
          (fun _ hlive hm _ => atBreakpoint_of_advance hlive hm) (hlive.resume hm) fun hpaused => by cases hpaused).2
      cases hstatus : last.status with
      | running => exact absurd hstatus hstops
      | halted => exact .inl rfl
      | faulted => exact .inr (.inl rfl)
      | paused => exact .inr (.inr ⟨rfl, hpauses hstatus⟩)

/-! ### The two measures -/

/-- Gas that is left, and the bytes left of the script at hand, bound a run under a schedule on which transfers of
control are not free. -/
theorem measures_potential (hinstruction : 1 ≤ setting.schedule.instruction) (happCall : 1 ≤ setting.schedule.appCall)
    (hadmits : (scriptsWithin longest setting.limits).Admits setting) :
    Measures setting
      (fun m => m.gas.Solvent ∧
        (m.calls.frames ≠ [] → (scriptsWithin longest setting.limits).HoldsCalls .anywhere m.calls))
      (fun m => m.potential longest + 1) where
  property _ _ _ h := h
  measure _ _ _ := rfl
  advance m hlive hm h := by
    have hcalls := h.2 (hlive.frames_ne_nil hm)
    exact ⟨(debited_of_advance hlive hm h.1).solvent, hlive.advance_confined hm hadmits hcalls fun _ _ => trivial⟩
  ok m n h hstep := by
    obtain ⟨frame, rest, -, -, -, -, hframes, -⟩ := step_eq_ok.1 hstep
    have hholds := h.2 (by rw [hframes]; exact List.cons_ne_nil _ _)
    exact Nat.succ_lt_succ (potential_of_step hinstruction happCall hadmits h.1 hholds hstep)
  error m n fault h hframes hstep := by
    obtain ⟨frame, rest, hframes⟩ := List.exists_cons_of_ne_nil hframes
    rcases ((step_eq_error hframes).1 hstep).count with ⟨-, hsame⟩ | ⟨p, -, hone, -⟩
    · exact .inl hsame
    · exact .inr ⟨hone, Nat.succ_pos _⟩

/-- The steps that may still be made bound a run whatever anything costs. -/
theorem measures_steps {limit : Nat} (hlimit : setting.limits.steps = some limit) :
    Measures setting (fun _ => True) (fun m => limit - m.steps) where
  property _ _ _ _ := trivial
  measure _ _ _ := rfl
  advance _ _ _ _ := trivial
  ok m n _ hstep := by
    obtain ⟨frame, rest, i, size, p, gas, -, -, hsteps, -⟩ := step_eq_ok.1 hstep
    have hcount := (book_of_step hstep).1
    have hless := hsteps limit hlimit
    omega
  error m n fault _ hframes hstep := by
    obtain ⟨frame, rest, hframes⟩ := List.exists_cons_of_ne_nil hframes
    rcases ((step_eq_error hframes).1 hstep).count with ⟨-, hsame⟩ | ⟨p, -, hone, hsteps⟩
    · exact .inl hsame
    · exact .inr ⟨hone, Nat.sub_pos_of_lt (hsteps limit hlimit)⟩

end Machine
end LedgerVM
