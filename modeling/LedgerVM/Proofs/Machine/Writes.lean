import LedgerVM.Proofs.Machine.Run
import LedgerVM.Proofs.Service.Writes

/-!
# The writes of a run

The pending changes of a machine are the record of the writes of its steps (`changes_of_step`,
`Steps.changes_eq`).  A machine that faults drops them with its results and notifications (`RolledBack.advance`),
so that an invocation that ends leaves either all of its writes or nothing (`execute_eq_some`).
-/

namespace LedgerVM

/-- The write that an instruction asks for with the operands on the stack, if it writes at all. -/
def Instruction.write? : Instruction → List Item → Option Write
  | syscall id, stack => (Service.ofId? id).bind (·.write? stack)
  | _, _ => none

namespace MachineAction

private theorem closed_changes :
    Closed (Action.Ensures fun m n : Machine => n.effects.changes = m.effects.changes) where
  pure := .pure fun _ => rfl
  throw := .throw
  bind := .bind fun hst htu => htu.trans hst
  onCalls _ := .within (Q := fun _ _ => True) (fun _ _ _ => rfl) fun _ _ _ _ => trivial

private theorem changes_of_callService {setting : Setting} {service : Service} {m n : Machine} {frame : Frame}
    {rest : List Frame} (hframes : m.calls.frames = frame :: rest)
    (h : callService setting service m = .ok () n) :
    n.effects.changes = m.effects.changes.recordAll (service.write? frame.stack).toList := by
  unfold callService at h
  rw [hframes] at h
  dsimp only at h
  split at h
  · rename_i s hs
    cases h
    exact Service.changes_of_run hs
  · cases h

end MachineAction

open MachineAction in
/-- An instruction that succeeds records the write it asks for. -/
theorem Instruction.changes_of_execute {setting : Setting} {position : Nat} {i : Instruction} {m n : Machine}
    {frame : Frame} {rest : List Frame} (hframes : m.calls.frames = frame :: rest)
    (h : i.execute setting position m = .ok () n) :
    n.effects.changes = m.effects.changes.recordAll (i.write? frame.stack).toList := by
  cases i with
  | syscall id =>
    obtain ⟨service, p, hfind, hcall⟩ := Action.bind_eq_ok.1 h
    cases hid : Service.ofId? id with
    | none =>
      simp only [findService, hid] at hfind
      cases hfind
    | some found =>
      simp only [findService, hid] at hfind
      cases hfind
      have hwrite : (syscall id).write? frame.stack = service.write? frame.stack := by simp [write?, hid]
      rw [hwrite]
      exact changes_of_callService hframes hcall
  | ret =>
    rcases ret_eq_ok h with ⟨frame, -, rfl⟩ | ⟨frame, caller, rest, -, rfl⟩
    · rfl
    · rfl
  | _ => exact closed_changes.execute setting position (by simp) (by simp) m () n h

namespace Machine

variable {setting : Setting} {m n last : Machine}

/-- The write that the next step makes.  A step that fails makes none. -/
def write? (setting : Setting) (m : Machine) : Option Write :=
  match step setting m, m.calls.frames with
  | .ok _ _, frame :: _ =>
    (decode frame.script.bytes frame.pointer).toOption.bind fun (i, _) => i.write? frame.stack
  | _, _ => none

/-- The writes of the steps that a running machine takes, in order. -/
def writes (setting : Setting) : (fuel : Nat) → Machine → List Write
  | 0, _ => []
  | fuel + 1, m =>
    if m.status = .running then (m.write? setting).toList ++ writes setting fuel (m.advance setting) else []

/-- A step that succeeds records the write it makes. -/
theorem changes_of_step (h : step setting m = .ok () n) :
    n.effects.changes = m.effects.changes.recordAll (m.write? setting).toList := by
  obtain ⟨frame, rest, i, size, p, gas, hframes, hdecode, -, -, -, hexecute, -⟩ := step_eq_ok.1 h
  have hwrite : m.write? setting = i.write? frame.stack := by
    simp [write?, h, hframes, hdecode, Except.toOption]
  rw [hwrite]
  have hentering : (m.entering frame rest size gas).calls.frames =
      { frame with pointer := frame.pointer + size } :: rest := rfl
  have hrecorded := Instruction.changes_of_execute hentering hexecute
  exact hrecorded

/-! ### How a run ends -/

/-- A machine that faulted has dropped its results, notifications and pending changes. -/
def RolledBack (m : Machine) : Prop :=
  m.status = .faulted → m.results = [] ∧ m.effects.notifications = [] ∧ m.effects.changes = .empty

theorem RolledBack.advance (setting : Setting) (hlive : m.Live) (hm : m.status = .running) :
    (m.advance setting).RolledBack := by
  intro hfault
  rcases hlive.advance_cases setting hm with ⟨n, -, hrunning, -, hn⟩ | ⟨n, -, hhalted, hn⟩ | ⟨fault, n, -, hn⟩
  · rw [hn] at hfault
    rcases n.stopAtBreakpoint_eq with heq | ⟨-, heq⟩
    · rw [heq, hrunning] at hfault
      cases hfault
    · rw [heq] at hfault
      cases hfault
  · rw [hn, hhalted] at hfault
    cases hfault
  · rw [hn]
    exact ⟨rfl, rfl, rfl⟩

/-- A machine is not paused and cannot come upon a breakpoint. -/
def Undisturbed (m : Machine) : Prop := m.status ≠ .paused ∧ (m.status = .running → m.breakpoints = [])

theorem Undisturbed.advance (setting : Setting) (hlive : m.Live) (hm : m.status = .running)
    (hundisturbed : m.Undisturbed) : (m.advance setting).Undisturbed := by
  rcases hlive.advance_cases setting hm with ⟨n, hstep, hrunning, -, hn⟩ | ⟨n, -, hhalted, hn⟩ | ⟨fault, n, -, hn⟩
  · have hnil : n.breakpoints = [] := (book_of_step hstep).2.trans (hundisturbed.2 hm)
    rw [hn, stopAtBreakpoint_of_nil hnil]
    exact ⟨by simp [hrunning], fun _ => hnil⟩
  · rw [hn]
    exact ⟨by simp [hhalted], by simp [hhalted]⟩
  · rw [hn]
    exact ⟨by simp [faultWith], by simp [faultWith]⟩

/-- The pending changes of a machine that halted are the record of the writes of its run. -/
theorem Steps.changes_eq {k : Nat} (h : Steps setting k m last) (hlive : m.Live) (hlast : last.status = .halted) :
    ∀ fuel, k ≤ fuel → last.effects.changes = m.effects.changes.recordAll (m.writes setting fuel) := by
  induction h with
  | refl m =>
    intro fuel _
    have hnone : m.writes setting fuel = [] := by
      cases fuel with
      | zero => rfl
      | succ fuel => simp [writes, hlast]
    rw [hnone]
    rfl
  | @cons k m last hm h ih =>
    intro fuel hfuel
    obtain ⟨fuel, rfl⟩ : ∃ more, fuel = more + 1 := ⟨fuel - 1, by omega⟩
    rw [ih (hlive.advance setting hm) hlast fuel (by omega), writes, if_pos hm, ChangeSet.recordAll_append]
    rcases hlive.advance_eq_step setting hm with ⟨n, status, hstep, hn⟩ | ⟨fault, n, -, hn⟩
    · rw [hn, changes_of_step hstep]
    · -- the run would have ended here, with a fault
      have hfaulted : (m.advance setting).status = .faulted := by rw [hn]; rfl
      rw [h.eq_of_stopped (by rw [hfaulted]; decide), hfaulted] at hlast
      cases hlast

/-- An invocation that ends has halted with all of its writes pending, or has faulted and wants nothing. -/
theorem execute_eq_some {script : Bytes} {entry fuel : Nat} {arguments : List Item} {heap : Heap} {start : Machine}
    (hload : load setting.limits script entry arguments (initial setting.limits heap) = .ok () start)
    (h : start.execute setting fuel = some last) :
    (last.status = .halted ∧ last.effects.changes = ChangeSet.empty.recordAll (start.writes setting fuel)) ∨
      (last.status = .faulted ∧ last.results = [] ∧ last.effects.notifications = [] ∧
        last.effects.changes = .empty) := by
  obtain ⟨hlive, hrunning, hbreakpoints, heffects⟩ := fresh_of_load hload
  have hresume : start.resume = start := by rw [resume, ← hrunning]
  have hundisturbed : start.Undisturbed := ⟨by rw [hrunning]; decide, fun _ => hbreakpoints⟩
  have hrolledBack : start.RolledBack := fun hfault => absurd (hrunning.symm.trans hfault) (by decide)
  rw [execute, if_neg (by simp [hrunning, Status.isTerminal]), hresume] at h
  obtain ⟨k, hk, hrun, hstop⟩ := runWhile_eq_some h
  have hpaused := (hrun.keeps (fun _ => Undisturbed.advance setting) hlive hundisturbed).2.1
  have hback := (hrun.keeps (fun _ hlive hm _ => RolledBack.advance setting hlive hm) hlive hrolledBack).2
  have hchanges := hrun.changes_eq hlive
  cases hlast : last.status with
  | running => exact absurd ⟨hlast, rfl⟩ hstop
  | paused => exact absurd hlast hpaused
  | halted =>
    refine .inl ⟨rfl, ?_⟩
    rw [hchanges hlast fuel hk, heffects]
    rfl
  | faulted => exact .inr ⟨rfl, hback hlast⟩

end Machine
end LedgerVM
