import LedgerVM.Proofs.Machine.Confinement
import LedgerVM.Proofs.Machine.Debugger

/-!
# What a machine holds in each status

A machine that faulted says why and holds nothing but its log, its gas and its steps; one that halted has no frames
left; one that can go on has some, no more than calls may nest, and no results yet.  This is broken and restored
within a step: a return or a tail call takes a frame away before it is known what becomes of the machine
(`Machine.Consistent.advance`).  It holds however a loaded machine is driven (`Machine.consistent_of_debug`).
-/

namespace LedgerVM

namespace MachineAction

private theorem closed_results : Closed (Action.Ensures fun m n : Machine => n.results = m.results) where
  pure := .pure fun _ => rfl
  throw := .throw
  bind := .bind fun hst htu => htu.trans hst
  onCalls _ := .within (Q := fun _ _ => True) (fun _ _ _ => rfl) fun _ _ _ _ => trivial

private theorem results_of_callService {setting : Setting} {service : Service} {m n : Machine}
    (h : callService setting service m = .ok () n) : n.results = m.results := by
  unfold callService at h
  split at h
  · cases h
  · dsimp only at h
    split at h
    · cases h
      rfl
    · cases h

end MachineAction

open MachineAction in
/-- Only the return that halts the machine leaves results. -/
theorem Instruction.results_of_execute {setting : Setting} {position : Nat} {i : Instruction} {m n : Machine}
    (h : i.execute setting position m = .ok () n) (hn : n.status ≠ .halted) : n.results = m.results := by
  cases i with
  | syscall id =>
    obtain ⟨service, p, hfind, hcall⟩ := Action.bind_eq_ok.1 h
    have hfound : p.results = m.results := closed_results.findService id m service p hfind
    rw [results_of_callService hcall, hfound]
  | ret =>
    rcases ret_eq_ok h with ⟨frame, -, rfl⟩ | ⟨frame, caller, rest, -, rfl⟩
    · exact absurd rfl hn
    · rfl
  | _ => exact closed_results.execute setting position (by simp) (by simp) m () n h

namespace Machine

variable {setting : Setting} {m n start : Machine}

/-- What a machine holds goes with its status. -/
structure Consistent (limits : Limits) (m : Machine) : Prop where
  faulted_iff : m.status = .faulted ↔ m.fault.isSome
  faulted : m.status = .faulted → m.calls.frames = [] ∧ m.results = [] ∧ m.effects.notifications = [] ∧
    m.effects.changes = .empty ∧ m.fault ≠ some .noFrame
  halted : m.status = .halted → m.calls.frames = [] ∧ m.fault = none
  ongoing : m.status = .running ∨ m.status = .paused → m.calls.frames ≠ [] ∧
    m.calls.frames.length ≤ limits.callDepth ∧ m.results = [] ∧ m.fault = none

namespace Consistent

variable {limits : Limits}

theorem of_running (hm : m.status = .running) (hframes : m.calls.frames ≠ [])
    (hdepth : m.calls.frames.length ≤ limits.callDepth) (hresults : m.results = []) (hfault : m.fault = none) :
    m.Consistent limits where
  faulted_iff := by simp [hm, hfault]
  faulted h := by simp [hm] at h
  halted h := by simp [hm] at h
  ongoing _ := ⟨hframes, hdepth, hresults, hfault⟩

theorem not_faulted (h : m.Consistent limits) (hframes : m.calls.frames ≠ []) : m.status ≠ .faulted :=
  fun hm => hframes (h.faulted hm).1

theorem of_halted (hm : m.status = .halted) (hframes : m.calls.frames = []) (hfault : m.fault = none) :
    m.Consistent limits where
  faulted_iff := by simp [hm, hfault]
  faulted h := by simp [hm] at h
  halted _ := ⟨hframes, hfault⟩
  ongoing h := by simp [hm] at h

theorem of_faultWith {fault : Fault} (hfault : fault ≠ .noFrame) (m : Machine) :
    (m.faultWith fault).Consistent limits where
  faulted_iff := ⟨fun _ => rfl, fun _ => rfl⟩
  faulted _ := ⟨rfl, rfl, rfl, rfl, fun h => hfault (Option.some.inj h)⟩
  halted h := by cases h
  ongoing h := by rcases h with h | h <;> cases h

/-- A machine that stops at a breakpoint holds what it held before. -/
theorem stopAtBreakpoint (h : m.Consistent limits) : m.stopAtBreakpoint.Consistent limits := by
  rcases m.stopAtBreakpoint_eq with heq | ⟨hrunning, heq⟩
  · rw [heq]
    exact h
  · have hongoing := h.ongoing (.inl hrunning)
    rw [heq]
    exact ⟨by simp [hongoing.2.2.2], nofun, nofun, fun _ => hongoing⟩

/-- Pauses and breakpoints do not count. -/
theorem of_bare (h : m.bare.Consistent limits) : m.Consistent limits := by
  by_cases hm : m.status = .paused
  · have hrunning : m.bare.status = .running := if_pos hm
    have hongoing := h.ongoing (.inl hrunning)
    exact ⟨by simp [hm, show m.fault = none from hongoing.2.2.2], by simp [hm], by simp [hm], fun _ => hongoing⟩
  · rw [bare_of_ne_paused hm] at h
    exact ⟨h.faulted_iff, h.faulted, h.halted, h.ongoing⟩

/-- Every advance of a running machine restores what belongs to its new status. -/
theorem advance (setting : Setting) (hlive : m.Live) (hm : m.status = .running) (h : m.Consistent setting.limits) :
    (m.advance setting).Consistent setting.limits := by
  obtain ⟨hframes, hdepth, hresults, hfault⟩ := h.ongoing (.inl hm)
  have hadmits : (CallScope.ofScripts setting.limits fun _ => True).Admits setting := ⟨rfl, fun _ _ _ => trivial⟩
  have hscope : (CallScope.ofScripts setting.limits fun _ => True).HoldsCalls .anywhere m.calls :=
    CallScope.holdsCalls_ofScripts.2 ⟨hframes, hdepth, fun _ _ => trivial⟩
  -- a step says how many frames it leaves, and if it fails, that it was not for want of one
  have hleaves := step_confined hadmits hscope fun _ _ => trivial
  have hkept {n : Machine} (hstep : step setting m = .ok () n) : n.fault = none := (fault_of_step hstep).trans hfault
  rcases hlive.advance_cases setting hm with
    ⟨n, hstep, hrunning, hframes, hn⟩ | ⟨n, hstep, hhalted, hn⟩ | ⟨fault, n, hstep, hn⟩
  · rw [hstep] at hleaves
    have hdepth := (CallScope.holdsCalls_ofScripts.1 (hleaves.1.resolve_left hframes)).2.1
    have hnone : n.results = [] := by
      obtain ⟨frame, rest, i, size, p, gas, -, -, -, -, -, hexecute, -⟩ := step_eq_ok.1 hstep
      exact (Instruction.results_of_execute hexecute (by rw [hrunning]; decide)).trans hresults
    rw [hn]
    exact (of_running hrunning hframes hdepth hnone (hkept hstep)).stopAtBreakpoint
  · rw [hn]
    -- the check of the number of items came after the last frame was gone, and passed
    refine of_halted hhalted ?_ (hkept hstep)
    rcases frames_of_step hstep with ⟨hsame, -⟩ | ⟨-, hnil⟩
    · rw [hhalted, hm] at hsame
      cases hsame
    · exact hnil
  · rw [hstep] at hleaves
    rw [hn]
    exact of_faultWith hleaves n

end Consistent

/-- A machine that was just loaded holds what a running machine does. -/
theorem consistent_of_load {limits : Limits} {script : Bytes} {entry : Nat} {arguments : List Item} {heap : Heap}
    (h : load limits script entry arguments (initial limits heap) = .ok () start) : start.Consistent limits := by
  obtain ⟨hm, -⟩ := load_eq_ok h
  have hcalls : (CallScope.ofScripts limits fun _ => True).HoldsCalls .anywhere start.calls :=
    holds_of_load_ofScripts trivial h
  obtain ⟨hframes, hdepth, -⟩ := CallScope.holdsCalls_ofScripts.1 hcalls
  have hrunning : start.status = .running ∧ start.results = [] ∧ start.fault = none := by
    rw [hm]
    exact ⟨rfl, rfl, rfl⟩
  exact .of_running hrunning.1 hframes hdepth hrunning.2.1 hrunning.2.2

/-- What a machine holds goes with its status after any number of steps. -/
theorem Steps.consistent {script : Bytes} {entry k : Nat} {arguments : List Item} {heap : Heap}
    (hrun : Steps setting k start m.bare)
    (hload : load setting.limits script entry arguments (initial setting.limits heap) = .ok () start) :
    m.Consistent setting.limits :=
  .of_bare (hrun.keeps (fun _ => Consistent.advance setting) (fresh_of_load hload).1 (consistent_of_load hload)).2

/-- However a loaded machine is driven, what it holds goes with its status, and no fault of it is the lack of a
frame. -/
theorem consistent_of_debug {script : Bytes} {entry : Nat} {arguments : List Item} {heap : Heap}
    {calls : List DebugCall}
    (hload : load setting.limits script entry arguments (initial setting.limits heap) = .ok () start)
    (hdebug : start.debug setting calls = some m) : m.Consistent setting.limits := by
  obtain ⟨-, k, hrun⟩ := steps_of_driven hload hdebug
  exact hrun.consistent hload

/-- A script that calls its fourth byte has two frames after one step, and faults where there may be one alone. -/
theorem call_adds_frame : (∃ m, (ofScript {} [0x65, 3, 0, 0x51]).debug Setting.blank [.stepInto] = some m ∧
      m.status = .paused ∧ m.calls.frames.length = 2 ∧ m.Consistent {}) ∧
    ∃ m, (ofScript { callDepth := 1 } [0x65, 3, 0, 0x51]).debug
        { Setting.blank with limits := { callDepth := 1 } } [.stepInto] = some m ∧
      m.status = .faulted ∧ m.fault = some (.callDepth 1) ∧ m.Consistent { callDepth := 1 } := by
  constructor
  · have hends : ((ofScript {} [0x65, 3, 0, 0x51]).debug Setting.blank [.stepInto]).map
        (fun m => (m.status, m.calls.frames.length)) = some (.paused, 2) := by
      decide +kernel
    obtain ⟨m, hdebug, hm⟩ := Option.map_eq_some_iff.1 hends
    obtain ⟨hstatus, hdepth⟩ := Prod.mk.inj hm
    have hload := load_ofScript [0x65, 3, 0, 0x51] (show 0 < Setting.blank.limits.callDepth by decide)
    exact ⟨m, hdebug, hstatus, hdepth, consistent_of_debug hload hdebug⟩
  · have hends : ((ofScript { callDepth := 1 } [0x65, 3, 0, 0x51]).debug
        { Setting.blank with limits := { callDepth := 1 } } [.stepInto]).map
          (fun m => (m.status, m.fault)) = some (.faulted, some (.callDepth 1)) := by
      decide +kernel
    obtain ⟨m, hdebug, hm⟩ := Option.map_eq_some_iff.1 hends
    obtain ⟨hstatus, hfault⟩ := Prod.mk.inj hm
    have hload := load_ofScript [0x65, 3, 0, 0x51] (show 0 < ({ callDepth := 1 } : Limits).callDepth by decide)
    exact ⟨m, hdebug, hstatus, hfault, consistent_of_debug hload hdebug⟩

end Machine
end LedgerVM
