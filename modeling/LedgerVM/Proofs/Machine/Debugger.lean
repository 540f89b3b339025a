import LedgerVM.Proofs.Machine.Run

/-!
# Debugging does not change a run

A debugger drives a machine by a sequence of calls: it lets it run to a breakpoint, steps into, over and out of
calls, and sets and takes away breakpoints.  Apart from the pauses and the breakpoints themselves (`bare`) every
such sequence makes the run that the machine makes when left alone, so it ends where that ends
(`debugging_is_transparent`).
-/

namespace LedgerVM

/-- A call of the debugger.  Those that run a script carry the number of instructions after which it is given
up. -/
inductive DebugCall where
  | execute (fuel : Nat)
  | stepInto
  | stepOver (fuel : Nat)
  | stepOut (fuel : Nat)
  | addBreakpoint (location : Location)
  | removeBreakpoint (location : Location)

namespace DebugCall

/-- What a machine is after a call, if the call ends. -/
def run (setting : Setting) (m : Machine) : DebugCall → Option Machine
  | execute fuel => m.execute setting fuel
  | stepInto => some (m.stepInto setting)
  | stepOver fuel => m.stepOver setting fuel
  | stepOut fuel => m.stepOut setting fuel
  | addBreakpoint location => some (m.addBreakpoint location)
  | removeBreakpoint location => some (m.removeBreakpoint location)

/-- The call drives the machine. -/
def Drives : DebugCall → Prop
  | execute _ | stepInto | stepOver _ | stepOut _ => True
  | addBreakpoint _ | removeBreakpoint _ => False

/-- The call, given up only after so many instructions. -/
def within (fuel : Nat) : DebugCall → DebugCall
  | execute _ => execute fuel
  | stepInto => stepInto
  | stepOver _ => stepOver fuel
  | stepOut _ => stepOut fuel
  | addBreakpoint location => addBreakpoint location
  | removeBreakpoint location => removeBreakpoint location

end DebugCall

namespace Machine

variable {setting : Setting} {m n last : Machine}

/-- What a machine is after a sequence of calls, if each of them ends. -/
def debug (setting : Setting) (m : Machine) (calls : List DebugCall) : Option Machine :=
  calls.foldlM (DebugCall.run setting) m

theorem debug_execute (setting : Setting) (m : Machine) (fuel : Nat) :
    m.debug setting [.execute fuel] = m.execute setting fuel :=
  List.foldlM_cons.trans (bind_pure _)

/-! ### Machines without breakpoints -/

/-- The machine without its breakpoints and not paused at one. -/
def bare (m : Machine) : Machine :=
  { m with
    status := if m.status = .paused then .running else m.status
    breakpoints := [] }

theorem bare_of_ne_paused (hm : m.status ≠ .paused) : m.bare = m.withBreakpoints [] := by
  unfold bare withBreakpoints
  rw [if_neg hm]

theorem bare_of_terminal (hm : m.status.isTerminal) : m.bare = m.withBreakpoints [] := by
  refine bare_of_ne_paused fun hpaused => ?_
  rw [hpaused] at hm
  exact absurd hm (by decide)

theorem bare_pause (m : Machine) : m.pause.bare = m.bare := by
  unfold pause
  split
  · rename_i hm
    unfold bare
    simp [hm]
  · rfl

theorem bare_resume (hm : m.status.isTerminal = false) : m.resume.bare = m.bare := by
  unfold resume bare
  cases hstatus : m.status with
  | running | paused => simp
  | halted | faulted =>
    rw [hstatus] at hm
    exact absurd hm (by decide)

theorem bare_stopAtBreakpoint (m : Machine) : m.stopAtBreakpoint.bare = m.bare := by
  rcases m.stopAtBreakpoint_eq with heq | ⟨hm, heq⟩
  · rw [heq]
  · rw [heq]
    unfold bare
    simp [hm]

/-- An advance without breakpoints and pauses is the advance with them, but for these. -/
theorem bare_advance (setting : Setting) (hlive : m.Live) (hm : m.status = .running) :
    (m.advance setting).bare = m.bare.advance setting := by
  have hframes := hlive.frames_ne_nil hm
  have hbare : m.bare = m.withBreakpoints [] := bare_of_ne_paused (by rw [hm]; decide)
  rw [hbare, advance_eq (m := m.withBreakpoints []) setting hframes, step_commutes setting [] m]
  rcases hlive.advance_cases setting hm with
    ⟨n, hstep, hrunning, -, hn⟩ | ⟨n, hstep, hhalted, hn⟩ | ⟨fault, n, hstep, hn⟩
  · -- the one machine may pause where the other goes on
    rw [hn, hstep, bare_stopAtBreakpoint, bare_of_ne_paused (by rw [hrunning]; decide)]
    exact (stopAtBreakpoint_of_nil rfl).symm
  · rw [hn, hstep, bare_of_ne_paused (by rw [hhalted]; decide)]
    exact (stopAtBreakpoint_of_nil rfl).symm
  · rw [hn, hstep, bare_of_terminal rfl]
    rfl

/-- A run with breakpoints is a run without them. -/
theorem Steps.bare {k : Nat} (h : Steps setting k m last) (hlive : m.Live) : Steps setting k m.bare last.bare := by
  induction h with
  | refl => exact .refl _
  | cons hm _ ih =>
    refine .cons ?_ ?_
    · unfold Machine.bare
      simp [hm]
    · rw [← bare_advance setting hlive hm]
      exact ih (hlive.advance setting hm)

/-- A loop comes back within the instructions after which the machine left alone is over, whatever it waits for:
breakpoints and its condition can only stop it earlier. -/
theorem Steps.runWhile_returns {k fuel : Nat} (hrun : Steps setting k m.bare last) (go : Machine → Bool)
    (hlast : last.status ≠ .running) (hlive : m.Live) (hfuel : k ≤ fuel) :
    ∃ n, runWhile setting go fuel m = some n := by
  induction k generalizing m fuel with
  | zero =>
    cases hrun
    refine ⟨m, runWhile_of_stopped setting fuel fun hgo => hlast ?_⟩
    simp [Machine.bare, hgo.1]
  | succ k ih =>
    by_cases hgo : m.status = .running ∧ go m
    · obtain ⟨fuel, rfl⟩ : ∃ more, fuel = more + 1 := ⟨fuel - 1, by omega⟩
      rw [runWhile_succ setting fuel hgo]
      cases hrun with
      | cons _ hrun =>
        rw [← bare_advance setting hlive hgo.1] at hrun
        exact ih hrun (hlive.advance setting hgo.1) (Nat.le_of_succ_le_succ hfuel)
    · exact ⟨m, runWhile_of_stopped setting fuel hgo⟩

/-! ### Calls of the debugger -/

theorem Live.resume (hlive : m.Live) (hm : m.status.isTerminal = false) : m.resume.Live := fun _ => hlive hm

theorem Live.pause (hlive : m.Live) : m.pause.Live := by
  unfold Machine.pause
  split
  · rename_i hm
    exact fun _ => hlive (by rw [hm]; rfl)
  · exact hlive

theorem steps_pause (m : Machine) : m.pause.steps = m.steps := by
  unfold pause
  split <;> rfl

theorem status_pause_of_faulted (hm : m.status = .faulted) : m.pause.status = .faulted := by
  unfold pause
  rw [hm]
  exact hm

end Machine

namespace DebugCall

open Machine

variable {setting : Setting} {m n : Machine} {call : DebugCall}

/-- A call that drives a machine which is over gives it back, with any fuel. -/
theorem run_of_terminal (hdrives : call.Drives) (hm : m.status.isTerminal) : call.run setting m = some m := by
  cases call with
  | execute fuel => exact if_pos hm
  | stepInto => exact congrArg some (if_pos hm)
  | stepOver fuel => exact if_pos hm
  | stepOut fuel => exact if_pos hm
  | addBreakpoint location | removeBreakpoint location => exact hdrives.elim

/-- A call that drives a machine which can go on makes a run of at least one step, and may pause after it. -/
theorem run_of_not_terminal (hdrives : call.Drives) (hm : m.status.isTerminal = false)
    (h : call.run setting m = some n) :
    ∃ k last, 0 < k ∧ Steps setting k m.resume last ∧ (n = last ∨ n = last.pause) := by
  have hgoes : ¬m.status.isTerminal = true := by simp [hm]
  cases call with
  | execute fuel =>
    change m.execute setting fuel = some n at h
    rw [Machine.execute, if_neg hgoes] at h
    obtain ⟨k, -, hrun, hstop⟩ := runWhile_eq_some h
    -- the resumed machine is running, so the loop has not stopped at once
    cases hrun with
    | refl => exact absurd ⟨rfl, rfl⟩ hstop
    | cons hrunning hrun => exact ⟨_, n, Nat.succ_pos _, .cons hrunning hrun, .inl rfl⟩
  | stepInto =>
    change some (m.stepInto setting) = some n at h
    rw [Machine.stepInto, if_neg hgoes] at h
    cases h
    exact ⟨1, _, Nat.one_pos, .cons rfl (.refl _), .inr rfl⟩
  | stepOver fuel =>
    change m.stepOver setting fuel = some n at h
    rw [Machine.stepOver, if_neg hgoes] at h
    obtain ⟨last, hloop, rfl⟩ := Option.map_eq_some_iff.1 h
    obtain ⟨k, -, hrun, -⟩ := runWhile_eq_some hloop
    exact ⟨k + 1, last, Nat.succ_pos _, .cons rfl hrun, .inr rfl⟩
  | stepOut fuel =>
    change m.stepOut setting fuel = some n at h
    rw [Machine.stepOut, if_neg hgoes] at h
    obtain ⟨last, hloop, rfl⟩ := Option.map_eq_some_iff.1 h
    obtain ⟨k, -, hrun, hstop⟩ := runWhile_eq_some hloop
    -- the resumed machine is running at the depth it started from, so the loop has not stopped at once
    cases hrun with
    | refl => exact absurd ⟨rfl, decide_eq_true (Nat.le_refl m.depth)⟩ hstop
    | cons hrunning hrun => exact ⟨_, last, Nat.succ_pos _, .cons hrunning hrun, .inr rfl⟩
  | addBreakpoint location | removeBreakpoint location => exact hdrives.elim

/-- A call comes back within the instructions after which the machine left alone is over. -/
theorem run_returns {k fuel : Nat} {last : Machine} (call : DebugCall) (hlive : m.Live)
    (hrun : Steps setting k m.bare last) (hlast : last.status ≠ .running) (hfuel : k ≤ fuel) :
    ∃ n, (call.within fuel).run setting m = some n := by
  cases hm : m.status.isTerminal with
  | true =>
    cases call with
    | execute _ | stepInto | stepOver _ | stepOut _ => exact ⟨m, run_of_terminal trivial hm⟩
    | addBreakpoint location => exact ⟨m.addBreakpoint location, rfl⟩
    | removeBreakpoint location => exact ⟨m.removeBreakpoint location, rfl⟩
  | false =>
    have hgoes : ¬m.status.isTerminal = true := by simp [hm]
    have hresumed := hlive.resume hm
    rw [← bare_resume hm] at hrun
    cases call with
    | execute _ =>
      obtain ⟨n, hloop⟩ := hrun.runWhile_returns (fun _ => true) hlast hresumed hfuel
      exact ⟨n, (if_neg hgoes).trans hloop⟩
    | stepInto => exact ⟨m.stepInto setting, rfl⟩
    | stepOver _ =>
      cases hrun with
      | refl => exact absurd rfl hlast
      | cons _ hrun =>
        -- the loop starts after the first instruction
        rw [← bare_advance setting hresumed rfl] at hrun
        obtain ⟨n, hloop⟩ := hrun.runWhile_returns (m.depth < ·.depth) hlast (hresumed.advance setting rfl)
          (Nat.le_of_succ_le hfuel)
        exact ⟨n.pause, (if_neg hgoes).trans (congrArg (Option.map Machine.pause) hloop)⟩
    | stepOut _ =>
      obtain ⟨n, hloop⟩ := hrun.runWhile_returns (m.depth ≤ ·.depth) hlast hresumed hfuel
      exact ⟨n.pause, (if_neg hgoes).trans (congrArg (Option.map Machine.pause) hloop)⟩
    | addBreakpoint location => exact ⟨m.addBreakpoint location, rfl⟩
    | removeBreakpoint location => exact ⟨m.removeBreakpoint location, rfl⟩

/-- A call that drives a machine which can go on takes it further along its run. -/
theorem steps_of_drives (hdrives : call.Drives) (hm : m.status.isTerminal = false) (hlive : m.Live)
    (h : call.run setting m = some n) :
    n.Live ∧ ∃ k, 0 < k ∧ Steps setting k m.bare n.bare ∧ (n.status = .faulted ∨ n.steps = m.steps + k) := by
  obtain ⟨k, last, hk, hrun, hn⟩ := run_of_not_terminal hdrives hm h
  have hbare := hrun.bare (hlive.resume hm)
  rw [bare_resume hm] at hbare
  have hlast := hrun.live (hlive.resume hm)
  have hcount : last.status = .faulted ∨ last.steps = m.steps + k := hrun.steps_eq (hlive.resume hm)
  rcases hn with rfl | rfl
  · exact ⟨hlast, k, hk, hbare, hcount⟩
  · rw [bare_pause, steps_pause]
    exact ⟨hlast.pause, k, hk, hbare, hcount.imp_left status_pause_of_faulted⟩

/-- No call leaves the run of a machine. -/
theorem steps_of_run (hlive : m.Live) (h : call.run setting m = some n) :
    n.Live ∧ ∃ k, Steps setting k m.bare n.bare := by
  have hdriven (hdrives : call.Drives) : n.Live ∧ ∃ k, Steps setting k m.bare n.bare := by
    cases hm : m.status.isTerminal with
    | true =>
      rw [run_of_terminal hdrives hm] at h
      cases h
      exact ⟨hlive, 0, .refl _⟩
    | false =>
      obtain ⟨hn, k, -, hrun, -⟩ := steps_of_drives hdrives hm hlive h
      exact ⟨hn, k, hrun⟩
  cases call with
  | execute _ | stepInto | stepOver _ | stepOut _ => exact hdriven trivial
  | addBreakpoint location =>
    cases h
    unfold Machine.addBreakpoint
    split
    · exact ⟨hlive, 0, .refl _⟩
    · exact ⟨hlive, 0, .refl _⟩
  | removeBreakpoint location =>
    cases h
    exact ⟨hlive, 0, .refl _⟩

end DebugCall

namespace Machine

variable {setting : Setting} {m start : Machine}

/-- A sequence of calls makes one run. -/
theorem steps_of_debug {calls : List DebugCall} (hlive : start.Live) (h : start.debug setting calls = some m) :
    m.Live ∧ ∃ k, Steps setting k start.bare m.bare := by
  induction calls generalizing start with
  | nil =>
    cases h
    exact ⟨hlive, 0, .refl _⟩
  | cons call calls ih =>
    rw [debug, List.foldlM_cons] at h
    obtain ⟨n, hcall, hrest⟩ := Option.bind_eq_some_iff.1 h
    obtain ⟨hn, j, hfirst⟩ := DebugCall.steps_of_run hlive hcall
    obtain ⟨hm, k, hrun⟩ := ih hn hrest
    exact ⟨hm, j + k, hfirst.trans hrun⟩

/-- A loaded machine that was driven is at a point of the run that it makes when left alone. -/
theorem steps_of_driven {script : Bytes} {entry : Nat} {arguments : List Item} {heap : Heap} {calls : List DebugCall}
    (hload : load setting.limits script entry arguments (initial setting.limits heap) = .ok () start)
    (hdebug : start.debug setting calls = some m) : m.Live ∧ ∃ k, Steps setting k start m.bare := by
  obtain ⟨hlive, hrunning, hbreakpoints, -⟩ := fresh_of_load hload
  have hfresh : start.bare = start := by
    rw [bare_of_ne_paused (by rw [hrunning]; decide), withBreakpoints, ← hbreakpoints]
  have hdriven := steps_of_debug hlive hdebug
  rwa [hfresh] at hdriven

/-- However a loaded machine is driven, it is at a point of the run that it makes when left alone; if it is over,
it is what that run ends in, but for the breakpoints.  Every call that drives it takes it further along that run
if it can go on, changes nothing if it cannot, and comes back within the instructions after which that run is
over. -/
theorem debugging_is_transparent {script : Bytes} {entry : Nat} {arguments : List Item} {heap : Heap}
    {calls : List DebugCall}
    (hload : load setting.limits script entry arguments (initial setting.limits heap) = .ok () start)
    (hdebug : start.debug setting calls = some m) :
    (∃ k, Steps setting k start m.bare) ∧
    (m.status.isTerminal →
      ∃ least, ∀ fuel, least ≤ fuel → start.execute setting fuel = some (m.withBreakpoints [])) ∧
    ∀ call : DebugCall, call.Drives →
      (m.status.isTerminal → call.run setting m = some m) ∧
      (¬m.status.isTerminal → ∀ n, call.run setting m = some n →
        ∃ k, 0 < k ∧ Steps setting k m.bare n.bare ∧ (n.status = .faulted ∨ n.steps = m.steps + k)) ∧
      ∀ fuel ended, start.execute setting fuel = some ended → ∃ n, (call.within fuel).run setting m = some n := by
  obtain ⟨-, hrunning, -⟩ := fresh_of_load hload
  obtain ⟨hm, k, hrun⟩ := steps_of_driven hload hdebug
  refine ⟨⟨k, hrun⟩, fun hover => ⟨k, fun fuel hfuel => ?_⟩, fun call hdrives => ⟨?_, ?_, ?_⟩⟩
  · have hstop : m.bare.status ≠ .running := by
      rw [bare_of_terminal hover]
      intro hgoes
      have hgoes : m.status = .running := hgoes
      rw [hgoes] at hover
      exact absurd hover (by decide)
    rw [execute_of_running hrunning, ← bare_of_terminal hover]
    exact hrun.runWhile_eq hstop fuel hfuel
  · exact DebugCall.run_of_terminal hdrives
  · intro hgoes n hcall
    obtain ⟨-, further⟩ := DebugCall.steps_of_drives hdrives (by simpa using hgoes) hm hcall
    exact further
  · intro fuel ended hends
    rw [execute_of_running hrunning] at hends
    obtain ⟨j, hj, hall, hstop⟩ := runWhile_eq_some hends
    have hended : ended.status ≠ .running := fun h => hstop ⟨h, rfl⟩
    obtain ⟨i, hi, hrest⟩ := hrun.rest hall hended
    exact DebugCall.run_returns call hm hrest hended (by omega)

/-- Two pushes and a return, stopped before the second push, from where any call comes back within three instructions;
then stepped and resumed. -/
theorem pausing_leaves_no_trace :
    (∃ m, (ofScript {} [0x51, 0x52, 0x66]).debug Setting.blank
        [.addBreakpoint (Hashing.hash160 [0x51, 0x52, 0x66], 1), .execute 8] = some m ∧ m.status = .paused ∧
      ∀ call : DebugCall, call.Drives → ∃ n, (call.within 3).run Setting.blank m = some n) ∧
    ∃ m, (ofScript {} [0x51, 0x52, 0x66]).debug Setting.blank
        [.addBreakpoint (Hashing.hash160 [0x51, 0x52, 0x66], 1), .execute 8, .stepInto, .execute 8] = some m ∧
      m.status = .halted ∧ m.steps = 3 ∧ ∃ least, ∀ fuel, least ≤ fuel →
        (ofScript {} [0x51, 0x52, 0x66]).execute Setting.blank fuel = some (m.withBreakpoints []) := by
  have hload := load_ofScript [0x51, 0x52, 0x66] (show 0 < Setting.blank.limits.callDepth by decide)
  constructor
  · have hpauses : ((ofScript {} [0x51, 0x52, 0x66]).debug Setting.blank
        [.addBreakpoint (Hashing.hash160 [0x51, 0x52, 0x66], 1), .execute 8]).map Machine.status = some .paused := by
      decide +kernel
    have hends : ((ofScript {} [0x51, 0x52, 0x66]).execute Setting.blank 3).isSome = true := by
      decide +kernel
    obtain ⟨m, hdebug, hstatus⟩ := Option.map_eq_some_iff.1 hpauses
    obtain ⟨ended, hended⟩ := Option.isSome_iff_exists.1 hends
    obtain ⟨-, -, hcalls⟩ := debugging_is_transparent hload hdebug
    exact ⟨m, hdebug, hstatus, fun call hdrives => (hcalls call hdrives).2.2 3 ended hended⟩
  · have hends : ((ofScript {} [0x51, 0x52, 0x66]).debug Setting.blank
        [.addBreakpoint (Hashing.hash160 [0x51, 0x52, 0x66], 1), .execute 8, .stepInto, .execute 8]).map
          (fun m => (m.status, m.steps)) = some (.halted, 3) := by
      decide +kernel
    obtain ⟨m, hdebug, hm⟩ := Option.map_eq_some_iff.1 hends
    obtain ⟨hstatus, hsteps⟩ := Prod.mk.inj hm
    obtain ⟨-, hover, -⟩ := debugging_is_transparent hload hdebug
    exact ⟨m, hdebug, hstatus, hsteps, hover (by rw [hstatus]; rfl)⟩

end Machine
end LedgerVM
