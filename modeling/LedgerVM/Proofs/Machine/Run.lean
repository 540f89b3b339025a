import LedgerVM.Machine.Run
import LedgerVM.Proofs.Machine.Step

/-!
# Runs

A run is a sequence of advances of a running machine (`Machine.Steps`).  Every loop that drives a machine makes a
run (`runWhile_eq_some`), and a run that ended is what a loop that only ends with the machine makes
(`Steps.runWhile_eq`).

* `Machine.Live`: a machine that can go on has a frame; every advance keeps this (`Live.advance`).
* `Steps.steps_eq`: the machine counts the advances of a run unless it faults.
-/

namespace LedgerVM

namespace Machine

variable {setting : Setting} {m n last : Machine} {j k : Nat}

/-! ### One advance -/

/-- The machine can go on only if it has a frame. -/
def Live (m : Machine) : Prop := m.status.isTerminal = false → m.calls.frames ≠ []

theorem stopAtBreakpoint_eq (m : Machine) :
    m.stopAtBreakpoint = m ∨ m.status = .running ∧ m.stopAtBreakpoint = { m with status := .paused } := by
  unfold stopAtBreakpoint
  split
  · rename_i location hstatus hlocation
    split
    · exact .inr ⟨hstatus, rfl⟩
    · exact .inl rfl
  · exact .inl rfl

theorem stopAtBreakpoint_of_ne_running (hm : m.status ≠ .running) : m.stopAtBreakpoint = m := by
  rcases m.stopAtBreakpoint_eq with heq | ⟨hrunning, -⟩
  · exact heq
  · exact absurd hrunning hm

theorem stopAtBreakpoint_of_nil (hm : m.breakpoints = []) : m.stopAtBreakpoint = m := by
  unfold stopAtBreakpoint
  split
  · rw [hm]
    rfl
  · rfl

@[simp] theorem calls_stopAtBreakpoint (m : Machine) : m.stopAtBreakpoint.calls = m.calls := by
  rcases m.stopAtBreakpoint_eq with heq | ⟨-, heq⟩ <;> rw [heq]

@[simp] theorem steps_stopAtBreakpoint (m : Machine) : m.stopAtBreakpoint.steps = m.steps := by
  rcases m.stopAtBreakpoint_eq with heq | ⟨-, heq⟩ <;> rw [heq]

theorem advance_eq (setting : Setting) (hframes : m.calls.frames ≠ []) :
    m.advance setting =
      match step setting m with
      | .ok _ n => n.stopAtBreakpoint
      | .error fault n => n.faultWith fault := by
  unfold advance
  rw [if_neg (by simpa using hframes), EStateM.run]
  cases step setting m <;> rfl

theorem Live.frames_ne_nil (hlive : m.Live) (hm : m.status = .running) : m.calls.frames ≠ [] :=
  hlive (by rw [hm]; rfl)

/-- A running machine that advances goes on with a frame and may stop at a breakpoint, or halts, or faults. -/
theorem Live.advance_cases (setting : Setting) (hlive : m.Live) (hm : m.status = .running) :
    (∃ n, step setting m = .ok () n ∧ n.status = .running ∧ n.calls.frames ≠ [] ∧
      m.advance setting = n.stopAtBreakpoint) ∨
    (∃ n, step setting m = .ok () n ∧ n.status = .halted ∧ m.advance setting = n) ∨
    ∃ fault n, step setting m = .error fault n ∧ m.advance setting = n.faultWith fault := by
  have hadvance := advance_eq setting (hlive.frames_ne_nil hm)
  cases hstep : step setting m with
  | ok x n =>
    rw [hstep] at hadvance
    rcases frames_of_step hstep with ⟨hsame, hframes⟩ | ⟨hhalted, -⟩
    · exact .inl ⟨n, rfl, hsame.trans hm, hframes, hadvance⟩
    · have hstays := stopAtBreakpoint_of_ne_running (m := n) (by rw [hhalted]; decide)
      exact .inr (.inl ⟨n, rfl, hhalted, hadvance.trans hstays⟩)
  | error fault n =>
    rw [hstep] at hadvance
    exact .inr (.inr ⟨fault, n, rfl, hadvance⟩)

/-- A running machine that advances is what its step leaves, which may have been stopped, or faults. -/
theorem Live.advance_eq_step (setting : Setting) (hlive : m.Live) (hm : m.status = .running) :
    (∃ n status, step setting m = .ok () n ∧ m.advance setting = { n with status }) ∨
    ∃ fault n, step setting m = .error fault n ∧ m.advance setting = n.faultWith fault := by
  rcases hlive.advance_cases setting hm with ⟨n, hstep, -, -, hn⟩ | ⟨n, hstep, -, hn⟩ | hfault
  · rcases n.stopAtBreakpoint_eq with heq | ⟨-, heq⟩
    · exact .inl ⟨n, n.status, hstep, hn.trans heq⟩
    · exact .inl ⟨n, .paused, hstep, hn.trans heq⟩
  · exact .inl ⟨n, n.status, hstep, hn⟩
  · exact .inr hfault

/-- A running machine that advances and can still go on has a frame. -/
theorem Live.advance (setting : Setting) (hlive : m.Live) (hm : m.status = .running) :
    (m.advance setting).Live := by
  rcases hlive.advance_cases setting hm with ⟨n, -, -, hframes, hn⟩ | ⟨n, -, hhalted, hn⟩ | ⟨fault, n, -, hn⟩
  · rw [hn]
    intro _
    rw [calls_stopAtBreakpoint]
    exact hframes
  · rw [hn]
    intro hgoes
    rw [hhalted] at hgoes
    exact absurd hgoes (by decide)
  · rw [hn]
    intro hgoes
    simp [faultWith, Status.isTerminal] at hgoes

/-- An advance counts one step unless the machine faults. -/
theorem steps_advance (setting : Setting) (hlive : m.Live) (hm : m.status = .running) :
    (m.advance setting).status = .faulted ∨ (m.advance setting).steps = m.steps + 1 := by
  rcases hlive.advance_eq_step setting hm with ⟨n, status, hstep, hn⟩ | ⟨fault, n, -, hn⟩
  · right
    rw [hn, (book_of_step hstep).1]
  · left
    rw [hn]
    rfl

/-! ### Runs -/

/-- A number of advances, each of a running machine, lead from one machine to another. -/
inductive Steps (setting : Setting) : Nat → Machine → Machine → Prop
  | refl (m : Machine) : Steps setting 0 m m
  | cons {k : Nat} {m last : Machine} (hm : m.status = .running) (h : Steps setting k (m.advance setting) last) :
      Steps setting (k + 1) m last

namespace Steps

theorem trans (h : Steps setting j m n) (hn : Steps setting k n last) : Steps setting (j + k) m last := by
  induction h with
  | refl => rwa [Nat.zero_add]
  | cons hm _ ih =>
    rw [Nat.add_right_comm]
    exact .cons hm (ih hn)

/-- A machine that is not running takes no step. -/
theorem eq_of_stopped (h : Steps setting k m last) (hm : m.status ≠ .running) : last = m := by
  cases h with
  | refl => rfl
  | cons hrunning _ => exact absurd hrunning hm

/-- A machine on the way to one that does not run has the rest of that way before it. -/
theorem rest (h : Steps setting j m n) (hall : Steps setting k m last) (hlast : last.status ≠ .running) :
    ∃ i, j + i = k ∧ Steps setting i n last := by
  induction h generalizing k with
  | refl => exact ⟨k, Nat.zero_add k, hall⟩
  | cons hm _ ih =>
    cases hall with
    | refl => exact absurd hm hlast
    | cons _ hall =>
      obtain ⟨i, rfl, hrest⟩ := ih hall
      exact ⟨i, Nat.add_right_comm _ 1 i, hrest⟩

/-- Whatever advances keep of live running machines, a run keeps. -/
theorem keeps {P : Machine → Prop} (hP : ∀ m, m.Live → m.status = .running → P m → P (m.advance setting))
    (h : Steps setting k m last) (hlive : m.Live) (hm : P m) : last.Live ∧ P last := by
  induction h with
  | refl => exact ⟨hlive, hm⟩
  | cons hrunning _ ih => exact ih (hlive.advance setting hrunning) (hP _ hlive hrunning hm)

theorem live (h : Steps setting k m last) (hlive : m.Live) : last.Live :=
  (h.keeps (P := fun _ => True) (fun _ _ _ _ => trivial) hlive trivial).1

/-- A machine counts the steps of its run unless it faults. -/
theorem steps_eq (h : Steps setting k m last) (hlive : m.Live) :
    last.status = .faulted ∨ last.steps = m.steps + k := by
  induction h with
  | refl => exact .inr rfl
  | cons hm h ih =>
    rcases ih (hlive.advance setting hm) with hfault | hcount
    · exact .inl hfault
    · rcases steps_advance setting hlive hm with hfault | hone
      · -- the run ends with the fault, whatever it counted before
        have hlast := h.eq_of_stopped (by rw [hfault]; decide)
        rw [hlast]
        exact .inl hfault
      · right
        omega

/-- A loop that goes on as long as the machine does makes a run that ended, given as many steps. -/
theorem runWhile_eq (h : Steps setting k m last) (hlast : last.status ≠ .running) :
    ∀ fuel, k ≤ fuel → runWhile setting (fun _ => true) fuel m = some last := by
  induction h with
  | refl =>
    intro fuel _
    exact runWhile_of_stopped setting fuel fun hgo => hlast hgo.1
  | cons hm _ ih =>
    intro fuel hfuel
    obtain ⟨fuel, rfl⟩ : ∃ more, fuel = more + 1 := ⟨fuel - 1, by omega⟩
    rw [runWhile_succ setting fuel ⟨hm, rfl⟩]
    exact ih hlast fuel (by omega)

end Steps

/-- A loop makes a run, and stops where the machine does or its condition fails. -/
theorem runWhile_eq_some {go : Machine → Bool} {fuel : Nat} (h : runWhile setting go fuel m = some last) :
    ∃ k, k ≤ fuel ∧ Steps setting k m last ∧ ¬(last.status = .running ∧ go last) := by
  induction fuel generalizing m with
  | zero =>
    by_cases hm : m.status = .running ∧ go m
    · simp [runWhile, hm] at h
    · rw [runWhile_of_stopped setting _ hm] at h
      cases h
      exact ⟨0, Nat.zero_le _, .refl _, hm⟩
  | succ fuel ih =>
    by_cases hm : m.status = .running ∧ go m
    · rw [runWhile_succ setting _ hm] at h
      obtain ⟨k, hk, hrun, hstop⟩ := ih h
      exact ⟨k + 1, Nat.succ_le_succ hk, .cons hm.1 hrun, hstop⟩
    · rw [runWhile_of_stopped setting _ hm] at h
      cases h
      exact ⟨0, Nat.zero_le _, .refl _, hm⟩

theorem execute_of_running {fuel : Nat} (hm : m.status = .running) :
    m.execute setting fuel = runWhile setting (fun _ => true) fuel m := by
  have hresume : m.resume = m := by rw [resume, ← hm]
  rw [execute, if_neg (by simp [hm, Status.isTerminal]), hresume]

/-! ### Loading -/

/-- Loading a script touches the call stack alone and leaves a frame on it. -/
theorem load_eq_ok {limits : Limits} {script : Bytes} {entry : Nat} {arguments : List Item}
    (h : load limits script entry arguments m = .ok () n) :
    n = { m with calls := n.calls } ∧ n.calls.frames ≠ [] := by
  obtain ⟨_, p, hscript, h⟩ := Action.bind_eq_ok.1 h
  obtain ⟨c, hc, rfl⟩ := MachineAction.onCalls_eq_ok.1 hscript
  obtain ⟨_, p, hjump, h⟩ := Action.bind_eq_ok.1 h
  obtain ⟨d, hd, rfl⟩ := MachineAction.onCalls_eq_ok.1 hjump
  obtain ⟨e, he, rfl⟩ := MachineAction.onCalls_eq_ok.1 h
  refine ⟨rfl, ?_⟩
  have hpushed : c.frames ≠ [] := by
    obtain ⟨frame, b, -, hpush⟩ := Action.bind_eq_ok.1 hc
    obtain ⟨-, rfl⟩ := CallAction.pushFrame_eq_ok.1 hpush
    exact List.cons_ne_nil _ _
  have hjumped : d.frames ≠ [] := CallAction.Grounded.jump _ c () d hd hpushed
  exact CallAction.Grounded.onTop _ d () e he hjumped

/-- A machine that was just loaded is about to run, without breakpoints and effects. -/
theorem fresh_of_load {limits : Limits} {script : Bytes} {entry : Nat} {arguments : List Item} {heap : Heap}
    (h : load limits script entry arguments (initial limits heap) = .ok () m) :
    m.Live ∧ m.status = .running ∧ m.breakpoints = [] ∧ m.effects = {} := by
  obtain ⟨hm, hframes⟩ := load_eq_ok h
  refine ⟨fun _ => hframes, ?_, ?_, ?_⟩ <;> rw [hm] <;> rfl

/-- The machine that executes a script from its start, without arguments. -/
def ofScript (limits : Limits) (script : Bytes) : Machine :=
  { initial limits {} with
    calls :=
      { frames := [{ script := { bytes := script, hash := Hashing.hash160 script }, statics := 0 }]
        statics := #[none] } }

theorem load_ofScript {limits : Limits} (script : Bytes) (hdepth : 0 < limits.callDepth) :
    load limits script 0 [] (initial limits {}) = .ok () (ofScript limits script) := by
  have hpush : loadScript limits script (initial limits {}) = .ok () (ofScript limits script) := by
    refine MachineAction.onCalls_eq_ok.2 ⟨(ofScript limits script).calls, ?_, rfl⟩
    exact Action.bind_eq_ok.2 ⟨_, _, rfl, CallAction.pushFrame_eq_ok.2 ⟨hdepth, rfl⟩⟩
  -- the script is entered where it begins, and nothing is put on its stack
  have hjump : MachineAction.onCalls (.jump (wrapInt64 0)) (ofScript limits script) =
      .ok () (ofScript limits script) := rfl
  exact Action.bind_eq_ok.2 ⟨⟨⟩, _, hpush, Action.bind_eq_ok.2 ⟨⟨⟩, _, hjump, rfl⟩⟩

end Machine

/-- The setting of an application on an empty ledger and an empty store. -/
def Setting.blank : Setting := { ledger := .available .empty, store := .empty }

end LedgerVM
