import LedgerVM.Machine.Step

/-!
# Running a machine

A machine runs to its end or to a breakpoint, or takes single steps, over calls or out of the
executing frame.  How long a script runs is not bounded from the outside, so every run carries fuel:
the number of instructions after which it is given up, with `none` as its answer.

* `Machine.runWhile`: the loop behind all of them.
* `Machine.runWhile_mono`: more fuel keeps an answer.
* `Machine.execute`, `Machine.stepInto`, `Machine.stepOver`, `Machine.stepOut`.
-/

namespace LedgerVM.Machine

/-- Lets a paused machine go on. -/
def resume (m : Machine) : Machine := { m with status := .running }

/-- Pauses a machine that could go on. -/
def pause (m : Machine) : Machine := if m.status = .running then { m with status := .paused } else m

/-- The number of frames. -/
def depth (m : Machine) : Nat := m.calls.frames.length

/-- Executes instructions while the machine is running and `go` holds of it. -/
def runWhile (setting : Setting) (go : Machine → Bool) : (fuel : Nat) → Machine → Option Machine
  | fuel, m =>
    if m.status = .running ∧ go m then
      match fuel with
      | 0 => none
      | fuel + 1 => runWhile setting go fuel (m.advance setting)
    else some m

theorem runWhile_of_stopped (setting : Setting) {go : Machine → Bool} {m : Machine} (fuel : Nat)
    (h : ¬(m.status = .running ∧ go m)) : runWhile setting go fuel m = some m := by
  unfold runWhile
  exact if_neg h

theorem runWhile_succ (setting : Setting) {go : Machine → Bool} {m : Machine} (fuel : Nat)
    (h : m.status = .running ∧ go m) :
    runWhile setting go (fuel + 1) m = runWhile setting go fuel (m.advance setting) := by
  rw [runWhile]
  exact if_pos h

/-- More fuel keeps an answer. -/
theorem runWhile_mono (setting : Setting) {go : Machine → Bool} {fuel more : Nat} {m last : Machine}
    (hle : fuel ≤ more) (h : runWhile setting go fuel m = some last) :
    runWhile setting go more m = some last := by
  induction fuel generalizing m more with
  | zero =>
    by_cases hm : m.status = .running ∧ go m
    · simp [runWhile, hm] at h
    · rw [runWhile_of_stopped setting _ hm] at h ⊢
      exact h
  | succ fuel ih =>
    by_cases hm : m.status = .running ∧ go m
    · obtain ⟨more, rfl⟩ : ∃ n, more = n + 1 := ⟨more - 1, by omega⟩
      rw [runWhile_succ setting _ hm] at h ⊢
      exact ih (Nat.le_of_succ_le_succ hle) h
    · rw [runWhile_of_stopped setting _ hm] at h ⊢
      exact h

/-- Runs to the end or to a breakpoint. -/
def execute (setting : Setting) (fuel : Nat) (m : Machine) : Option Machine :=
  if m.status.isTerminal then some m else runWhile setting (fun _ => true) fuel m.resume

/-- Executes one instruction and pauses. -/
def stepInto (setting : Setting) (m : Machine) : Machine :=
  if m.status.isTerminal then m else (m.resume.advance setting).pause

/-- Executes one instruction and goes on until control is back at the depth of calls it started
from. -/
def stepOver (setting : Setting) (fuel : Nat) (m : Machine) : Option Machine :=
  if m.status.isTerminal then some m
  else (runWhile setting (m.depth < ·.depth) fuel (m.resume.advance setting)).map pause

/-- Runs until the executing frame has returned. -/
def stepOut (setting : Setting) (fuel : Nat) (m : Machine) : Option Machine :=
  if m.status.isTerminal then some m
  else (runWhile setting (m.depth ≤ ·.depth) fuel m.resume).map pause

end LedgerVM.Machine
