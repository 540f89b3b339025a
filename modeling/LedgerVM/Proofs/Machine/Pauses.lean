import LedgerVM.Proofs.Machine.Termination
import Mathlib.Logic.Function.Iterate

/-!
# Where a machine is paused

A call that lets a machine run looks at it between instructions.  From the first of these moments on it goes on until
the next instruction is at a breakpoint, until the depth of calls is the one it waits for, or until the run is over
(`RunCall.EndsAfter`), and this is where it ends, neither earlier nor later (`Machine.pauses_exact`).  The instruction
that the machine stands at when the call is made is executed even at a breakpoint.
-/

namespace LedgerVM

/-- A call of the debugger that may execute any number of instructions. -/
inductive RunCall where
  | execute
  | stepOver
  | stepOut

namespace RunCall

/-- The call with the number of instructions after which the run is given up. -/
def call (fuel : Nat) : RunCall → DebugCall
  | execute => .execute fuel
  | stepOver => .stepOver fuel
  | stepOut => .stepOut fuel

/-- A call that was made at one depth waits for the other. -/
def Awaits (start depth : Nat) : RunCall → Prop
  | execute => False
  | stepOver => depth ≤ start
  | stepOut => depth < start

/-- A call made on the one machine pauses it when it has become the other: at a breakpoint, or at a depth it waits
for. -/
def Stops (c : RunCall) (m n : Machine) : Prop :=
  (∃ location ∈ m.breakpoints, n.location? = some location) ∨ c.Awaits m.depth n.depth

/-- A call made on the one machine ends when it has become the other: where it pauses it, or with the run. -/
def Ends (c : RunCall) (m n : Machine) : Prop := n.status.isTerminal ∨ c.Stops m n

end RunCall

namespace Machine

variable {setting : Setting} {m n : Machine} {fuel j k : Nat} {c : RunCall}

/-- The machine after a number of instructions from where it stands. -/
def moment (setting : Setting) (m : Machine) (k : Nat) : Machine := (advance setting)^[k] m.resume

theorem moment_succ (setting : Setting) (m : Machine) (k : Nat) :
    m.moment setting (k + 1) = (m.moment setting k).advance setting :=
  Function.iterate_succ_apply' _ _ _

end Machine

/-- A number of instructions, at least one, is the least after which a call is to end. -/
structure RunCall.EndsAfter (setting : Setting) (c : RunCall) (m : Machine) (k : Nat) : Prop where
  pos : 0 < k
  before : ∀ j, 0 < j → j < k → ¬c.Ends m (m.moment setting j)
  there : c.Ends m (m.moment setting k)

namespace Machine

variable {setting : Setting} {m n : Machine} {fuel j k : Nat} {c : RunCall}

/-! ### Moments of a run -/

theorem stopAtBreakpoint_cases (hm : m.status = .running) :
    m.AtBreakpoint ∧ m.stopAtBreakpoint = { m with status := .paused } ∨
      ¬m.AtBreakpoint ∧ m.stopAtBreakpoint = m := by
  have hany (location : Location) : m.breakpoints.any (· = location) = true ↔ location ∈ m.breakpoints := by
    simp
  unfold stopAtBreakpoint AtBreakpoint
  rw [hm]
  cases hlocation : m.location? with
  | none => exact .inr ⟨by simp, rfl⟩
  | some location =>
    by_cases hmem : location ∈ m.breakpoints
    · exact .inl ⟨⟨location, hmem, rfl⟩, if_pos ((hany location).2 hmem)⟩
    · refine .inr ⟨?_, if_neg (mt (hany location).1 hmem)⟩
      rintro ⟨found, hfound, heq⟩
      cases heq
      exact hmem hfound

/-- A running machine that advances and can still go on has the breakpoints it had, and is paused at them and nowhere
else. -/
theorem Live.advance_pauses (setting : Setting) (hlive : m.Live) (hm : m.status = .running) :
    (m.advance setting).status.isTerminal ∨
      (m.advance setting).breakpoints = m.breakpoints ∧
        ((m.advance setting).status = .paused ∧ (m.advance setting).AtBreakpoint ∨
          (m.advance setting).status = .running ∧ ¬(m.advance setting).AtBreakpoint) := by
  rcases hlive.advance_cases setting hm with ⟨n, hstep, hrunning, -, hn⟩ | ⟨n, -, hhalted, hn⟩ | ⟨fault, n, -, hn⟩
  · right
    rw [hn, ← (book_of_step hstep).2]
    rcases stopAtBreakpoint_cases hrunning with ⟨hat, heq⟩ | ⟨hat, heq⟩
    · rw [heq]
      exact ⟨rfl, .inl ⟨rfl, hat⟩⟩
    · rw [heq]
      exact ⟨rfl, .inr ⟨hrunning, hat⟩⟩
  · left
    rw [hn, hhalted]
    rfl
  · left
    rw [hn]
    rfl

/-- As long as a machine runs, it is live and has the breakpoints it had. -/
theorem moment_steady (hframes : m.calls.frames ≠ [])
    (hrunning : ∀ i, 0 < i → i ≤ k → (m.moment setting i).status = .running) :
    (m.moment setting k).Live ∧ (m.moment setting k).status = .running ∧
      (m.moment setting k).breakpoints = m.breakpoints := by
  induction k with
  | zero => exact ⟨fun _ => hframes, rfl, rfl⟩
  | succ k ih =>
    obtain ⟨hlive, hm, hbreakpoints⟩ := ih fun i hi hik => hrunning i hi (Nat.le_succ_of_le hik)
    have hnext := hrunning (k + 1) (Nat.succ_pos k) le_rfl
    rw [moment_succ] at hnext ⊢
    refine ⟨hlive.advance setting hm, hnext, ?_⟩
    rcases hlive.advance_pauses setting hm with hover | ⟨hsame, -⟩
    · rw [hnext] at hover
      cases hover
    · exact hsame.trans hbreakpoints

/-- As long as a machine runs, it is at no breakpoint between instructions; where it first does not, it is at one or
the run is over. -/
theorem moment_pauses (hframes : m.calls.frames ≠ []) (hk : 0 < k)
    (hrunning : ∀ i, 0 < i → i < k → (m.moment setting i).status = .running) :
    (m.moment setting k).status.isTerminal ∨
      (m.moment setting k).status = .paused ∧ (∃ l ∈ m.breakpoints, (m.moment setting k).location? = some l) ∨
      (m.moment setting k).status = .running ∧ ¬∃ l ∈ m.breakpoints, (m.moment setting k).location? = some l := by
  obtain ⟨k, rfl⟩ : ∃ i, k = i + 1 := ⟨k - 1, by omega⟩
  obtain ⟨hlive, hm, hbreakpoints⟩ := moment_steady hframes fun i hi hik => hrunning i hi (Nat.lt_succ_of_le hik)
  rw [moment_succ, ← hbreakpoints]
  rcases hlive.advance_pauses setting hm with hover | ⟨hsame, hpauses⟩
  · exact .inl hover
  · rw [← hsame]
    exact .inr hpauses

/-! ### Loops -/

private theorem runWhile_eq_some_iff_of_stopped {go : Machine → Bool} (hm : ¬(m.status = .running ∧ go m)) :
    runWhile setting go fuel m = some n ↔ ∃ k ≤ fuel, n = (advance setting)^[k] m ∧
      (∀ j < k, ((advance setting)^[j] m).status = .running ∧ go ((advance setting)^[j] m)) ∧
      ¬(n.status = .running ∧ go n) := by
  rw [runWhile_of_stopped setting fuel hm]
  constructor
  · intro h
    cases h
    exact ⟨0, Nat.zero_le _, rfl, nofun, hm⟩
  · rintro ⟨k, -, hn, hbefore, -⟩
    cases k with
    | zero => rw [hn]; rfl
    | succ k => exact absurd (hbefore 0 (Nat.succ_pos k)) hm

/-- A loop ends at the first machine on its way that is not running or fails its condition. -/
theorem runWhile_eq_some_iff {go : Machine → Bool} :
    runWhile setting go fuel m = some n ↔ ∃ k ≤ fuel, n = (advance setting)^[k] m ∧
      (∀ j < k, ((advance setting)^[j] m).status = .running ∧ go ((advance setting)^[j] m)) ∧
      ¬(n.status = .running ∧ go n) := by
  induction fuel generalizing m with
  | zero =>
    by_cases hm : m.status = .running ∧ go m
    · constructor
      · intro h
        simp [runWhile, hm] at h
      · rintro ⟨k, hk, hn, -, hthere⟩
        obtain rfl : k = 0 := Nat.le_zero.1 hk
        exact absurd (hn ▸ hm) hthere
    · exact runWhile_eq_some_iff_of_stopped hm
  | succ fuel ih =>
    by_cases hm : m.status = .running ∧ go m
    · rw [runWhile_succ setting _ hm, ih]
      constructor
      · rintro ⟨k, hk, hn, hbefore, hthere⟩
        refine ⟨k + 1, Nat.succ_le_succ hk, hn, fun j hj => ?_, hthere⟩
        cases j with
        | zero => exact hm
        | succ j => exact hbefore j (Nat.lt_of_succ_lt_succ hj)
      · rintro ⟨k, hk, hn, hbefore, hthere⟩
        cases k with
        | zero => exact absurd (hn ▸ hm) hthere
        | succ k =>
          exact ⟨k, Nat.le_of_succ_le_succ hk, hn, fun j hj => hbefore (j + 1) (Nat.succ_lt_succ hj), hthere⟩
    · exact runWhile_eq_some_iff_of_stopped hm

end Machine

/-! ### Calls -/

namespace RunCall

open Machine

variable {setting : Setting} {m n : Machine} {fuel j k : Nat} {c : RunCall}

/-- The condition of the call's loop. -/
def goesOn (start : Nat) (m : Machine) : RunCall → Bool
  | execute => true
  | stepOver => start < m.depth
  | stepOut => start ≤ m.depth

theorem goesOn_iff (c : RunCall) (start : Nat) (m : Machine) : c.goesOn start m = true ↔ ¬c.Awaits start m.depth := by
  cases c with
  | execute => simp [goesOn, Awaits]
  | stepOver => simp [goesOn, Awaits]
  | stepOut => simp [goesOn, Awaits]

/-- A call that does not step over is its loop from the start, and pauses what that leaves. -/
theorem run_eq_loop (hc : c ≠ .stepOver) (hgoes : m.status.isTerminal = false) :
    (c.call fuel).run setting m = (runWhile setting (c.goesOn m.depth) fuel m.resume).map pause := by
  have hnot : ¬m.status.isTerminal = true := by simp [hgoes]
  cases c with
  | execute =>
    show m.execute setting fuel = (runWhile setting (fun _ => true) fuel m.resume).map pause
    rw [Machine.execute, if_neg hnot]
    cases hloop : runWhile setting (fun _ => true) fuel m.resume with
    | none => rfl
    | some last =>
      -- a loop without a condition leaves no machine that is running
      obtain ⟨k, -, -, hstop⟩ := runWhile_eq_some hloop
      have hpause : last.pause = last := if_neg fun hlast => hstop ⟨hlast, rfl⟩
      rw [Option.map_some, hpause]
  | stepOver => exact absurd rfl hc
  | stepOut => exact if_neg hnot

theorem goesOn_resume (hc : c ≠ .stepOver) (m : Machine) :
    m.resume.status = .running ∧ c.goesOn m.depth m.resume = true := by
  cases c with
  | execute => exact ⟨rfl, rfl⟩
  | stepOver => exact absurd rfl hc
  | stepOut => exact ⟨rfl, decide_eq_true (Nat.le_refl m.depth)⟩

/-- After its first instruction a call is its loop, and pauses what that leaves. -/
theorem run_of_loop (hgoes : m.status.isTerminal = false)
    (h : runWhile setting (c.goesOn m.depth) fuel (m.moment setting 1) = some n) :
    (c.call (fuel + 1)).run setting m = some n.pause := by
  by_cases hc : c = .stepOver
  · subst hc
    show m.stepOver setting (fuel + 1) = some n.pause
    rw [Machine.stepOver, if_neg (by simp [hgoes])]
    exact Option.map_eq_some_iff.2 ⟨n, runWhile_mono setting (Nat.le_succ fuel) h, rfl⟩
  · rw [run_eq_loop hc hgoes, runWhile_succ setting fuel (goesOn_resume hc m)]
    exact Option.map_eq_some_iff.2 ⟨n, h, rfl⟩

theorem loop_of_run (hgoes : m.status.isTerminal = false) (h : (c.call fuel).run setting m = some n) :
    ∃ more last, runWhile setting (c.goesOn m.depth) more (m.moment setting 1) = some last ∧ n = last.pause := by
  by_cases hc : c = .stepOver
  · subst hc
    change m.stepOver setting fuel = some n at h
    rw [Machine.stepOver, if_neg (by simp [hgoes])] at h
    obtain ⟨last, hloop, hn⟩ := Option.map_eq_some_iff.1 h
    exact ⟨fuel, last, hloop, hn.symm⟩
  · have hstart := goesOn_resume hc m
    rw [run_eq_loop hc hgoes] at h
    obtain ⟨last, hloop, hn⟩ := Option.map_eq_some_iff.1 h
    cases fuel with
    | zero => simp [runWhile, hstart] at hloop
    | succ fuel =>
      rw [runWhile_succ setting fuel hstart] at hloop
      exact ⟨fuel, last, hloop, hn.symm⟩

/-- The loop from the first moment on, in moments. -/
theorem loop_eq_some_iff {go : Machine → Bool} :
    runWhile setting go fuel (m.moment setting 1) = some n ↔ ∃ k, 0 < k ∧ k ≤ fuel + 1 ∧ n = m.moment setting k ∧
      (∀ j, 0 < j → j < k → (m.moment setting j).status = .running ∧ go (m.moment setting j)) ∧
      ¬(n.status = .running ∧ go n) := by
  have hmoment (k : Nat) : (advance setting)^[k] (m.moment setting 1) = m.moment setting (k + 1) :=
    (Function.iterate_succ_apply _ k _).symm
  rw [runWhile_eq_some_iff]
  simp only [hmoment]
  constructor
  · rintro ⟨k, hk, hn, hbefore, hthere⟩
    refine ⟨k + 1, Nat.succ_pos k, Nat.succ_le_succ hk, hn, fun j hj hjk => ?_, hthere⟩
    obtain ⟨j, rfl⟩ : ∃ i, j = i + 1 := ⟨j - 1, by omega⟩
    exact hbefore j (Nat.lt_of_succ_lt_succ hjk)
  · rintro ⟨k, hpos, hk, hn, hbefore, hthere⟩
    obtain ⟨k, rfl⟩ : ∃ i, k = i + 1 := ⟨k - 1, by omega⟩
    exact ⟨k, Nat.le_of_succ_le_succ hk, hn, fun j hj => hbefore (j + 1) (Nat.succ_pos j) (Nat.succ_lt_succ hj), hthere⟩

/-- A moment that a running machine reaches is one at which the call does not end exactly if it goes on there. -/
theorem goes_on_iff (hframes : m.calls.frames ≠ []) (hk : 0 < k)
    (hbefore : ∀ i, 0 < i → i < k → (m.moment setting i).status = .running) :
    (m.moment setting k).status = .running ∧ c.goesOn m.depth (m.moment setting k) ↔
      ¬c.Ends m (m.moment setting k) := by
  rw [goesOn_iff, Ends, Stops]
  rcases moment_pauses hframes hk hbefore with hover | ⟨hpaused, hat⟩ | ⟨hrunning, hat⟩
  · have hnot : (m.moment setting k).status ≠ .running := by
      intro h
      rw [h] at hover
      cases hover
    simp [hover, hnot]
  · simp [hpaused, hat]
  · simp [hrunning, hat, Status.isTerminal]

/-- A machine runs as long as the call does not end. -/
theorem running_of_not_ends (hframes : m.calls.frames ≠ [])
    (hbefore : ∀ j, 0 < j → j < k → ¬c.Ends m (m.moment setting j)) :
    ∀ j, 0 < j → j < k → (m.moment setting j).status = .running := by
  intro j
  induction j using Nat.strongRecOn with
  | ind j ih =>
    intro hj hjk
    exact ((goes_on_iff hframes hj fun i hi hij => ih i hij hi (hij.trans hjk)).2 (hbefore j hj hjk)).1

/-- A call ends where its loop stops. -/
theorem endsAfter_iff (hframes : m.calls.frames ≠ []) :
    c.EndsAfter setting m k ↔ 0 < k ∧
      (∀ j, 0 < j → j < k → (m.moment setting j).status = .running ∧ c.goesOn m.depth (m.moment setting j)) ∧
      ¬((m.moment setting k).status = .running ∧ c.goesOn m.depth (m.moment setting k)) := by
  constructor
  · rintro ⟨hk, hbefore, hthere⟩
    have hrunning := running_of_not_ends hframes hbefore
    refine ⟨hk, fun j hj hjk => ?_, fun hgo => ?_⟩
    · exact (goes_on_iff hframes hj fun i hi hij => hrunning i hi (hij.trans hjk)).2 (hbefore j hj hjk)
    · exact (goes_on_iff hframes hk hrunning).1 hgo hthere
  · rintro ⟨hk, hbefore, hthere⟩
    have hrunning : ∀ i, 0 < i → i < k → (m.moment setting i).status = .running := fun i hi hik => (hbefore i hi hik).1
    refine ⟨hk, fun j hj hjk => ?_, ?_⟩
    · exact (goes_on_iff hframes hj fun i hi hij => hrunning i hi (hij.trans hjk)).1 (hbefore j hj hjk)
    · by_contra hends
      exact hthere ((goes_on_iff hframes hk hrunning).2 hends)

/-- A call that has not ended the run leaves the machine paused where it stops. -/
theorem EndsAfter.pause (h : c.EndsAfter setting m k) :
    (m.moment setting k).pause.status.isTerminal ∨
      (m.moment setting k).pause.status = .paused ∧ c.Stops m (m.moment setting k).pause := by
  have hsame : c.Stops m (m.moment setting k).pause ↔ c.Stops m (m.moment setting k) := by
    unfold Machine.pause
    split <;> rfl
  have hstatus : (m.moment setting k).pause.status =
      if (m.moment setting k).status = .running then .paused else (m.moment setting k).status := by
    unfold Machine.pause
    split <;> rfl
  rw [hsame, hstatus]
  have hthere : (m.moment setting k).status.isTerminal ∨ c.Stops m (m.moment setting k) := h.there
  cases hm : (m.moment setting k).status with
  | running =>
    rw [hm] at hthere
    exact .inr ⟨rfl, hthere.resolve_left nofun⟩
  | paused =>
    rw [hm] at hthere
    exact .inr ⟨rfl, hthere.resolve_left nofun⟩
  | halted | faulted => exact .inl rfl

end RunCall

namespace Machine

variable {setting : Setting} {m : Machine}

/-- A call that lets a machine run ends at the first moment after its first instruction at which the next instruction
is at a breakpoint, the depth of calls is one it waits for, or the run is over; so up to there no other instruction
was at a breakpoint.  The machine is then paused, or it has halted or faulted.  And the call does end if there is such
a moment. -/
theorem pauses_exact (c : RunCall) (hgoes : m.status.isTerminal = false) (hframes : m.calls.frames ≠ []) :
    (∀ fuel n, (c.call fuel).run setting m = some n →
      (∃ k, c.EndsAfter setting m k ∧ n = (m.moment setting k).pause) ∧
      (n.status.isTerminal ∨ n.status = .paused ∧ c.Stops m n)) ∧
    ∀ k, c.EndsAfter setting m k →
      ∀ fuel, k ≤ fuel → (c.call fuel).run setting m = some (m.moment setting k).pause := by
  constructor
  · intro fuel n h
    obtain ⟨more, last, hloop, rfl⟩ := RunCall.loop_of_run hgoes h
    obtain ⟨k, hk, -, rfl, hbefore, hthere⟩ := RunCall.loop_eq_some_iff.1 hloop
    have hends := (RunCall.endsAfter_iff hframes).2 ⟨hk, hbefore, hthere⟩
    exact ⟨⟨k, hends, rfl⟩, hends.pause⟩
  · intro k hends fuel hfuel
    obtain ⟨hk, hbefore, hthere⟩ := (RunCall.endsAfter_iff hframes).1 hends
    obtain ⟨fuel, rfl⟩ : ∃ i, fuel = i + 1 := ⟨fuel - 1, by omega⟩
    exact RunCall.run_of_loop hgoes (RunCall.loop_eq_some_iff.2 ⟨k, hk, hfuel, rfl, hbefore, hthere⟩)

/-- A script that calls its fourth byte is stepped over in three steps, back to the depth it started at, and in one
step if there is a breakpoint in the call. -/
theorem step_over_ends : ∃ n stopped,
    (ofScript {} [0x65, 3, 0, 0x51]).stepOver Setting.blank 8 = some n ∧
    n.status = .paused ∧ n.depth = 1 ∧ n.steps = 3 ∧
    (∃ k, RunCall.stepOver.EndsAfter Setting.blank (ofScript {} [0x65, 3, 0, 0x51]) k ∧
      n = ((ofScript {} [0x65, 3, 0, 0x51]).moment Setting.blank k).pause) ∧
    ((ofScript {} [0x65, 3, 0, 0x51]).addBreakpoint (Hashing.hash160 [0x65, 3, 0, 0x51], 3)).stepOver Setting.blank 8 =
      some stopped ∧
    stopped.status = .paused ∧ stopped.depth = 2 ∧ stopped.steps = 1 ∧
    RunCall.stepOver.Stops ((ofScript {} [0x65, 3, 0, 0x51]).addBreakpoint (Hashing.hash160 [0x65, 3, 0, 0x51], 3))
      stopped := by
  let start := ofScript {} [0x65, 3, 0, 0x51]
  let watched := start.addBreakpoint (Hashing.hash160 [0x65, 3, 0, 0x51], 3)
  have hover : (start.stepOver Setting.blank 8).map (fun n => (n.status, n.depth, n.steps)) = some (.paused, 1, 3) := by
    decide +kernel
  have hcall : (watched.stepOver Setting.blank 8).map (fun n => (n.status, n.depth, n.steps)) =
      some (.paused, 2, 1) := by
    decide +kernel
  obtain ⟨n, hn, hleft⟩ := Option.map_eq_some_iff.1 hover
  obtain ⟨hstatus, hleft⟩ := Prod.mk.inj hleft
  obtain ⟨hdepth, hsteps⟩ := Prod.mk.inj hleft
  obtain ⟨stopped, hstopped, hleft⟩ := Option.map_eq_some_iff.1 hcall
  obtain ⟨hstatus', hleft⟩ := Prod.mk.inj hleft
  obtain ⟨hdepth', hsteps'⟩ := Prod.mk.inj hleft
  obtain ⟨hends, -⟩ := (pauses_exact .stepOver (m := start) rfl (by decide)).1 8 n hn
  obtain ⟨-, hstops⟩ := (pauses_exact .stepOver (m := watched) rfl (by decide)).1 8 stopped hstopped
  rw [hstatus'] at hstops
  exact ⟨n, stopped, hn, hstatus, hdepth, hsteps, hends, hstopped, hstatus', hdepth', hsteps',
    (hstops.resolve_left nofun).2⟩

end Machine
end LedgerVM
