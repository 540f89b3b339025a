import LedgerVM.Proofs.Machine.Debugger
import LedgerVM.Proofs.Machine.Lineage

/-!
# Frames are isolated from each other

An instruction reaches the executing frame and no other, but for a return, which adds to the evaluation stack of the
caller.  Only the two instructions that write static variables change a static slot, that of the executing frame.  A
service changes the evaluation stack of that frame, and no collection.  And frames share a static slot only if one
called the other within its script, or calls within that script lead from one to the other
(`Machine.frames_isolated`).
-/

namespace LedgerVM

namespace CallStack

variable {c d : CallStack} {frame : Frame} {rest : List Frame} {i : Instruction}

/-- The frames below the executing one are left alone by all but the return. -/
theorem Moves.below (h : c.Moves frame rest i d) (hi : i ≠ .ret) : ∃ above, above ≠ [] ∧ d.frames = above ++ rest := by
  cases h with
  | call pointer | appCall code htarget => exact ⟨[_, _], List.cons_ne_nil _ _, rfl⟩
  | tailCall code htarget | service stack hheap => exact ⟨[_], List.cons_ne_nil _ _, rfl⟩
  | ret hrest | halt hrest => exact absurd rfl hi
  | stay hlocal hframes => exact ⟨[_], List.cons_ne_nil _ _, hframes⟩

/-- A return changes the evaluation stack of the caller and nothing else. -/
theorem Moves.below_ret (h : c.Moves frame rest .ret d) : (rest = [] ∧ d.frames = []) ∨
    ∃ caller below, rest = caller :: below ∧
      d.frames = { caller with stack := frame.stack ++ caller.stack } :: below := by
  cases h with
  | @ret caller below hrest => exact .inr ⟨caller, below, hrest, rfl⟩
  | halt hrest => exact .inl ⟨hrest, rfl⟩
  | stay hlocal => cases hlocal

/-- A static slot is changed by the instructions that write static variables alone, and only if it is the executing
frame's. -/
theorem Moves.statics (h : c.Moves frame rest i d) {ref : Nat} (href : ref < c.statics.size)
    (hne : d.statics[ref]? ≠ c.statics[ref]?) : i.writesStatics = true ∧ ref = frame.statics := by
  cases h with
  | call pointer | ret hrest | halt hrest | service stack hheap => exact absurd rfl hne
  | appCall code htarget | tailCall code htarget =>
    rw [Array.getElem?_push_lt href, Array.getElem?_eq_getElem href] at hne
    exact absurd rfl hne
  | stay hlocal hframes hscript hstatics hsize hslots => exact hslots ref hne

theorem Moves.of_service {id : UInt32} (h : c.Moves frame rest (.syscall id) d) :
    ∃ stack, d.frames = { frame with stack } :: rest ∧ d.statics = c.statics ∧ c.heap.KeptIn d.heap := by
  cases h with
  | service stack hheap => exact ⟨stack, rfl, rfl, hheap⟩
  | stay hlocal => cases hlocal

end CallStack

namespace Machine

variable {setting : Setting} {m start : Machine} {script : Bytes} {entry : Nat} {arguments : List Item} {heap : Heap}
  {calls : List DebugCall}

theorem describes_of_load
    (hload : load setting.limits script entry arguments (initial setting.limits heap) = .ok () start) :
    Lineage.root.Describes (fun _ => 0) start.calls := by
  obtain ⟨frame, hframes, hstatics, hsize⟩ := frames_of_load hload
  constructor
  · rw [hframes, List.map_cons, hstatics]
    rfl
  · intro a ha
    rw [List.mem_singleton.1 ha]
    exact Nat.zero_lt_one
  · nofun
  · intro a b ha hb _
    rw [Nat.lt_one_iff.1 ha, Nat.lt_one_iff.1 hb]
    exact .refl 0
  · intro _ a _
    rw [hsize]
    exact Nat.zero_lt_one

/-- However a machine is driven, an instruction that succeeds leaves the frames below the executing one as they are, but
for a return, which adds to the evaluation stack of the caller.  A static slot is changed by the instructions that write
static variables of a frame that has it.  A service changes the evaluation stack of the executing frame, and no
collection.  At every point of the run, frames have one static slot if they are kin, and only then. -/
theorem frames_isolated
    (hload : load setting.limits script entry arguments (initial setting.limits heap) = .ok () start)
    (hdebug : start.debug setting calls = some m) :
    (∀ frame rest i size n, m.calls.frames = frame :: rest →
      decode frame.script.bytes frame.pointer = .ok (i, size) → step setting m = .ok () n →
      (i ≠ .ret → ∃ above, above ≠ [] ∧ n.calls.frames = above ++ rest) ∧
      (i = .ret → (rest = [] ∧ n.calls.frames = []) ∨ ∃ caller below, rest = caller :: below ∧
        n.calls.frames = { caller with stack := frame.stack ++ caller.stack } :: below) ∧
      (∀ ref, ref < m.calls.statics.size → n.calls.statics[ref]? ≠ m.calls.statics[ref]? →
        i.writesStatics = true ∧ ref = frame.statics) ∧
      (∀ id, i = .syscall id → ∃ stack,
        n.calls.frames = { frame with pointer := frame.pointer + size, stack } :: rest ∧
        n.calls.statics = m.calls.statics ∧ m.calls.heap.KeptIn n.calls.heap)) ∧
    ∃ k, Steps setting k start m.bare ∧ ∃ cell : Nat → Nat,
      (∀ j n, j ≤ k → Steps setting j start n →
        n.calls.frames.map Frame.statics = (lineage setting j start .root).alive.map cell) ∧
      ∀ a b, a < (lineage setting k start .root).born → b < (lineage setting k start .root).born →
        (cell a = cell b ↔ (lineage setting k start .root).Kin a b) := by
  constructor
  · intro frame rest i size n hframes hi hstep
    obtain ⟨i', size', hi', hmoves⟩ := moves_of_step hframes hstep
    rw [hi] at hi'
    cases hi'
    refine ⟨hmoves.below, ?_, fun ref => hmoves.statics, ?_⟩
    · rintro rfl
      exact hmoves.below_ret
    · rintro id rfl
      exact hmoves.of_service
  · obtain ⟨-, k, hrun⟩ := steps_of_driven hload hdebug
    obtain ⟨cell, -, hdescribes, hprefix⟩ := hrun.lineage (fresh_of_load hload).1 (describes_of_load hload)
    exact ⟨k, hrun, cell, hprefix, fun a b => hdescribes.cell_eq_iff⟩

/-- A setting with one deployed contract, whose script sets up a static variable. -/
def deployed : Setting :=
  { Setting.blank with
    ledger := .available (Chain.empty.deployContract
      { scriptHash := ⟨List.replicate 20 1, rfl⟩, script := [0xD0, 1], parameters := [], returnType := 0,
        properties := ⟨0⟩, name := "" }) }

/-- A script that calls its fourth byte, and there the contract. -/
def nestedCalls : Bytes := [0x65, 3, 0, 0x67] ++ List.replicate 20 1

/-- The two frames of one script share a static slot.  The contract has another, and sets it up without a change to the
frames below. -/
theorem contract_has_own_slot : ∃ m n,
    (ofScript deployed.limits nestedCalls).debug deployed [.stepInto, .stepInto] = some m ∧
      m.calls.frames.map Frame.statics = [1, 0, 0] ∧
      (lineage deployed 2 (ofScript deployed.limits nestedCalls) .root).alive = [2, 1, 0] ∧
      (lineage deployed 2 (ofScript deployed.limits nestedCalls) .root).Kin 0 1 ∧
      ¬(lineage deployed 2 (ofScript deployed.limits nestedCalls) .root).Kin 0 2 ∧
      step deployed m = .ok () n ∧ n.calls.frames.tail = m.calls.frames.tail := by
  have hends : ((ofScript deployed.limits nestedCalls).debug deployed [.stepInto, .stepInto]).map
      (fun m => (m.calls.frames.map Frame.statics, m.next?,
        (Action.left? (step deployed m)).map fun n => n.calls.frames.length)) =
      some ([1, 0, 0], some (.initStatic 1), some 3) := by
    decide +kernel
  have hcount : ((ofScript deployed.limits nestedCalls).debug deployed [.stepInto, .stepInto]).map
      (fun m => (m.steps, m.status)) = some (2, .paused) := by
    decide +kernel
  have halive : (lineage deployed 2 (ofScript deployed.limits nestedCalls) .root).alive = [2, 1, 0] := by
    decide +kernel
  have hborn : (lineage deployed 2 (ofScript deployed.limits nestedCalls) .root).born = 3 := by
    decide +kernel
  obtain ⟨m, hdebug, hm⟩ := Option.map_eq_some_iff.1 hends
  obtain ⟨hslots, hm⟩ := Prod.mk.inj hm
  obtain ⟨hnext, hlength⟩ := Prod.mk.inj hm
  rw [hdebug] at hcount
  obtain ⟨hsteps, hpaused⟩ := Prod.mk.inj (Option.some.inj hcount)
  have hload := load_ofScript nestedCalls (show 0 < deployed.limits.callDepth by decide)
  obtain ⟨hframe, k, hrun, cell, hcells, hkin⟩ := frames_isolated hload hdebug
  have hbare : m.bare.status = .running := if_pos hpaused
  have hk : k = 2 := by
    rcases hrun.steps_eq (fresh_of_load hload).1 with hfault | hk
    · rw [hbare] at hfault
      cases hfault
    · have hsum : m.steps = 0 + k := hk
      omega
  subst hk
  -- the frames 0 and 1 have the slot 0, and the frame 2 has the slot 1
  have hgiven : m.calls.frames.map Frame.statics = [2, 1, 0].map cell := halive ▸ hcells 2 m.bare (Nat.le_refl 2) hrun
  rw [hslots] at hgiven
  simp only [List.map_cons, List.map_nil, List.cons.injEq, and_true] at hgiven
  obtain ⟨htwo, hone, hzero⟩ := hgiven
  rw [hborn] at hkin
  have hrelated := (hkin 0 1 (by decide) (by decide)).1 (hzero.symm.trans hone)
  have hunrelated : ¬(lineage deployed 2 (ofScript deployed.limits nestedCalls) .root).Kin 0 2 := by
    intro hrel
    have hsame := (hkin 0 2 (by decide) (by decide)).2 hrel
    rw [← hzero, ← htwo] at hsame
    cases hsame
  obtain ⟨n, hleft, hthree⟩ := Option.map_eq_some_iff.1 hlength
  obtain ⟨_, hstep⟩ := Action.left?_eq_some.1 hleft
  obtain ⟨frame, rest, size, hframes, hi⟩ := next?_eq_some.1 hnext
  obtain ⟨above, -, hbelow⟩ := (hframe frame rest _ size n hframes hi hstep).1 (by decide)
  have hrest : rest.length = 2 := by
    have hslots := congrArg List.length hslots
    rw [hframes] at hslots
    simpa using hslots
  have hsum : n.calls.frames.length = above.length + rest.length := by rw [hbelow, List.length_append]
  obtain ⟨top, rfl⟩ := List.length_eq_one_iff.1 (show above.length = 1 by omega)
  refine ⟨m, n, hdebug, hslots, halive, hrelated, hunrelated, hstep, ?_⟩
  rw [hbelow, hframes]
  rfl

end Machine
end LedgerVM
