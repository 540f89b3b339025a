import LedgerVM.Proofs.Machine.Consistency
import LedgerVM.Proofs.Machine.Transfer

/-!
# Evaluation stacks are handed over as a whole

A frame that is not executing has nothing on its evaluation stack: whoever transfers control gives the whole stack away.
So the frame that control goes to has what its predecessor had and nothing else, and what the outermost frame leaves is
the result of the run (`Machine.stacks_handed_over`).
-/

namespace LedgerVM

namespace CallStack

variable {c d : CallStack} {frame : Frame} {rest : List Frame} {i : Instruction}

/-- Every frame but the executing one has an empty evaluation stack. -/
def Idle (c : CallStack) : Prop := ∀ f ∈ c.frames.tail, f.stack = []

/-- The evaluation stack of the executing frame. -/
def stack? (c : CallStack) : Option (List Item) := c.frames.head?.map Frame.stack

theorem stack?_of_frames (hframes : c.frames = frame :: rest) : c.stack? = some frame.stack := by
  rw [stack?, hframes]
  rfl

/-- Whatever an instruction does with the frames, it leaves no items on the stack of one that is not executing. -/
theorem Moves.idle (h : c.Moves frame rest i d) (hrest : ∀ f ∈ rest, f.stack = []) : d.Idle := by
  have hbelow : ∀ f ∈ { frame with stack := [] } :: rest, f.stack = [] := by
    intro f hf
    rcases List.mem_cons.1 hf with rfl | hf
    · rfl
    · exact hrest f hf
  cases h with
  | call pointer => exact hbelow
  | appCall code htarget => exact hbelow
  | tailCall code htarget => exact hrest
  | @ret caller below hcaller =>
    rw [hcaller] at hrest
    exact fun f hf => hrest f (List.mem_cons_of_mem caller hf)
  | halt hnone => exact nofun
  | service stack hheap => exact hrest
  | stay hi hframes hscript hstatics hsize hslots =>
    intro f hf
    rw [hframes] at hf
    exact hrest f hf

theorem Moves.stack_of_call {offset : Int} (h : c.Moves frame rest (.call offset) d) :
    d.stack? = some frame.stack ∧ d.heap = c.heap := by
  cases h with
  | call pointer => exact ⟨rfl, rfl⟩
  | stay hi => cases hi

theorem Moves.stack_of_appCall {target : Hash160} {tail : Bool} (h : c.Moves frame rest (.appCall target tail) d) :
    (∃ hash stack, d.executing? = some hash ∧ d.stack? = some stack ∧ TakesTarget target hash frame.stack stack) ∧
      d.heap = c.heap := by
  cases h with
  | appCall code htarget | tailCall code htarget => exact ⟨⟨_, _, rfl, rfl, htarget⟩, rfl⟩
  | stay hi => cases hi

theorem Moves.stack_of_ret {caller : Frame} {below : List Frame} (h : c.Moves frame (caller :: below) .ret d)
    (hcaller : caller.stack = []) : d.stack? = some frame.stack ∧ d.heap = c.heap := by
  cases h with
  | ret hrest =>
    cases hrest
    simp [stack?, hcaller]
  | halt hrest => cases hrest
  | stay hi => cases hi

end CallStack

namespace Machine

variable {setting : Setting} {m n start : Machine}

theorem Consistent.results_of_frames {limits : Limits} (h : m.Consistent limits) (hframes : m.calls.frames ≠ []) :
    m.results = [] := by
  cases hm : m.status with
  | running => exact (h.ongoing (.inl hm)).2.2.1
  | paused => exact (h.ongoing (.inr hm)).2.2.1
  | halted => exact absurd (h.halted hm).1 hframes
  | faulted => exact (h.faulted hm).2.1

theorem idle_advance (hlive : m.Live) (hm : m.status = .running) (hidle : m.calls.Idle) :
    (m.advance setting).calls.Idle := by
  obtain ⟨frame, rest, hframes⟩ := List.exists_cons_of_ne_nil (hlive.frames_ne_nil hm)
  have hrest : ∀ f ∈ rest, f.stack = [] := by
    rw [CallStack.Idle, hframes] at hidle
    exact hidle
  rcases hlive.advance_eq_step setting hm with ⟨n, status, hstep, hn⟩ | ⟨fault, n, -, hn⟩
  · rw [hn]
    obtain ⟨i, size, -, hmoves⟩ := moves_of_step hframes hstep
    exact hmoves.idle hrest
  · rw [hn]
    exact nofun

theorem idle_of_debug {script : Bytes} {entry : Nat} {arguments : List Item} {heap : Heap} {calls : List DebugCall}
    (hload : load setting.limits script entry arguments (initial setting.limits heap) = .ok () start)
    (hdebug : start.debug setting calls = some m) : m.calls.Idle := by
  obtain ⟨frame, hframes, -, -⟩ := frames_of_load hload
  have hstart : start.calls.Idle := by
    rw [CallStack.Idle, hframes]
    exact nofun
  obtain ⟨-, k, hrun⟩ := steps_of_driven hload hdebug
  have hkept := hrun.keeps (P := fun m => m.calls.Idle) (fun _ => idle_advance) (fresh_of_load hload).1 hstart
  exact hkept.2

/-- The results of a machine that halts are those it had and the stack of the frame that returned, bottom first. -/
theorem results_of_ret {frame : Frame} (hframes : m.calls.frames = [frame]) (hret : m.next? = some .ret)
    (h : step setting m = .ok () n) :
    n.status = .halted ∧ n.results = m.results ++ frame.stack.reverse ∧ n.calls.heap = m.calls.heap := by
  obtain ⟨frame', rest', size, hframes', hnext⟩ := next?_eq_some.1 hret
  obtain ⟨frame'', rest'', i, size', p, gas, hframes'', hi, -, -, -, hexecute, -⟩ := step_eq_ok.1 h
  rw [hframes] at hframes' hframes''
  cases hframes'
  cases hframes''
  rw [hnext] at hi
  cases hi
  rcases MachineAction.ret_eq_ok hexecute with ⟨top, htop, rfl⟩ | ⟨top, caller, below, htop, rfl⟩
  · cases htop
    exact ⟨rfl, rfl, rfl⟩
  · cases htop

/-- However a machine is driven, frames that are not executing have empty evaluation stacks.  So a call, the call of a
contract and a return to a caller hand the stack of the executing frame over as it is, but for the hash of the contract
if that was on top, and the last return leaves that stack as the result, bottom first. -/
theorem stacks_handed_over {script : Bytes} {entry : Nat} {arguments : List Item} {heap : Heap} {calls : List DebugCall}
    (hload : load setting.limits script entry arguments (initial setting.limits heap) = .ok () start)
    (hdebug : start.debug setting calls = some m) :
    (∀ f ∈ m.calls.frames.tail, f.stack = []) ∧
    ∀ frame rest n, m.calls.frames = frame :: rest → step setting m = .ok () n →
      (∀ offset, m.next? = some (.call offset) → n.calls.stack? = some frame.stack ∧ n.calls.heap = m.calls.heap) ∧
      (∀ target tail, m.next? = some (.appCall target tail) →
        (∃ hash stack, n.calls.executing? = some hash ∧ n.calls.stack? = some stack ∧
          TakesTarget target hash frame.stack stack) ∧ n.calls.heap = m.calls.heap) ∧
      (m.next? = some .ret → rest ≠ [] → n.calls.stack? = some frame.stack ∧ n.calls.heap = m.calls.heap) ∧
      (m.next? = some .ret → rest = [] →
        n.status = .halted ∧ n.results = frame.stack.reverse ∧ n.calls.heap = m.calls.heap) := by
  have hidle := idle_of_debug hload hdebug
  refine ⟨hidle, fun frame rest n hframes hstep => ?_⟩
  obtain ⟨i, size, hi, hmoves⟩ := moves_of_step hframes hstep
  have hnext := next?_eq_some.2 ⟨frame, rest, size, hframes, hi⟩
  refine ⟨?_, ?_, ?_, ?_⟩
  · intro offset hcall
    cases hnext.symm.trans hcall
    exact hmoves.stack_of_call
  · intro target tail hcall
    cases hnext.symm.trans hcall
    exact hmoves.stack_of_appCall
  · intro hret hrest
    cases hnext.symm.trans hret
    obtain ⟨caller, below, rfl⟩ := List.exists_cons_of_ne_nil hrest
    refine hmoves.stack_of_ret (hidle caller ?_)
    rw [hframes]
    exact List.mem_cons_self
  · rintro hret rfl
    obtain ⟨hhalted, hresults, hheap⟩ := results_of_ret hframes hret hstep
    obtain ⟨-, k, hrun⟩ := steps_of_driven hload hdebug
    have hnone := (hrun.consistent hload).results_of_frames (by rw [hframes]; exact List.cons_ne_nil _ _)
    rw [hnone, List.nil_append] at hresults
    exact ⟨hhalted, hresults, hheap⟩

/-- A script that pushes two numbers and calls its own end: the numbers are handed to the callee, and back on its
return. -/
theorem callee_gives_back : ∃ m n,
    (ofScript {} [0x51, 0x52, 0x65, 3, 0]).debug Setting.blank [.stepInto, .stepInto, .stepInto] = some m ∧
      m.calls.frames.length = 2 ∧ (∀ f ∈ m.calls.frames.tail, f.stack = []) ∧
      step Setting.blank m = .ok () n ∧ n.calls.frames.length = 1 ∧ n.calls.stack? = m.calls.stack? ∧
      (m.calls.stack?.getD []).map Item.encoding? = [some [2], some [1]] := by
  have hends : ((ofScript {} [0x51, 0x52, 0x65, 3, 0]).debug Setting.blank [.stepInto, .stepInto, .stepInto]).map
      (fun m => (m.calls.frames.length, m.next?,
        (Action.left? (step Setting.blank m)).map fun n => n.calls.frames.length)) = some (2, some .ret, some 1) := by
    decide +kernel
  have hstack : ((ofScript {} [0x51, 0x52, 0x65, 3, 0]).debug Setting.blank [.stepInto, .stepInto, .stepInto]).map
      (fun m => (m.calls.stack?.getD []).map Item.encoding?) = some [some [2], some [1]] := by
    decide +kernel
  obtain ⟨m, hdebug, hm⟩ := Option.map_eq_some_iff.1 hends
  obtain ⟨hdepth, hm⟩ := Prod.mk.inj hm
  obtain ⟨hret, hreturned⟩ := Prod.mk.inj hm
  rw [hdebug] at hstack
  have hload := load_ofScript [0x51, 0x52, 0x65, 3, 0] (show 0 < Setting.blank.limits.callDepth by decide)
  obtain ⟨hidle, htransfers⟩ := stacks_handed_over hload hdebug
  obtain ⟨n, hleft, hlength⟩ := Option.map_eq_some_iff.1 hreturned
  obtain ⟨_, hstep⟩ := Action.left?_eq_some.1 hleft
  cases hframes : m.calls.frames with
  | nil =>
    rw [hframes] at hdepth
    cases hdepth
  | cons frame rest =>
    obtain ⟨-, -, hback, -⟩ := htransfers frame rest n hframes hstep
    have hcaller : rest ≠ [] := by
      rintro rfl
      rw [hframes] at hdepth
      cases hdepth
    have hsame := CallStack.stack?_of_frames hframes
    rw [hframes] at hdepth hidle
    exact ⟨m, n, hdebug, hframes ▸ hdepth, hframes ▸ hidle, hstep, hlength, hsame ▸ (hback hret hcaller).1,
      Option.some.inj hstack⟩

end Machine
end LedgerVM
