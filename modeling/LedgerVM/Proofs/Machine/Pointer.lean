import LedgerVM.Proofs.Machine.Confinement
import LedgerVM.Proofs.Machine.Debugger
import LedgerVM.Proofs.Machine.Transfer
import LedgerVM.Proofs.Script.Listing

/-!
# Where frames stand

Every frame stands in its script or right behind it.  An instruction that is read off the script ends there at the
latest (`decode_inside`), jumps, calls and entry points are checked against the script's end
(`Frame.target_eq_ok`), a called contract begins at its first byte, and a caller goes on where it stood.

* `CallStack.Inside`: every frame stands in its script or right behind it.
* `Instruction.inside_of_execute`: an instruction that succeeds keeps that, whatever it does with the frames.
* `Machine.inside_of_steps`: it holds of every machine that a run leads to.
* `Machine.keeps_to_script`: reading, listing and running a script never look behind its end.
-/

namespace LedgerVM

/-- The frame stands in its script or right behind it. -/
def Frame.Inside (f : Frame) : Prop := f.pointer ≤ f.script.bytes.length

/-- Every frame stands in its script or right behind it. -/
def CallStack.Inside (c : CallStack) : Prop := ∀ f ∈ c.frames, f.Inside

theorem CallStack.inside_of_eq_cons {c : CallStack} {top : Frame} {rest : List Frame} (hframes : c.frames = top :: rest)
    (htop : top.Inside) (hrest : ∀ f ∈ rest, f.Inside) : c.Inside := by
  intro f hf
  rw [hframes] at hf
  rcases List.mem_cons.1 hf with rfl | hf
  · exact htop
  · exact hrest f hf

/-! ### Targets -/

theorem Frame.target_eq_ok {f : Frame} {target : Int} {pointer : Nat} :
    f.target target = .ok pointer ↔ target = pointer ∧ pointer ≤ f.script.bytes.length := by
  unfold Frame.target
  split
  · constructor
    · intro h
      cases h
    · rintro ⟨rfl, hle⟩
      omega
  · constructor
    · intro h
      cases h
      omega
    · rintro ⟨rfl, -⟩
      rfl

namespace CallAction

theorem jump_eq_ok {target : Int} {c d : CallStack} :
    jump target c = .ok () d ↔ ∃ frame rest pointer, c.frames = frame :: rest ∧ frame.target target = .ok pointer ∧
      d = { c with frames := { frame with pointer } :: rest } := by
  constructor
  · intro h
    obtain ⟨frame, p, htop, hjump⟩ := Action.bind_eq_ok.1 h
    obtain ⟨rest, hframes, rfl⟩ := top_eq_ok.1 htop
    obtain ⟨pointer, q, htarget, hset⟩ := Action.bind_eq_ok.1 hjump
    obtain ⟨hvalid, rfl⟩ := Action.ofExcept_eq_ok.1 htarget
    obtain ⟨frame', rest', hframes', rfl⟩ := setTop_eq_ok.1 hset
    rw [hframes] at hframes'
    cases hframes'
    exact ⟨frame, rest, pointer, hframes, hvalid, rfl⟩
  · rintro ⟨frame, rest, pointer, hframes, htarget, rfl⟩
    refine Action.bind_eq_ok.2 ⟨frame, c, top_eq_ok.2 ⟨rest, hframes, rfl⟩, ?_⟩
    refine Action.bind_eq_ok.2 ⟨pointer, c, Action.ofExcept_eq_ok.2 ⟨htarget, rfl⟩, ?_⟩
    exact setTop_eq_ok.2 ⟨frame, rest, hframes, rfl⟩

theorem inside_of_jump {target : Int} {c d : CallStack} (hc : c.Inside) (h : jump target c = .ok () d) : d.Inside := by
  obtain ⟨frame, rest, pointer, hframes, htarget, rfl⟩ := jump_eq_ok.1 h
  refine CallStack.inside_of_eq_cons rfl (Frame.target_eq_ok.1 htarget).2 fun f hf => hc f ?_
  rw [hframes]
  exact List.mem_cons_of_mem frame hf

theorem inside_of_onTop {α : Type} {operation : Operation α} {x : α} {c d : CallStack} (hc : c.Inside)
    (h : onTop operation c = .ok x d) : d.Inside := by
  obtain ⟨frame, rest, w, hframes, -, rfl⟩ := onTop_eq_ok.1 h
  have hall : ∀ f ∈ frame :: rest, f.Inside := hframes ▸ hc
  have hframe : frame.Inside := hall frame List.mem_cons_self
  exact CallStack.inside_of_eq_cons rfl hframe fun f hf => hall f (List.mem_cons_of_mem frame hf)

end CallAction

/-! ### Instructions -/

namespace Instruction

variable {setting : Setting} {position : Nat} {i : Instruction} {m n : Machine} {frame : Frame} {rest : List Frame}

/-- An instruction that does not transfer control leaves the executing frame where it stands. -/
theorem pointer_of_execute (hi : i.transfers = false) (hframes : m.calls.frames = frame :: rest)
    (h : i.execute setting position m = .ok () n) :
    ∃ top others, n.calls.frames = top :: others ∧ top.script = frame.script ∧ top.pointer = frame.pointer := by
  -- the place is confined in a scope that holds whatever the machine does
  let limits : Limits := { callDepth := m.calls.frames.length }
  let here : Place := fun script pointer => script = frame.script ∧ pointer = frame.pointer
  have hany : (CallScope.ofScripts limits fun _ => True).HoldsCalls .anywhere m.calls :=
    CallScope.holdsCalls_ofScripts.2 ⟨by rw [hframes]; exact List.cons_ne_nil _ _, Nat.le_refl _, fun _ _ => trivial⟩
  have hhere : (CallScope.ofScripts limits fun _ => True).HoldsCalls here m.calls :=
    { hany with top := ⟨frame, rest, hframes, rfl, rfl⟩ }
  exact ((i.execute_straight (fun _ _ _ => trivial) position hi).of_ok hhere h).1.top

theorem inside_of_call {limits : Limits} {target : Int} (hm : m.calls.Inside)
    (h : MachineAction.call limits target m = .ok () n) : n.calls.Inside := by
  obtain ⟨c, hc, rfl⟩ := MachineAction.onCalls_eq_ok.1 h
  obtain ⟨frame, p, htop, hcall⟩ := Action.bind_eq_ok.1 hc
  obtain ⟨rest, hframes, rfl⟩ := CallAction.top_eq_ok.1 htop
  obtain ⟨pointer, p, htarget, hcall⟩ := Action.bind_eq_ok.1 hcall
  obtain ⟨hvalid, rfl⟩ := Action.ofExcept_eq_ok.1 htarget
  obtain ⟨stack, p, htake, hpush⟩ := Action.bind_eq_ok.1 hcall
  obtain ⟨frame', rest', hframes', rfl, rfl⟩ := CallAction.takeStack_eq_ok.1 htake
  rw [hframes] at hframes'
  cases hframes'
  obtain ⟨-, rfl⟩ := CallAction.pushFrame_eq_ok.1 hpush
  have hall : ∀ f ∈ frame :: rest, f.Inside := hframes ▸ hm
  refine CallStack.inside_of_eq_cons rfl (Frame.target_eq_ok.1 hvalid).2 ?_
  rintro f (_ | ⟨_, hf⟩)
  · exact hall frame List.mem_cons_self
  · exact hall f (List.mem_cons_of_mem frame hf)

/-- Taken or not, a jump on a condition was checked. -/
theorem inside_of_jumpIf {expected : Bool} {offset : Int} (hm : m.calls.Inside)
    (h : (jumpIf expected offset).execute setting position m = .ok () n) : n.calls.Inside := by
  obtain ⟨c, hc, rfl⟩ := MachineAction.onCalls_eq_ok.1 h
  obtain ⟨frame, p, htop, hjump⟩ := Action.bind_eq_ok.1 hc
  obtain ⟨rest, hframes, rfl⟩ := CallAction.top_eq_ok.1 htop
  obtain ⟨pointer, p, htarget, hjump⟩ := Action.bind_eq_ok.1 hjump
  obtain ⟨hvalid, rfl⟩ := Action.ofExcept_eq_ok.1 htarget
  obtain ⟨popped, p, hpop, hjump⟩ := Action.bind_eq_ok.1 hjump
  have hp := CallAction.inside_of_onTop hm hpop
  split at hjump
  · obtain ⟨top, others, htop, rfl⟩ := CallAction.modifyTop_eq_ok.1 hjump
    -- the condition was taken off the stack of the same frame
    obtain ⟨frame', rest', w, hframes', -, rfl⟩ := CallAction.onTop_eq_ok.1 hpop
    rw [hframes] at hframes'
    cases hframes'
    cases htop
    refine CallStack.inside_of_eq_cons rfl (Frame.target_eq_ok.1 hvalid).2 fun f hf => hp f ?_
    exact List.mem_cons_of_mem _ hf
  · cases hjump
    exact hp

/-- An instruction that succeeds leaves every frame in its script or right behind it. -/
theorem inside_of_execute (hframes : m.calls.frames = frame :: rest) (hm : m.calls.Inside)
    (h : i.execute setting position m = .ok () n) : n.calls.Inside := by
  have hall : ∀ f ∈ frame :: rest, f.Inside := hframes ▸ hm
  have hframe : frame.Inside := hall frame List.mem_cons_self
  have hrest : ∀ f ∈ rest, f.Inside := fun f hf => hall f (List.mem_cons_of_mem frame hf)
  have hmoves := moves_of_execute hframes h
  generalize hcalls : n.calls = c at hmoves ⊢
  cases hmoves with
  | call pointer => exact hcalls ▸ inside_of_call hm h
  | appCall code htarget =>
    refine CallStack.inside_of_eq_cons rfl (Nat.zero_le _) ?_
    rintro f (_ | ⟨_, hf⟩)
    · exact hframe
    · exact hrest f hf
  | tailCall code htarget => exact CallStack.inside_of_eq_cons rfl (Nat.zero_le _) hrest
  | @ret caller below hbelow =>
    subst hbelow
    have hcaller : caller.Inside := hrest caller List.mem_cons_self
    exact CallStack.inside_of_eq_cons rfl hcaller fun f hf => hrest f (List.mem_cons_of_mem caller hf)
  | halt => exact nofun
  | service stack => exact CallStack.inside_of_eq_cons rfl hframe hrest
  | stay hi htop hscript =>
    cases htransfers : i.transfers with
    | false =>
      obtain ⟨top, others, hothers, hsame, hpointer⟩ := pointer_of_execute htransfers hframes h
      rw [hcalls, htop] at hothers
      cases hothers
      refine CallStack.inside_of_eq_cons htop ?_ hrest
      rw [Frame.Inside, hsame, hpointer]
      exact hframe
    | true =>
      cases i with
      | jump offset =>
        obtain ⟨d, hd, rfl⟩ := MachineAction.onCalls_eq_ok.1 h
        exact hcalls ▸ CallAction.inside_of_jump hm hd
      | jumpIf expected offset => exact hcalls ▸ inside_of_jumpIf hm h
      | call _ | ret | appCall _ _ => cases hi
      | _ => cases htransfers

end Instruction

/-! ### Runs -/

namespace Machine

variable {setting : Setting} {m n start : Machine}

/-- A step that succeeds leaves every frame in its script or right behind it. -/
theorem inside_of_step (hm : m.calls.Inside) (h : step setting m = .ok () n) : n.calls.Inside := by
  obtain ⟨frame, rest, i, size, p, gas, hframes, hdecode, -, -, -, hexecute, -⟩ := step_eq_ok.1 h
  have hall : ∀ f ∈ frame :: rest, f.Inside := hframes ▸ hm
  have hentered : (m.entering frame rest size gas).calls.Inside := by
    refine CallStack.inside_of_eq_cons rfl ?_ fun f hf => hall f (List.mem_cons_of_mem frame hf)
    show frame.pointer + size ≤ frame.script.bytes.length
    rcases Nat.eq_or_lt_of_le (hall frame List.mem_cons_self) with hend | hlt
    · -- the return behind the last byte has none
      rw [hend, decode_length] at hdecode
      cases hdecode
      exact Nat.le_of_eq hend
    · exact (decode_inside hlt hdecode).2
  exact Instruction.inside_of_execute rfl hentered hexecute

theorem inside_of_advance (hlive : m.Live) (hrunning : m.status = .running) (hm : m.calls.Inside) :
    (m.advance setting).calls.Inside := by
  rcases hlive.advance_eq_step setting hrunning with ⟨n, status, hstep, hn⟩ | ⟨fault, n, -, hn⟩
  · have hleft := inside_of_step hm hstep
    rw [hn]
    exact hleft
  · rw [hn]
    exact nofun

/-- The entry point was checked. -/
theorem inside_of_load {limits : Limits} {script : Bytes} {entry : Nat} {arguments : List Item} {heap : Heap}
    (h : load limits script entry arguments (initial limits heap) = .ok () start) : start.calls.Inside := by
  obtain ⟨_, p, hscript, h⟩ := Action.bind_eq_ok.1 h
  obtain ⟨c, hc, rfl⟩ := MachineAction.onCalls_eq_ok.1 hscript
  obtain ⟨frame, d, hnew, hpush⟩ := Action.bind_eq_ok.1 hc
  cases hnew
  obtain ⟨-, rfl⟩ := CallAction.pushFrame_eq_ok.1 hpush
  obtain ⟨_, p, hjump, hpushed⟩ := Action.bind_eq_ok.1 h
  obtain ⟨d, hd, rfl⟩ := MachineAction.onCalls_eq_ok.1 hjump
  obtain ⟨e, he, rfl⟩ := MachineAction.onCalls_eq_ok.1 hpushed
  refine CallAction.inside_of_onTop (CallAction.inside_of_jump ?_ hd) he
  exact CallStack.inside_of_eq_cons rfl (Nat.zero_le _) fun _ hf => absurd hf List.not_mem_nil

/-- Every machine that a run leads to has its frames in their scripts or right behind them. -/
theorem inside_of_steps {k : Nat} (hlive : start.Live) (hstart : start.calls.Inside) (h : Steps setting k start m) :
    m.calls.Inside :=
  (h.keeps (P := fun m => m.calls.Inside) (fun _ => inside_of_advance) hlive hstart).2

/-- Nothing looks behind the end of a script.  An instruction in it has at least one byte, does not reach over the end
and depends on its own bytes alone.  A listing is made of lines that stand one behind the other from the first byte on,
up to the end or to where nothing can be read.  However a loaded machine is run, its frames stand in their scripts or
right behind them. -/
theorem keeps_to_script :
    (∀ (script other : Bytes) (position place size : Nat) (i : Instruction), position < script.length →
      decode script position = .ok (i, size) →
        1 ≤ size ∧ position + size ≤ script.length ∧
        ((other.drop place).take size = (script.drop position).take size → decode other place = .ok (i, size))) ∧
    (∀ script : Bytes, ∃ (lines : List ListingLine) (stop : Nat), stop = (lines.map (·.size)).sum ∧
      (∀ (k : Nat) (line : ListingLine), lines[k]? = some line →
        line.position = ((lines.take k).map (·.size)).sum ∧ line.position < script.length ∧
        decode script line.position = .ok (line.instruction, line.size)) ∧
      (stop = script.length ∧ listing script 0 = (lines ++ [returnLine script], none) ∨
        stop < script.length ∧ ∃ fault, decode script stop = .error fault ∧
          listing script 0 = (lines, some fault))) ∧
    ∀ (setting : Setting) (script : Bytes) (entry : Nat) (arguments : List Item) (heap : Heap) (start : Machine),
      load setting.limits script entry arguments (initial setting.limits heap) = .ok () start →
        (∀ (k : Nat) (m : Machine), Steps setting k start m →
          ∀ f ∈ m.calls.frames, f.pointer ≤ f.script.bytes.length) ∧
        ∀ (calls : List DebugCall) (m : Machine), start.debug setting calls = some m →
          ∀ f ∈ m.calls.frames, f.pointer ≤ f.script.bytes.length := by
  refine ⟨fun script other position place size i hlt hdecode => ?_, fun script => ?_, ?_⟩
  · obtain ⟨hsize, hinside⟩ := decode_inside hlt hdecode
    exact ⟨hsize, hinside, decode_congr hlt hdecode⟩
  · obtain ⟨lines, stop, htiles, hstop⟩ := exists_tiles script (Nat.zero_le _)
    refine ⟨lines, stop, ?_, fun k line hk => ?_, ?_⟩
    · rw [htiles.stop_eq, Nat.zero_add]
    · have hline := htiles.line hk
      rwa [Nat.zero_add] at hline
    · rcases hstop with rfl | ⟨hlt, fault, hfault⟩
      · exact .inl ⟨rfl, htiles.listing_of_end⟩
      · exact .inr ⟨hlt, fault, hfault, htiles.listing_of_fault (Nat.le_of_lt hlt) hfault⟩
  · intro setting script entry arguments heap start hload
    have hlive := (fresh_of_load hload).1
    have hstart := inside_of_load hload
    refine ⟨fun k m hrun => inside_of_steps hlive hstart hrun, fun calls m hdebug => ?_⟩
    -- pauses and breakpoints move no frame
    obtain ⟨-, k, hrun⟩ := steps_of_driven hload hdebug
    have hbare : m.bare.calls.Inside := inside_of_steps hlive hstart hrun
    exact hbare

/-- A jump on a condition that fails goes on behind itself, and a call may lead right behind the last byte. -/
theorem call_leads_behind_end : decode [0x64, 3, 0] 0 = .ok (.jumpIf false 3, 3) ∧
    ∃ m, (ofScript {} [0x51, 0x64, 3, 0, 0x65, 3, 0]).debug Setting.blank [.stepInto, .stepInto, .stepInto] = some m ∧
      m.calls.frames.map (·.pointer) = [7, 7] ∧ ∀ f ∈ m.calls.frames, f.pointer ≤ f.script.bytes.length := by
  obtain ⟨hreads, -, hruns⟩ := keeps_to_script
  constructor
  · have hread : decode [0x51, 0x64, 3, 0, 0x65, 3, 0] 1 = .ok (.jumpIf false 3, 3) := rfl
    exact (hreads _ [0x64, 3, 0] 1 0 3 _ (by decide) hread).2.2 rfl
  · have hends : ((ofScript {} [0x51, 0x64, 3, 0, 0x65, 3, 0]).debug Setting.blank
        [.stepInto, .stepInto, .stepInto]).map (fun m => m.calls.frames.map (·.pointer)) = some [7, 7] := by
      decide +kernel
    obtain ⟨m, hdebug, hpointers⟩ := Option.map_eq_some_iff.1 hends
    have hload := load_ofScript [0x51, 0x64, 3, 0, 0x65, 3, 0] (show 0 < Setting.blank.limits.callDepth by decide)
    exact ⟨m, hdebug, hpointers, (hruns _ _ _ _ _ _ hload).2 _ m hdebug⟩

end Machine
end LedgerVM
