import LedgerVM.Proofs.Machine.Step
import LedgerVM.Proofs.Service.Heap

/-!
# What an instruction does with the frames

Calls, tail calls and returns put frames on the call stack and take them away, and hand the evaluation stack over
between them.  A service sees the evaluation stack of the executing frame alone.  Every other instruction works on the
executing frame and its slots (`CallAction.Local`).  All that an instruction which succeeds can do with the call stack
is one of these (`CallStack.Moves`), and so is what a step can do (`Machine.moves_of_step`).
-/

namespace LedgerVM

/-- The frames below the executing one are as they were, and that one runs its script and has its static slot.  No other
slot was changed, and this one only if `writes` holds. -/
def CallStack.Stays (writes : Prop) (c d : CallStack) : Prop :=
  ∀ frame rest, c.frames = frame :: rest → ∃ top, d.frames = top :: rest ∧ top.script = frame.script ∧
    top.statics = frame.statics ∧ d.statics.size = c.statics.size ∧
    ∀ ref, d.statics[ref]? ≠ c.statics[ref]? → writes ∧ ref = frame.statics

theorem CallStack.Stays.refl {writes : Prop} (c : CallStack) : c.Stays writes c := fun frame _ hframes =>
  ⟨frame, hframes, rfl, rfl, rfl, fun _ hne => absurd rfl hne⟩

theorem CallStack.Stays.trans {writes : Prop} {c d e : CallStack} (hd : c.Stays writes d) (he : d.Stays writes e) :
    c.Stays writes e := by
  intro frame rest hframes
  obtain ⟨top, htop, hscript, hstatics, hsize, hslots⟩ := hd frame rest hframes
  obtain ⟨last, hlast, hscript', hstatics', hsize', hslots'⟩ := he top rest htop
  refine ⟨last, hlast, hscript'.trans hscript, hstatics'.trans hstatics, hsize'.trans hsize, fun ref hne => ?_⟩
  by_cases hsame : e.statics[ref]? = d.statics[ref]?
  · exact hslots ref (hsame ▸ hne)
  · rw [← hstatics]
    exact hslots' ref hsame

/-- The executing frame is replaced by one with its script and its static slot. -/
theorem CallStack.stays_of_frame {writes : Prop} {c : CallStack} {frame top : Frame} {rest : List Frame}
    (hframes : c.frames = frame :: rest) (hscript : top.script = frame.script) (hstatics : top.statics = frame.statics)
    (heap : Heap) : c.Stays writes { c with frames := top :: rest, heap } := by
  intro frame' rest' hframes'
  rw [hframes] at hframes'
  cases hframes'
  exact ⟨top, rfl, hscript, hstatics, rfl, fun _ hne => absurd rfl hne⟩

namespace CallAction

/-- Whenever the action succeeds, it has worked on the executing frame alone, and on its static slot only if `writes`
holds. -/
def Local {α : Type} (writes : Prop) (a : CallAction α) : Prop := Action.Ensures (CallStack.Stays writes) a

/-! ### Actions that read -/

theorem top_reads : top.Reads where
  ok c frame d h := by
    obtain ⟨-, -, rfl⟩ := top_eq_ok.1 h
    rfl
  error c fault d h := by
    unfold top at h
    split at h
    · cases h
    · cases h
      rfl

theorem get_reads : (get : CallAction CallStack).Reads where
  ok c x d h := by
    cases h
    rfl
  error := nofun

theorem peekAlt_reads : peekAlt.Reads := by
  refine .bind top_reads fun frame => ?_
  split
  · exact .pure _
  · exact .throw _

theorem slot?_reads (kind : SlotKind) : (slot? kind).Reads := by
  refine .bind top_reads fun frame => ?_
  cases kind with
  | static => exact .bind get_reads fun _ => .pure _
  | «local» | argument => exact .pure _

theorem slot_reads (kind : SlotKind) : (slot kind).Reads := by
  refine .bind (slot?_reads kind) fun values => ?_
  split
  · exact .pure _
  · exact .throw _

theorem load_reads (kind : SlotKind) (index : Nat) : (load kind index).Reads := by
  refine .bind (slot_reads kind) fun values => ?_
  split
  · exact .pure _
  · exact .throw _

namespace Local

variable {α β : Type} {writes : Prop}

theorem pure (x : α) : Local writes (Pure.pure x) := Action.Ensures.pure .refl x

theorem throw (fault : Fault) : Local writes (MonadExcept.throw fault : CallAction α) := Action.Ensures.throw fault

theorem ofExcept (x : Except Fault α) : Local writes (Action.ofExcept x) := Action.Ensures.ofExcept .refl x

theorem bind {a : CallAction α} {f : α → CallAction β} (ha : Local writes a) (hf : ∀ x, Local writes (f x)) :
    Local writes (a >>= f) := Action.Ensures.bind (fun hd he => hd.trans he) ha hf

theorem of_reads {a : CallAction α} (ha : a.Reads) : Local writes a := by
  intro c x d h
  rw [ha.ok c x d h]
  exact .refl c

theorem onTop (operation : Operation α) : Local writes (onTop operation) := by
  intro c x d h
  obtain ⟨frame, rest, w, hframes, -, rfl⟩ := onTop_eq_ok.1 h
  exact CallStack.stays_of_frame hframes (by rfl) (by rfl) w.heap

theorem modifyTop {f : Frame → Frame} (hscript : ∀ frame, (f frame).script = frame.script)
    (hstatics : ∀ frame, (f frame).statics = frame.statics) : Local writes (modifyTop f) := by
  intro c x d h
  obtain ⟨frame, rest, hframes, rfl⟩ := modifyTop_eq_ok.1 h
  exact CallStack.stays_of_frame hframes (hscript frame) (hstatics frame) c.heap

private theorem stays_of_setTop {c d : CallStack} {frame top : Frame} {rest : List Frame}
    (hframes : c.frames = frame :: rest) (hscript : top.script = frame.script) (hstatics : top.statics = frame.statics)
    (h : setTop top c = .ok () d) : c.Stays writes d := by
  obtain ⟨frame', rest', hframes', rfl⟩ := setTop_eq_ok.1 h
  rw [hframes] at hframes'
  cases hframes'
  exact CallStack.stays_of_frame hframes hscript hstatics c.heap

theorem jump (target : Int) : Local writes (jump target) := by
  intro c x d h
  obtain ⟨frame, c, htop, hjump⟩ := Action.bind_eq_ok.1 h
  obtain ⟨rest, hframes, rfl⟩ := top_eq_ok.1 htop
  obtain ⟨pointer, e, htarget, hset⟩ := Action.bind_eq_ok.1 hjump
  obtain ⟨-, rfl⟩ := Action.ofExcept_eq_ok.1 htarget
  exact stays_of_setTop hframes (by rfl) (by rfl) hset

theorem popAlt : Local writes popAlt := by
  intro c x d h
  obtain ⟨frame, c, htop, hpop⟩ := Action.bind_eq_ok.1 h
  obtain ⟨rest, hframes, rfl⟩ := top_eq_ok.1 htop
  cases halt : frame.alt with
  | nil =>
    simp only [halt] at hpop
    cases hpop
  | cons item below =>
    simp only [halt] at hpop
    obtain ⟨_, e, hset, hvalue⟩ := Action.bind_eq_ok.1 hpop
    cases hvalue
    exact stays_of_setTop hframes (by rfl) (by rfl) hset

theorem setSlot {kind : SlotKind} (values : List Item) (hkind : kind = .static → writes) :
    Local writes (setSlot kind values) := by
  intro c x d h
  obtain ⟨frame, c, htop, hset⟩ := Action.bind_eq_ok.1 h
  obtain ⟨rest, hframes, rfl⟩ := top_eq_ok.1 htop
  cases kind with
  | static =>
    cases hset
    intro frame' rest' hframes'
    rw [hframes] at hframes'
    cases hframes'
    refine ⟨frame, hframes, rfl, rfl, Array.size_setIfInBounds, fun ref hne => ⟨hkind rfl, ?_⟩⟩
    by_contra hother
    rw [Array.getElem?_setIfInBounds_ne (Ne.symm hother)] at hne
    exact hne rfl
  | «local» | argument => exact stays_of_setTop hframes (by rfl) (by rfl) hset

theorem initStatic (count : Nat) (hwrites : writes) : Local writes (initStatic count) := by
  refine bind (of_reads (slot?_reads _)) fun values => ?_
  dsimp only
  split
  · exact bind (throw _) fun _ => setSlot _ fun _ => hwrites
  · exact setSlot _ fun _ => hwrites

theorem initSlots (locals arguments : Nat) : Local writes (initSlots locals arguments) := by
  have harguments : Local writes (do
      if arguments ≠ 0 then
        CallAction.setSlot .argument (← CallAction.onTop (.popMany arguments))) := by
    split
    · exact bind (onTop _) fun _ => setSlot _ nofun
    · exact pure _
  refine bind (of_reads top_reads) fun frame => ?_
  dsimp only
  split
  · refine bind (throw _) fun _ => ?_
    split
    · exact bind (setSlot _ nofun) fun _ => harguments
    · exact harguments
  · split
    · exact bind (setSlot _ nofun) fun _ => harguments
    · exact harguments

theorem store {kind : SlotKind} (index : Nat) (item : Item) (hkind : kind = .static → writes) :
    Local writes (store kind index item) := by
  refine bind (of_reads (slot_reads kind)) fun values => ?_
  split
  · exact setSlot _ hkind
  · exact throw _

end Local
end CallAction

/-- The instruction works on the executing frame: it neither goes to another frame nor calls a service. -/
def Instruction.isLocal : Instruction → Bool
  | call _ | ret | appCall .. | syscall _ => false
  | _ => true

/-- The instruction may change the static slot. -/
def Instruction.writesStatics : Instruction → Bool
  | initStatic _ | store .static _ => true
  | _ => false

namespace Instruction

variable {setting : Setting} {position : Nat} {i : Instruction} {m n : Machine}

/-- Whenever the action succeeds, it has worked on the executing frame alone. -/
private def StaysHere {α : Type} (writes : Prop) (a : MachineAction α) : Prop :=
  Action.Ensures (fun m n : Machine => m.calls.Stays writes n.calls) a

private theorem onCalls_staysHere {α : Type} {writes : Prop} {a : CallAction α} (ha : a.Local writes) :
    StaysHere writes (MachineAction.onCalls a) := .within (fun _ _ h => h) ha

private theorem bind_staysHere {α β : Type} {writes : Prop} {a : MachineAction α} {f : α → MachineAction β}
    (ha : StaysHere writes a) (hf : ∀ x, StaysHere writes (f x)) : StaysHere writes (a >>= f) :=
  Action.Ensures.bind (fun hd he => hd.trans he) ha hf

private theorem pure_staysHere {α : Type} {writes : Prop} (x : α) : StaysHere writes (pure x : MachineAction α) :=
  .pure (fun m => .refl m.calls) x

private theorem throw_staysHere {α : Type} {writes : Prop} (fault : Fault) :
    StaysHere writes (throw fault : MachineAction α) := .throw fault

/-- An instruction that is local leaves the frames below the executing one as they are. -/
theorem stays_of_execute (hi : i.isLocal = true) (h : i.execute setting position m = .ok () n) :
    m.calls.Stays (i.writesStatics = true) n.calls := by
  have honStack {α : Type} {writes : Prop} (operation : Operation α) :
      StaysHere writes (MachineAction.onStack operation) := onCalls_staysHere (.onTop operation)
  suffices hstays : StaysHere (i.writesStatics = true) (i.execute setting position) from hstays m () n h
  clear h
  cases i with
  | pushBytes data =>
    simp only [execute]
    split
    · exact bind_staysHere (throw_staysHere _) fun _ => honStack _
    · exact honStack _
  | pushInt _ | operate _ => exact honStack _
  | nop => exact pure_staysHere _
  | jump offset => exact onCalls_staysHere (.jump _)
  | jumpIf expected offset =>
    refine onCalls_staysHere (.bind (.of_reads CallAction.top_reads) fun frame => .bind (.ofExcept _) fun pointer => ?_)
    refine .bind (.onTop _) fun popped => ?_
    split
    · exact .modifyTop (fun _ => rfl) fun _ => rfl
    · exact .pure _
  | call _ | ret | appCall _ _ | syscall _ => cases hi
  | dupFromAlt => exact onCalls_staysHere (.bind (.of_reads CallAction.peekAlt_reads) fun _ => .onTop _)
  | toAlt => exact onCalls_staysHere (.bind (.onTop _) fun _ => .modifyTop (fun _ => rfl) fun _ => rfl)
  | fromAlt => exact onCalls_staysHere (.bind .popAlt fun _ => .onTop _)
  | initStatic count =>
    simp only [execute]
    split
    · exact bind_staysHere (throw_staysHere _) fun _ => onCalls_staysHere (.initStatic _ rfl)
    · exact onCalls_staysHere (.initStatic _ rfl)
  | initSlots locals arguments =>
    simp only [execute]
    split
    · exact bind_staysHere (throw_staysHere _) fun _ => onCalls_staysHere (.initSlots _ _)
    · exact onCalls_staysHere (.initSlots _ _)
  | load kind index =>
    exact onCalls_staysHere (.bind (.of_reads (CallAction.load_reads kind index)) fun _ => .onTop _)
  | store kind index =>
    refine onCalls_staysHere (.bind (.onTop _) fun item => .store _ _ ?_)
    rintro rfl
    rfl
  | raise =>
    exact bind_staysHere (onCalls_staysHere (.modifyTop (fun _ => rfl) fun _ => rfl)) fun _ => throw_staysHere _
  | raiseUnless =>
    refine bind_staysHere (honStack _) fun passed => ?_
    cases passed with
    | true => exact pure_staysHere _
    | false =>
      exact bind_staysHere (onCalls_staysHere (.modifyTop (fun _ => rfl) fun _ => rfl)) fun _ => throw_staysHere _

end Instruction

/-! ### All that an instruction can do -/

/-- A call of a contract goes to a hash, and leaves something of the stack: the hash is the target or, if that is zero,
what was on top. -/
inductive TakesTarget (target hash : Hash160) : List Item → List Item → Prop
  | given {stack : List Item} (htarget : target.isZero = false) (hhash : hash = target) :
      TakesTarget target hash stack stack
  | taken {item : Item} {below : List Item} (htarget : target.isZero = true) (hitem : item.toBytes = .ok hash.bytes) :
      TakesTarget target hash (item :: below) below

/-- What an instruction that succeeds does with a call stack whose executing frame is `frame`, moved behind it. -/
inductive CallStack.Moves (frame : Frame) (rest : List Frame) (c : CallStack) : Instruction → CallStack → Prop
  | call {offset : Int} (pointer : Nat) :
      Moves frame rest c (.call offset) { c with
        frames := { script := frame.script, pointer, stack := frame.stack, statics := frame.statics } ::
          { frame with stack := [] } :: rest }
  | appCall {target hash : Hash160} {below : List Item} (code : Bytes)
      (htarget : TakesTarget target hash frame.stack below) :
      Moves frame rest c (.appCall target false) { c with
        frames := { script := { bytes := code, hash }, stack := below, statics := c.statics.size } ::
          { frame with stack := [] } :: rest
        statics := c.statics.push none }
  | tailCall {target hash : Hash160} {below : List Item} (code : Bytes)
      (htarget : TakesTarget target hash frame.stack below) :
      Moves frame rest c (.appCall target true) { c with
        frames := { script := { bytes := code, hash }, stack := below, statics := c.statics.size } :: rest
        statics := c.statics.push none }
  | ret {caller : Frame} {below : List Frame} (hrest : rest = caller :: below) :
      Moves frame rest c .ret { c with frames := { caller with stack := frame.stack ++ caller.stack } :: below }
  | halt (hrest : rest = []) : Moves frame rest c .ret { c with frames := [] }
  | service {id : UInt32} {heap : Heap} (stack : List Item) (hheap : c.heap.KeptIn heap) :
      Moves frame rest c (.syscall id) { c with frames := { frame with stack } :: rest, heap }
  | stay {i : Instruction} {d : CallStack} {top : Frame} (hi : i.isLocal = true) (hframes : d.frames = top :: rest)
      (hscript : top.script = frame.script) (hstatics : top.statics = frame.statics)
      (hsize : d.statics.size = c.statics.size)
      (hslots : ∀ ref, d.statics[ref]? ≠ c.statics[ref]? → i.writesStatics = true ∧ ref = frame.statics) :
      Moves frame rest c i d

/-- Where the frames stood before does not show in what an instruction leaves. -/
theorem CallStack.Moves.of_withFrames {frame : Frame} {rest frames : List Frame} {c d : CallStack} {i : Instruction}
    (h : ({ c with frames } : CallStack).Moves frame rest i d) : c.Moves frame rest i d := by
  cases h with
  | call pointer => exact .call pointer
  | appCall code htarget => exact .appCall code htarget
  | tailCall code htarget => exact .tailCall code htarget
  | ret hrest => exact .ret hrest
  | halt hrest => exact .halt hrest
  | service stack hheap => exact .service stack hheap
  | stay hi hframes hscript hstatics hsize hslots => exact .stay hi hframes hscript hstatics hsize hslots

namespace MachineAction

variable {setting : Setting} {m n : Machine} {frame : Frame} {rest : List Frame}

private theorem checkDynamicInvoke_reads (ledger : Ledger) : (checkDynamicInvoke ledger).Reads := by
  refine .bind (onCalls_reads CallAction.top_reads) fun frame => .bind (.ofExcept _) fun found => ?_
  cases found with
  | none => exact .throw _
  | some contract =>
    dsimp only
    split
    · exact .throw _
    · exact .pure _

/-- Nothing but the hash is taken off the stack to find out which contract is called. -/
theorem callTarget_eq_ok {ledger : Ledger} {target hash : Hash160} (hframes : m.calls.frames = frame :: rest)
    (h : callTarget ledger target m = .ok hash n) : ∃ below, TakesTarget target hash frame.stack below ∧
      n.calls = { m.calls with frames := { frame with stack := below } :: rest } := by
  unfold callTarget at h
  split at h
  · rename_i hzero
    obtain ⟨_, p, hcheck, htarget⟩ := Action.bind_eq_ok.1 h
    obtain rfl := (checkDynamicInvoke_reads ledger).ok _ _ _ hcheck
    obtain ⟨bytes, q, hpop, hhash⟩ := Action.bind_eq_ok.1 htarget
    obtain ⟨c, hc, rfl⟩ := onCalls_eq_ok.1 hpop
    obtain ⟨frame', rest', w, hframes', hbytes, rfl⟩ := CallAction.onTop_eq_ok.1 hc
    rw [hframes] at hframes'
    cases hframes'
    have hpopped : Operation.popAs Item.toBytes _ = _ := hbytes
    obtain ⟨item, below, hstack, hitem, rfl⟩ := Operation.popAs_eq_ok.1 hpopped
    have hstack : frame.stack = item :: below := hstack
    cases hdigest : Digest.ofBytes? 20 bytes with
    | none =>
      rw [hdigest] at hhash
      cases hhash
    | some found =>
      rw [hdigest] at hhash
      cases hhash
      have hsame : hash.bytes = bytes := by
        unfold Digest.ofBytes? at hdigest
        split at hdigest
        · cases hdigest
          rfl
        · cases hdigest
      rw [← hsame] at hitem
      exact ⟨below, hstack ▸ .taken hzero hitem, rfl⟩
  · rename_i hgiven
    cases h
    exact ⟨frame.stack, .given (by simpa using hgiven) rfl, by rw [← hframes]⟩

theorem call_moves {limits : Limits} {target offset : Int} (hframes : m.calls.frames = frame :: rest)
    (h : call limits target m = .ok () n) : m.calls.Moves frame rest (.call offset) n.calls := by
  obtain ⟨c, hc, rfl⟩ := onCalls_eq_ok.1 h
  obtain ⟨frame', d, htop, hcall⟩ := Action.bind_eq_ok.1 hc
  obtain ⟨rest', hframes', rfl⟩ := CallAction.top_eq_ok.1 htop
  rw [hframes] at hframes'
  cases hframes'
  obtain ⟨pointer, d, htarget, hcall⟩ := Action.bind_eq_ok.1 hcall
  obtain ⟨-, rfl⟩ := Action.ofExcept_eq_ok.1 htarget
  obtain ⟨stack, d, htake, hpush⟩ := Action.bind_eq_ok.1 hcall
  obtain ⟨frame', rest', hframes', rfl, rfl⟩ := CallAction.takeStack_eq_ok.1 htake
  rw [hframes] at hframes'
  cases hframes'
  obtain ⟨-, rfl⟩ := CallAction.pushFrame_eq_ok.1 hpush
  exact .call pointer

theorem appCall_moves {target : Hash160} {tail : Bool} (hframes : m.calls.frames = frame :: rest)
    (h : appCall setting target tail m = .ok () n) : m.calls.Moves frame rest (.appCall target tail) n.calls := by
  obtain ⟨hash, p, htarget, hcall⟩ := Action.bind_eq_ok.1 h
  obtain ⟨below, htakes, hp⟩ := callTarget_eq_ok hframes htarget
  obtain ⟨found, q, hread, hcall⟩ := Action.bind_eq_ok.1 hcall
  obtain ⟨-, rfl⟩ := Action.ofExcept_eq_ok.1 hread
  cases found with
  | none => cases hcall
  | some contract =>
    obtain ⟨c, hc, rfl⟩ := onCalls_eq_ok.1 hcall
    rw [hp] at hc
    obtain ⟨stack, d, htake, hnew⟩ := Action.bind_eq_ok.1 hc
    obtain ⟨frame', rest', hframes', rfl, rfl⟩ := CallAction.takeStack_eq_ok.1 htake
    cases hframes'
    obtain ⟨callee, e, hcallee, hpush⟩ := Action.bind_eq_ok.1 hnew
    cases hcallee
    cases tail with
    | false =>
      obtain ⟨-, rfl⟩ := CallAction.pushFrame_eq_ok.1 hpush
      exact .appCall contract.script htakes
    | true =>
      obtain ⟨gone, e, hpop, hpush⟩ := Action.bind_eq_ok.1 hpush
      obtain ⟨rest', hrest, rfl⟩ := CallAction.popFrame_eq_ok.1 hpop
      cases hrest
      obtain ⟨-, rfl⟩ := CallAction.pushFrame_eq_ok.1 hpush
      exact .tailCall contract.script htakes

/-- A service that succeeds has run on the stack of the executing frame, and changed no collection. -/
theorem callService_moves {service : Service} {id : UInt32} (hframes : m.calls.frames = frame :: rest)
    (h : callService setting service m = .ok () n) : m.calls.Moves frame rest (.syscall id) n.calls := by
  unfold callService at h
  rw [hframes] at h
  dsimp only at h
  split at h
  · rename_i t ht
    cases h
    have hheap : m.calls.heap.KeptIn t.bench.heap := service.run_adds _ _ _ _ ht
    exact .service t.bench.stack hheap
  · cases h

end MachineAction

open MachineAction in
/-- An instruction that succeeds makes one of the moves there are. -/
theorem Instruction.moves_of_execute {setting : Setting} {position : Nat} {i : Instruction} {m n : Machine}
    {frame : Frame} {rest : List Frame} (hframes : m.calls.frames = frame :: rest)
    (h : i.execute setting position m = .ok () n) : m.calls.Moves frame rest i n.calls := by
  cases hlocal : i.isLocal with
  | true =>
    obtain ⟨top, htop, hscript, hstatics, hsize, hslots⟩ := stays_of_execute hlocal h frame rest hframes
    exact .stay hlocal htop hscript hstatics hsize hslots
  | false =>
    cases i with
    | call offset => exact call_moves hframes h
    | appCall target tail => exact appCall_moves hframes h
    | ret =>
      rcases ret_eq_ok h with ⟨frame', hframes', rfl⟩ | ⟨frame', caller, below, hframes', rfl⟩
      · rw [hframes] at hframes'
        cases hframes'
        exact .halt rfl
      · rw [hframes] at hframes'
        cases hframes'
        exact .ret rfl
    | syscall id =>
      obtain ⟨service, p, hfind, hcall⟩ := Action.bind_eq_ok.1 h
      obtain rfl := (findService_reads id).ok _ _ _ hfind
      exact callService_moves hframes hcall
    | _ => cases hlocal

/-- A step that succeeds moves the executing frame behind its next instruction, and then makes one of the moves of that
instruction. -/
theorem Machine.moves_of_step {setting : Setting} {m n : Machine} {frame : Frame} {rest : List Frame}
    (hframes : m.calls.frames = frame :: rest) (h : step setting m = .ok () n) :
    ∃ i size, decode frame.script.bytes frame.pointer = .ok (i, size) ∧
      m.calls.Moves { frame with pointer := frame.pointer + size } rest i n.calls := by
  obtain ⟨frame', rest', i, size, p, gas, hframes', hi, -, -, -, hexecute, -⟩ := step_eq_ok.1 h
  rw [hframes] at hframes'
  cases hframes'
  exact ⟨i, size, hi, (Instruction.moves_of_execute rfl hexecute).of_withFrames⟩

/-- A machine that was just loaded has one frame, with the one static slot there is. -/
theorem Machine.frames_of_load {limits : Limits} {script : Bytes} {entry : Nat} {arguments : List Item} {heap : Heap}
    {m : Machine} (h : load limits script entry arguments (initial limits heap) = .ok () m) :
    ∃ frame, m.calls.frames = [frame] ∧ frame.statics = 0 ∧ m.calls.statics.size = 1 := by
  obtain ⟨_, p, hscript, hjump⟩ := Action.bind_eq_ok.1 h
  obtain ⟨c, hc, rfl⟩ := MachineAction.onCalls_eq_ok.1 hscript
  obtain ⟨frame, d, hnew, hpush⟩ := Action.bind_eq_ok.1 hc
  cases hnew
  obtain ⟨-, rfl⟩ := CallAction.pushFrame_eq_ok.1 hpush
  obtain ⟨_, p, hjump, hpushed⟩ := Action.bind_eq_ok.1 hjump
  obtain ⟨d, hd, rfl⟩ := MachineAction.onCalls_eq_ok.1 hjump
  obtain ⟨e, he, rfl⟩ := MachineAction.onCalls_eq_ok.1 hpushed
  -- moving to the entry point and putting arguments on the stack is local to the frame
  have hstays : CallStack.Stays False _ e :=
    CallStack.Stays.trans (CallAction.Local.jump _ _ _ _ hd) (CallAction.Local.onTop _ _ _ _ he)
  obtain ⟨top, htop, -, hstatics, hsize, -⟩ := hstays _ _ rfl
  exact ⟨top, htop, hstatics, hsize⟩

end LedgerVM
