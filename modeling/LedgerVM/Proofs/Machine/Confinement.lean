import LedgerVM.Proofs.Machine.Failure
import LedgerVM.Proofs.Machine.Run
import LedgerVM.Proofs.Script.Decode
import LedgerVM.Proofs.Service.Confinement

/-!
# Instructions stay in scope

The items that frames and static slots hold stay in scope, the scripts that are executed are those of the scope, and
calls go no deeper than it allows.  Instructions that do not transfer control also leave the executing frame where it
is, which `here` says (`Instruction.execute_straight`); the others leave some frame executing, and a return may leave
none (`Instruction.execute_confined`).  Along with this goes that no instruction of a machine with a frame fails for
want of one.
-/

namespace LedgerVM

theorem Frame.target_answers (frame : Frame) (target : Int) : Answers (fun _ => True) (frame.target target) :=
  .ite (fun _ => rfl) fun _ => trivial

/-- A scope of items, with the scripts that may be executed and the number of frames that there may be. -/
structure CallScope extends Scope where
  scripts : Script → Prop
  depth : Nat

/-- What is asked of the place where the executing frame stands. -/
abbrev Place := Script → Nat → Prop

/-- Nothing is asked of the place. -/
def Place.anywhere : Place := fun _ _ => True

namespace CallScope

/-- The frame executes a script in scope and holds items in scope. -/
structure HoldsFrame (scope : CallScope) (f : Frame) : Prop where
  script : scope.scripts f.script
  stack : ∀ item ∈ f.stack, scope.Holds item
  alt : ∀ item ∈ f.alt, scope.Holds item
  locals : ∀ values ∈ f.locals, ∀ item ∈ values, scope.Holds item
  arguments : ∀ values ∈ f.arguments, ∀ item ∈ values, scope.Holds item

/-- There is a frame that stands here, there are no more frames than there may be, and all that they hold is in
scope. -/
structure HoldsCalls (scope : CallScope) (here : Place) (c : CallStack) : Prop where
  top : ∃ frame rest, c.frames = frame :: rest ∧ here frame.script frame.pointer
  depth : c.frames.length ≤ scope.depth
  frames : ∀ f ∈ c.frames, scope.HoldsFrame f
  statics : ∀ slot ∈ c.statics, ∀ values ∈ slot, ∀ item ∈ values, scope.Holds item
  heap : scope.HoldsHeap c.heap

/-- The action on the call stack leaves it in scope and gives values of this kind. -/
def ConfinesCalls {α : Type} (scope : CallScope) (here : Place) (Q : α → Prop) (a : CallAction α) : Prop :=
  Action.Maintains (scope.HoldsCalls here) Q a

/-- The action on the machine leaves its call stack in scope and gives values of this kind. -/
def ConfinesMachine {α : Type} (scope : CallScope) (here : Place) (Q : α → Prop) (a : MachineAction α) : Prop :=
  Action.Maintains (fun m => scope.HoldsCalls here m.calls) Q a

variable {scope : CallScope} {here : Place}

theorem HoldsCalls.anywhere {c : CallStack} (h : scope.HoldsCalls here c) : scope.HoldsCalls .anywhere c :=
  { h with
    top := by
      obtain ⟨frame, rest, hframes, -⟩ := h.top
      exact ⟨frame, rest, hframes, trivial⟩ }

theorem HoldsFrame.bench {c : CallStack} {frame : Frame} (hframe : scope.HoldsFrame frame)
    (hheap : scope.HoldsHeap c.heap) : scope.HoldsBench { stack := frame.stack, heap := c.heap } :=
  ⟨hframe.stack, hheap⟩

/-- Another executing frame in the place of the one there is, and another heap. -/
theorem HoldsCalls.replace {c : CallStack} {frame top : Frame} {rest : List Frame} {heap : Heap}
    (h : scope.HoldsCalls here c) (hframes : c.frames = top :: rest) (hframe : scope.HoldsFrame frame)
    (hhere : here frame.script frame.pointer) (hheap : scope.HoldsHeap heap) :
    scope.HoldsCalls here { c with frames := frame :: rest, heap } where
  top := ⟨frame, rest, rfl, hhere⟩
  depth := by
    have hdepth := h.depth
    rw [hframes] at hdepth
    exact hdepth
  frames f hf := by
    have hall := h.frames
    rw [hframes] at hall
    rcases List.mem_cons.1 hf with rfl | hf
    · exact hframe
    · exact hall f (List.mem_cons_of_mem top hf)
  statics := h.statics
  heap := hheap

/-! ### Scopes without bounds on items -/

/-- The scope of all items, with these scripts and as many frames as the limits allow. -/
def ofScripts (limits : Limits) (scripts : Script → Prop) : CallScope where
  cells _ := True
  owners _ := True
  scripts := scripts
  depth := limits.callDepth

variable {limits : Limits} {scripts : Script → Prop}

theorem holds_ofScripts (item : Item) : (ofScripts limits scripts).Holds item := by
  cases item with
  | array _ | struct _ | map _ => trivial
  | interface handle => exact fun _ _ => trivial
  | boolean _ | integer _ | byteArray _ => trivial

theorem holdsHeap_ofScripts (h : Heap) : (ofScripts limits scripts).HoldsHeap h where
  list _ _ _ _ := holds_ofScripts _
  map _ _ _ _ := holds_ofScripts _
  newList _ _ := trivial
  newMap _ _ := trivial

/-- Where no item is out of scope, what counts is the number of frames and their scripts. -/
theorem holdsCalls_ofScripts {c : CallStack} : (ofScripts limits scripts).HoldsCalls .anywhere c ↔
    c.frames ≠ [] ∧ c.frames.length ≤ limits.callDepth ∧ ∀ f ∈ c.frames, scripts f.script := by
  constructor
  · intro h
    obtain ⟨frame, rest, hframes, -⟩ := h.top
    exact ⟨by rw [hframes]; exact List.cons_ne_nil _ _, h.depth, fun f hf => (h.frames f hf).script⟩
  · rintro ⟨hframes, hdepth, hscripts⟩
    obtain ⟨frame, rest, hframes⟩ := List.exists_cons_of_ne_nil hframes
    have hframe (f : Frame) (hf : f ∈ c.frames) : (ofScripts limits scripts).HoldsFrame f :=
      ⟨hscripts f hf, fun _ _ => holds_ofScripts _, fun _ _ => holds_ofScripts _, fun _ _ _ _ => holds_ofScripts _,
        fun _ _ _ _ => holds_ofScripts _⟩
    exact ⟨⟨frame, rest, hframes, trivial⟩, hdepth, hframe, fun _ _ _ _ _ _ => holds_ofScripts _,
      holdsHeap_ofScripts c.heap⟩

end CallScope

namespace CallAction

open CallScope

variable {scope : CallScope} {here : Place}

/-! ### The executing frame -/

theorem top_confined :
    scope.ConfinesCalls here (fun frame => scope.HoldsFrame frame ∧ here frame.script frame.pointer) top := by
  intro c hc
  obtain ⟨frame, rest, hframes, hhere⟩ := hc.top
  unfold top
  rw [hframes]
  exact ⟨hc, hc.frames frame (hframes ▸ List.mem_cons_self), hhere⟩

theorem setTop_confined {frame : Frame} (hframe : scope.HoldsFrame frame) (hhere : here frame.script frame.pointer) :
    scope.ConfinesCalls here (fun _ => True) (setTop frame) := by
  intro c hc
  obtain ⟨_, rest, hframes, -⟩ := hc.top
  unfold setTop
  rw [hframes]
  exact ⟨hc.replace hframes hframe hhere hc.heap, trivial⟩

theorem onTop_confined {α : Type} {Q : α → Prop} {operation : Operation α} (h : scope.Confines Q operation) :
    scope.ConfinesCalls here Q (onTop operation) := by
  intro c hc
  obtain ⟨frame, rest, hframes, hhere⟩ := hc.top
  have hframe : scope.HoldsFrame frame := hc.frames frame (hframes ▸ List.mem_cons_self)
  have hleaves := h _ (hframe.bench hc.heap)
  unfold onTop
  rw [hframes]
  dsimp only
  cases hrun : operation { stack := frame.stack, heap := c.heap } with
  | ok x w =>
    rw [hrun] at hleaves
    have hkept : scope.HoldsFrame { frame with stack := w.stack } := { hframe with stack := hleaves.1.stack }
    exact ⟨hc.replace hframes hkept hhere hleaves.1.heap, hleaves.2⟩
  | error fault w =>
    rw [hrun] at hleaves
    exact hleaves

/-! ### The alt stack and the slots -/

theorem pushAlt_confined {item : Item} (hitem : scope.Holds item) :
    scope.ConfinesCalls here (fun _ => True) (pushAlt item) := by
  refine .bind top_confined fun frame ⟨hframe, hhere⟩ => setTop_confined ?_ hhere
  refine { hframe with alt := fun other hother => ?_ }
  rcases List.mem_cons.1 hother with rfl | hother
  · exact hitem
  · exact hframe.alt other hother

theorem peekAlt_confined : scope.ConfinesCalls here scope.Holds peekAlt := by
  refine .bind top_confined fun frame ⟨hframe, _⟩ => ?_
  have halt := hframe.alt
  cases hstack : frame.alt with
  | nil => exact .throw nofun
  | cons item rest =>
    rw [hstack] at halt
    exact .pure (halt item List.mem_cons_self)

theorem popAlt_confined : scope.ConfinesCalls here scope.Holds popAlt := by
  refine .bind top_confined fun frame ⟨hframe, hhere⟩ => ?_
  have halt := hframe.alt
  cases hstack : frame.alt with
  | nil => exact .throw nofun
  | cons item rest =>
    rw [hstack] at halt
    have hrest : scope.HoldsFrame { frame with alt := rest } :=
      { hframe with alt := fun other hother => halt other (List.mem_cons_of_mem item hother) }
    exact .bind (setTop_confined hrest hhere) fun _ _ => .pure (halt item List.mem_cons_self)

theorem slot?_confined (kind : SlotKind) :
    scope.ConfinesCalls here (fun slot => ∀ values ∈ slot, ∀ item ∈ values, scope.Holds item) (slot? kind) := by
  refine .bind top_confined fun frame ⟨hframe, _⟩ => ?_
  cases kind with
  | «local» => exact .pure hframe.locals
  | argument => exact .pure hframe.arguments
  | static =>
    refine .bind .get fun c hc => .pure ?_
    intro values hvalues
    rw [Array.getD_eq_getD_getElem?] at hvalues
    cases hslot : c.statics[frame.statics]? with
    | none =>
      rw [hslot] at hvalues
      cases hvalues
    | some slot =>
      rw [hslot] at hvalues
      exact hc.statics slot (Array.mem_of_getElem? hslot) values hvalues

theorem setSlot_confined (kind : SlotKind) {values : List Item} (hvalues : ∀ item ∈ values, scope.Holds item) :
    scope.ConfinesCalls here (fun _ => True) (setSlot kind values) := by
  have hslot : ∀ others ∈ some values, ∀ item ∈ others, scope.Holds item := by
    rintro others ⟨⟩
    exact hvalues
  refine .bind top_confined fun frame ⟨hframe, hhere⟩ => ?_
  cases kind with
  | «local» => exact setTop_confined { hframe with locals := hslot } hhere
  | argument => exact setTop_confined { hframe with arguments := hslot } hhere
  | static =>
    refine .modify fun c hc => { hc with statics := fun slot hmem => ?_ }
    rcases Array.mem_or_eq_of_mem_setIfInBounds hmem with hmem | rfl
    · exact hc.statics slot hmem
    · exact hslot

private theorem holds_variables (count : Nat) :
    ∀ item ∈ List.replicate count (Item.boolean false), scope.Holds item := by
  intro item hitem
  rw [List.eq_of_mem_replicate hitem]
  trivial

theorem initStatic_confined (count : Nat) : scope.ConfinesCalls here (fun _ => True) (initStatic count) := by
  refine .bind (slot?_confined .static) fun slot _ => .check nofun fun _ => ?_
  exact setSlot_confined .static (holds_variables count)

theorem initSlots_confined (locals arguments : Nat) :
    scope.ConfinesCalls here (fun _ => True) (initSlots locals arguments) := by
  have harguments : scope.ConfinesCalls here (fun _ => True)
      (if arguments ≠ 0 then do setSlot .argument (← onTop (.popMany arguments)) else pure ()) := by
    split
    · exact .bind (onTop_confined (Operation.popMany_confined arguments)) fun _ => setSlot_confined .argument
    · exact .pure trivial
  refine .bind top_confined fun frame _ => .check nofun fun _ => ?_
  dsimp only
  split
  · exact .bind (setSlot_confined .local (holds_variables locals)) fun _ _ => harguments
  · exact harguments

theorem slot_confined (kind : SlotKind) :
    scope.ConfinesCalls here (fun values => ∀ item ∈ values, scope.Holds item) (slot kind) := by
  refine .bind (slot?_confined kind) fun slot hslot => ?_
  cases slot with
  | some values => exact .pure (hslot values rfl)
  | none => exact .throw nofun

theorem load_confined (kind : SlotKind) (index : Nat) :
    scope.ConfinesCalls here scope.Holds (load kind index) := by
  refine .bind (slot_confined kind) fun values hvalues => ?_
  split
  · rename_i item hitem
    exact .pure (hvalues item (List.mem_of_getElem? hitem))
  · exact .throw nofun

theorem store_confined (kind : SlotKind) (index : Nat) {item : Item} (hitem : scope.Holds item) :
    scope.ConfinesCalls here (fun _ => True) (store kind index item) := by
  refine .bind (slot_confined kind) fun values hvalues => ?_
  split
  · refine setSlot_confined kind fun other hother => ?_
    rcases List.mem_or_eq_of_mem_set hother with hother | rfl
    · exact hvalues other hother
    · exact hitem
  · exact .throw nofun

theorem markThrown_confined : scope.ConfinesCalls here (fun _ => True) markThrown :=
  .bind top_confined fun _ ⟨hframe, hhere⟩ => setTop_confined { hframe with } hhere

/-! ### Transfers of control -/

theorem jump_confined (target : Int) : scope.ConfinesCalls .anywhere (fun _ => True) (jump target) :=
  .bind top_confined fun frame ⟨hframe, _⟩ => .bind (.ofExcept (frame.target_answers target).yields) fun _ _ =>
    setTop_confined { hframe with } trivial

theorem takeStack_confined :
    scope.ConfinesCalls here (fun stack => ∀ item ∈ stack, scope.Holds item) takeStack := by
  refine .bind top_confined fun frame ⟨hframe, hhere⟩ => ?_
  have hempty : scope.HoldsFrame { frame with stack := [] } := { hframe with stack := by simp }
  exact .bind (setTop_confined hempty hhere) fun _ _ => .pure hframe.stack

theorem newFrame_confined {script : Script} {stack : List Item} (hscript : scope.scripts script)
    (hstack : ∀ item ∈ stack, scope.Holds item) :
    scope.ConfinesCalls here scope.HoldsFrame (newFrame script stack) := by
  intro c hc
  -- the new frame has a static slot of its own, which is empty
  refine ⟨{ hc with statics := fun slot hslot => ?_ }, hscript, hstack, by simp, by simp, by simp⟩
  rcases Array.mem_push.1 hslot with hslot | rfl
  · exact hc.statics slot hslot
  · simp

/-- A frame is put on top of what is left of the call stack. -/
private theorem leaves_pushFrame {c : CallStack} {frame : Frame} {rest : List Frame} {limit : Nat}
    (hlimit : limit = scope.depth) (hrest : ∀ f ∈ rest, scope.HoldsFrame f) (hframe : scope.HoldsFrame frame)
    (hc : scope.HoldsCalls here c) :
    Action.Leaves (scope.HoldsCalls .anywhere) (fun _ => True) (pushFrame limit frame { c with frames := rest }) := by
  unfold pushFrame
  split
  · nofun
  · rename_i hroom
    refine ⟨{ hc with top := ⟨frame, rest, rfl, trivial⟩, depth := ?_, frames := ?_ }, trivial⟩
    · simp only [List.length_cons] at hroom ⊢
      omega
    · intro f hf
      rcases List.mem_cons.1 hf with rfl | hf
      · exact hframe
      · exact hrest f hf

theorem pushFrame_confined {limit : Nat} {frame : Frame} (hlimit : limit = scope.depth)
    (hframe : scope.HoldsFrame frame) : scope.ConfinesCalls .anywhere (fun _ => True) (pushFrame limit frame) :=
  fun _ hc => leaves_pushFrame hlimit hc.frames hframe hc

/-- A frame takes the place of the executing one. -/
theorem replaceFrame_confined {limit : Nat} {frame : Frame} (hlimit : limit = scope.depth)
    (hframe : scope.HoldsFrame frame) :
    scope.ConfinesCalls .anywhere (fun _ => True) (do
      let _ ← popFrame
      pushFrame limit frame) := by
  intro c hc
  obtain ⟨top, rest, hframes, -⟩ := hc.top
  have hrest : ∀ f ∈ rest, scope.HoldsFrame f := fun f hf => hc.frames f (hframes ▸ List.mem_cons_of_mem top hf)
  rw [Action.bind_apply]
  unfold popFrame
  rw [hframes]
  exact leaves_pushFrame hlimit hrest hframe hc

end CallAction

/-- The instruction may move the executing frame or change which frame is executing. -/
def Instruction.transfers : Instruction → Bool
  | jump _ | jumpIf .. | call _ | ret | appCall .. => true
  | _ => false

/-- The limits and the ledger of the setting keep to the scope. -/
structure CallScope.Admits (scope : CallScope) (setting : Setting) : Prop where
  depth : setting.limits.callDepth = scope.depth
  scripts : ∀ hash contract, setting.ledger.contract hash = .ok (some contract) →
    scope.scripts { bytes := contract.script, hash }

namespace MachineAction

open CallScope CallAction

variable {scope : CallScope} {here : Place} {setting : Setting}

theorem onCalls_confined {α : Type} {Q : α → Prop} {a : CallAction α} (h : scope.ConfinesCalls here Q a) :
    scope.ConfinesMachine here Q (onCalls a) := .within (fun _ hm => hm) (fun _ _ _ hc => hc) h

theorem onStack_confined {α : Type} {Q : α → Prop} {operation : Operation α} (h : scope.Confines Q operation) :
    scope.ConfinesMachine here Q (onStack operation) := onCalls_confined (onTop_confined h)

theorem findService_confined (id : UInt32) : scope.ConfinesMachine here (fun _ => True) (findService id) := by
  unfold findService
  split
  · exact .pure trivial
  · exact .throw nofun

theorem callService_confined (howner : ∀ script pointer, here script pointer → scope.owners script.hash)
    (service : Service) : scope.ConfinesMachine here (fun _ => True) (callService setting service) := by
  intro m hm
  obtain ⟨frame, rest, hframes, hhere⟩ := hm.top
  have hframe : scope.HoldsFrame frame := hm.frames frame (hframes ▸ List.mem_cons_self)
  let context : ServiceContext :=
    { setting
      executing := frame.script.hash
      calling := m.calls.calling?
      entry := m.calls.entry?.getD frame.script.hash }
  let bench : Workbench := { stack := frame.stack, heap := m.calls.heap }
  have hexecuting : scope.owners context.executing := howner _ _ hhere
  have hleaves := service.run_confined hexecuting { bench, effects := m.effects } (hframe.bench hm.heap)
  unfold callService
  rw [hframes]
  dsimp only
  cases hrun : service.run context { bench, effects := m.effects } with
  | ok x s =>
    rw [hrun] at hleaves
    have hkept : scope.HoldsFrame { frame with stack := s.bench.stack } :=
      { hframe with stack := hleaves.1.stack }
    exact ⟨hm.replace hframes hkept hhere hleaves.1.heap, trivial⟩
  | error fault s =>
    rw [hrun] at hleaves
    exact hleaves

theorem call_confined (hadmits : scope.Admits setting) (target : Int) :
    scope.ConfinesMachine .anywhere (fun _ => True) (call setting.limits target) := by
  refine onCalls_confined (.bind top_confined fun frame ⟨hframe, _⟩ => ?_)
  refine .bind (.ofExcept (frame.target_answers target).yields) fun pointer _ => ?_
  refine .bind takeStack_confined fun stack hstack => pushFrame_confined hadmits.depth ?_
  exact ⟨hframe.script, hstack, by simp, by simp, by simp⟩

theorem callTarget_confined (ledger : Ledger) (target : Hash160) :
    scope.ConfinesMachine here (fun _ => True) (callTarget ledger target) := by
  have hcheck : scope.ConfinesMachine here (fun _ => True) (checkDynamicInvoke ledger) := by
    refine .bind (onCalls_confined top_confined) fun frame _ => ?_
    refine .bind (.ofExcept (.mapError nofun _)) fun found _ => ?_
    cases found with
    | none => exact .throw nofun
    | some contract =>
      dsimp only
      split
      · exact .throw nofun
      · exact .pure trivial
  unfold callTarget
  split
  · refine .bind hcheck fun _ _ => .bind (onStack_confined Operation.popBytes_confined) fun bytes _ => ?_
    split
    · exact .pure trivial
    · exact .throw nofun
  · exact .pure trivial

theorem appCall_confined (hadmits : scope.Admits setting) (target : Hash160) (tail : Bool) :
    scope.ConfinesMachine .anywhere (fun _ => True) (appCall setting target tail) := by
  refine .bind (callTarget_confined setting.ledger target) fun hash _ => ?_
  refine .bind (.ofExcept (.mapError nofun (setting.ledger.contract hash))) fun found hfound => ?_
  cases found with
  | none => exact .throw nofun
  | some contract =>
    refine onCalls_confined (.bind takeStack_confined fun stack hstack => ?_)
    refine .bind (newFrame_confined (hadmits.scripts hash contract hfound) hstack) fun frame hframe => ?_
    cases tail with
    | true => exact replaceFrame_confined hadmits.depth hframe
    | false => exact pushFrame_confined hadmits.depth hframe

/-- A return leaves the frame of the caller executing, if there is one. -/
theorem ret_confined {m : Machine} (hm : scope.HoldsCalls here m.calls) :
    Action.Leaves (fun n : Machine => n.calls.frames = [] ∨ scope.HoldsCalls .anywhere n.calls) (fun _ => True)
      (ret m) := by
  obtain ⟨frame, rest, hframes, -⟩ := hm.top
  cases hrun : ret m with
  | ok x n =>
    refine ⟨?_, trivial⟩
    rcases ret_eq_ok hrun with ⟨_, -, rfl⟩ | ⟨frame, caller, rest, hframes, rfl⟩
    · exact .inl rfl
    · have hall := hm.frames
      have hdepth := hm.depth
      rw [hframes] at hall hdepth
      have hframe := hall frame List.mem_cons_self
      have hcaller := hall caller (List.mem_cons_of_mem frame List.mem_cons_self)
      refine .inr { hm with top := ⟨_, rest, rfl, trivial⟩, depth := Nat.le_of_succ_le hdepth, frames := ?_ }
      intro f hf
      rcases List.mem_cons.1 hf with rfl | hf
      · refine { hcaller with stack := fun item hitem => ?_ }
        rcases List.mem_append.1 hitem with hitem | hitem
        · exact hframe.stack item hitem
        · exact hcaller.stack item hitem
      · exact hall f (List.mem_cons_of_mem _ (List.mem_cons_of_mem _ hf))
  | error fault n =>
    -- with a frame to take away, nothing else about a return can fail
    exfalso
    rcases Action.bind_eq_error.1 hrun with hpop | ⟨top, p, hpop, hrest⟩
    · obtain ⟨c, hc, -⟩ := Action.within_eq_error.1 hpop
      simp only [CallAction.popFrame, hframes] at hc
      cases hc
    · obtain ⟨c, hc, rfl⟩ := onCalls_eq_ok.1 hpop
      simp only [CallAction.popFrame, hframes] at hc
      cases hc
      cases rest <;> cases hrest

end MachineAction

open CallScope CallAction MachineAction

namespace Instruction

variable {scope : CallScope} {here : Place} {setting : Setting}

/-- An instruction that does not transfer control leaves the executing frame where it is. -/
theorem execute_straight (howner : ∀ script pointer, here script pointer → scope.owners script.hash)
    (position : Nat) {i : Instruction} (hi : i.transfers = false) :
    scope.ConfinesMachine here (fun _ => True) (i.execute setting position) := by
  cases i with
  | pushBytes data =>
    rw [execute]
    exact .check (by simp) fun _ => onStack_confined (Operation.pushBytes_confined data)
  | pushInt value => exact onStack_confined (Operation.pushNumber_confined value)
  | nop => exact .pure trivial
  | jump _ | jumpIf _ _ | call _ | ret | appCall _ _ => cases hi
  | syscall id => exact .bind (findService_confined id) fun service _ => callService_confined howner service
  | dupFromAlt =>
    refine onCalls_confined (.bind peekAlt_confined fun item hitem => onTop_confined ?_)
    exact .bind (Operation.duplicate_confined hitem) fun _ => Operation.push_confined
  | toAlt => exact onCalls_confined (.bind (onTop_confined Operation.pop_confined) fun _ => pushAlt_confined)
  | fromAlt =>
    exact onCalls_confined (.bind popAlt_confined fun _ hitem => onTop_confined (Operation.push_confined hitem))
  | operate op => exact onStack_confined (op.run_confined _ _)
  | initStatic count =>
    rw [execute]
    exact .check (by simp) fun _ => onCalls_confined (initStatic_confined count)
  | initSlots locals arguments =>
    rw [execute]
    exact .check (by simp) fun _ => onCalls_confined (initSlots_confined locals arguments)
  | load slot index =>
    refine onCalls_confined (.bind (load_confined slot index) fun item hitem => ?_)
    exact onTop_confined (Operation.push_confined hitem)
  | store slot index =>
    exact onCalls_confined (.bind (onTop_confined Operation.pop_confined) fun _ => store_confined slot index)
  | raise => exact .bind (onCalls_confined markThrown_confined) fun _ _ => .throw (by simp)
  | raiseUnless =>
    refine .bind (onStack_confined Operation.popBool_confined) fun passed _ => ?_
    cases passed with
    | true => exact .pure trivial
    | false => exact .bind (onCalls_confined markThrown_confined) fun _ _ => .throw (by simp)

/-- An instruction leaves what is in scope in scope and some frame executing, unless it was the return of the
outermost frame. -/
theorem execute_confined (hadmits : scope.Admits setting)
    (howner : ∀ script pointer, here script pointer → scope.owners script.hash) (position : Nat) (i : Instruction)
    {m : Machine} (hm : scope.HoldsCalls here m.calls) :
    Action.Leaves (fun n : Machine => n.calls.frames = [] ∨ scope.HoldsCalls .anywhere n.calls) (fun _ => True)
      (i.execute setting position m) := by
  -- the place is only known to stay where control is not transferred; services need it, and they are among those
  have hany := hm.anywhere
  cases hi : i.transfers with
  | false => exact (execute_straight howner position hi m hm).weaken fun n hn => .inr hn.anywhere
  | true =>
    cases i with
    | jump offset => exact (onCalls_confined (jump_confined _) m hany).weaken fun n => .inr
    | jumpIf expected offset =>
      refine Action.Leaves.weaken (onCalls_confined ?_ m hany) fun n => .inr
      refine .bind top_confined fun frame _ => .bind (.ofExcept (frame.target_answers _).yields) fun pointer _ => ?_
      refine .bind (onTop_confined Operation.popBool_confined) fun popped _ => ?_
      split
      · exact .bind top_confined fun _ ⟨hframe, _⟩ => setTop_confined { hframe with } trivial
      · exact .pure trivial
    | call offset => exact (call_confined hadmits _ m hany).weaken fun n => .inr
    | ret => exact ret_confined hm
    | appCall target tail => exact (appCall_confined hadmits target tail m hany).weaken fun n => .inr
    | _ => cases hi

end Instruction

namespace Machine

variable {scope : CallScope} {setting : Setting} {m n : Machine}

theorem price_confined {here : Place} (schedule : GasSchedule) (i : Instruction) :
    scope.ConfinesMachine here (fun _ => True) (price schedule i) := by
  have hkeys : scope.Confines (fun _ => True) multisigKeys := by
    refine .bind (Operation.peek_confined 0) fun item hitem => ?_
    cases item with
    | array ref | struct ref => exact .bind Operation.heap_confined fun h _ => .pure trivial
    | _ => exact .bind (.ofExcept (Item.toInteger_answers _).yields) fun _ _ => .pure trivial
  rcases price_cases schedule i with ⟨id, hprice⟩ | hprice | hprice
  · rw [hprice]
    exact .bind (findService_confined id) fun service _ => onStack_confined (service.price_confined schedule)
  · rw [hprice]
    exact .bind (onStack_confined hkeys) fun _ _ => .pure trivial
  · rw [hprice]
    exact .pure trivial

/-- The machine as it executes an instruction holds what it held before. -/
theorem holds_entering {here : Place} {frame : Frame} {rest : List Frame} {size : Nat} {gas : GasMeter}
    (hm : scope.HoldsCalls .anywhere m.calls) (hframes : m.calls.frames = frame :: rest)
    (hhere : here frame.script (frame.pointer + size)) :
    scope.HoldsCalls here (m.entering frame rest size gas).calls := by
  have hframe : scope.HoldsFrame frame := hm.frames frame (hframes ▸ List.mem_cons_self)
  have hmoved : scope.HoldsCalls .anywhere (m.entering frame rest size gas).calls :=
    hm.replace hframes { hframe with } trivial hm.heap
  exact { hmoved with top := ⟨_, rest, rfl, hhere⟩ }

/-- A step leaves what is in scope in scope and some frame executing, unless it was the return of the outermost
frame, provided that the storage of the executing contract is in scope. -/
theorem step_confined (hadmits : scope.Admits setting) (hm : scope.HoldsCalls .anywhere m.calls)
    (howner : ∀ hash, m.calls.executing? = some hash → scope.owners hash) :
    Action.Leaves (fun n : Machine => n.calls.frames = [] ∨ scope.HoldsCalls .anywhere n.calls) (fun _ => True)
      (step setting m) := by
  obtain ⟨frame, rest, hframes, -⟩ := hm.top
  have hexecuting : scope.owners frame.script.hash := howner _ (by rw [CallStack.executing?, hframes]; rfl)
  have hentering (size : Nat) (gas : GasMeter) :
      scope.HoldsCalls (fun script _ => scope.owners script.hash) (m.entering frame rest size gas).calls :=
    holds_entering hm hframes hexecuting
  have hexecute (i : Instruction) (size : Nat) (gas : GasMeter) :=
    i.execute_confined hadmits (fun _ _ => id) frame.pointer (hentering size gas)
  cases hstep : step setting m with
  | ok x n =>
    -- the checks around the instruction leave frames and items alone
    obtain ⟨frame', rest', i, size, p, gas, hframes', -, -, -, -, hrun, -⟩ := step_eq_ok.1 hstep
    rw [hframes] at hframes'
    cases hframes'
    have hleaves := hexecute i size gas
    rw [hrun] at hleaves
    exact hleaves
  | error fault n =>
    have hprice (i : Instruction) : Action.Leaves (fun n : Machine => scope.HoldsCalls .anywhere n.calls)
        (fun _ => True) (price setting.schedule i (m.fetched frame)) := price_confined setting.schedule i _ hm
    cases (step_eq_error hframes).1 hstep with
    | decoding hi =>
      have hyields := decode_yields frame.script.bytes frame.pointer
      rw [hi] at hyields
      exact hyields
    | stepLimit _ _ _ => nofun
    | @pricing i size _ _ hi _ h =>
      have hleaves := hprice i
      rw [h] at hleaves
      exact hleaves
    | gas _ _ _ h =>
      unfold GasMeter.charge at h
      split at h <;> cases h
      nofun
    | @executing i size _ gas _ _ hi _ _ _ h =>
      have hleaves := hexecute i size gas
      rw [h] at hleaves
      exact hleaves
    | size _ _ _ _ _ _ => nofun

/-- A machine that advances and has a frame left holds what is in scope. -/
theorem Live.advance_confined (hlive : m.Live) (hm : m.status = .running) (hadmits : scope.Admits setting)
    (hcalls : scope.HoldsCalls .anywhere m.calls)
    (howner : ∀ hash, m.calls.executing? = some hash → scope.owners hash)
    (hframes : (m.advance setting).calls.frames ≠ []) : scope.HoldsCalls .anywhere (m.advance setting).calls := by
  have hleaves := step_confined hadmits hcalls howner
  rcases hlive.advance_eq_step setting hm with ⟨n, status, hstep, hn⟩ | ⟨fault, n, -, hn⟩
  · rw [hstep] at hleaves
    rw [hn] at hframes ⊢
    exact hleaves.1.resolve_left hframes
  · rw [hn] at hframes
    exact absurd rfl hframes

/-- A machine that was just loaded holds what is in scope if the script, the arguments and their heap are. -/
theorem holds_of_load {limits : Limits} {script : Bytes} {entry : Nat} {arguments : List Item} {heap : Heap}
    (hdepth : limits.callDepth = scope.depth)
    (hscript : scope.scripts { bytes := script, hash := Hashing.hash160 script }) (hheap : scope.HoldsHeap heap)
    (harguments : ∀ item ∈ arguments, scope.Holds item)
    (h : load limits script entry arguments (initial limits heap) = .ok () m) :
    scope.HoldsCalls .anywhere m.calls := by
  obtain ⟨_, p, hpush, hrest⟩ := Action.bind_eq_ok.1 h
  have hpushed : scope.HoldsCalls .anywhere p.calls := by
    obtain ⟨c, hc, rfl⟩ := onCalls_eq_ok.1 hpush
    obtain ⟨frame, d, hnew, hc⟩ := Action.bind_eq_ok.1 hc
    cases hnew
    obtain ⟨hroom, rfl⟩ := CallAction.pushFrame_eq_ok.1 hc
    refine ⟨⟨_, [], rfl, trivial⟩, hdepth ▸ hroom, ?_, ?_, hheap⟩
    · intro f hf
      rw [List.mem_singleton.1 hf]
      exact ⟨hscript, by simp, by simp, by simp, by simp⟩
    · intro slot hslot
      rw [Array.mem_singleton.1 hslot]
      simp
  have hentered : scope.ConfinesMachine .anywhere (fun _ => True) (do
      .onCalls (.jump (wrapInt64 entry))
      .onStack (.pushAll arguments)) :=
    .bind (onCalls_confined (jump_confined _)) fun _ _ =>
      onStack_confined (Operation.pushAll_confined harguments)
  exact (hentered.of_ok hpushed hrest).1

theorem holds_of_load_ofScripts {limits : Limits} {scripts : Script → Prop} {script : Bytes} {entry : Nat}
    {arguments : List Item} {heap : Heap} (hscript : scripts { bytes := script, hash := Hashing.hash160 script })
    (h : load limits script entry arguments (initial limits heap) = .ok () m) :
    (CallScope.ofScripts limits scripts).HoldsCalls .anywhere m.calls :=
  holds_of_load rfl hscript (holdsHeap_ofScripts heap) (fun item _ => holds_ofScripts item) h

end Machine
end LedgerVM
