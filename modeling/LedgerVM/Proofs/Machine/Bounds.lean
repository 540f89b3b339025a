import LedgerVM.Proofs.Machine.Consistency
import LedgerVM.Proofs.Script.Decode
import LedgerVM.Proofs.Service.Bounds

/-!
# Machines keep within bounds

What frames and static slots hold stays within bounds, and so do results, notifications and the values that are to be
written, if the bounds suit the setting: every instruction keeps to them (`Instruction.execute_keeps`), hence every
step (`Machine.step_keeps`), and hence every run of a machine that was given arguments within bounds
(`Machine.withinBounds_of_debug`).
-/

namespace LedgerVM

theorem Frame.mem_items {f : Frame} {item : Item} :
    item ∈ f.items ↔ item ∈ f.stack ∨ item ∈ f.alt ∨ item ∈ f.locals.getD [] ∨ item ∈ f.arguments.getD [] := by
  simp only [Frame.items, List.mem_append, or_assoc]

/-- The item is in a frame or in a static slot. -/
def CallStack.Has (c : CallStack) (item : Item) : Prop :=
  (∃ f ∈ c.frames, item ∈ f.items) ∨ ∃ values, some values ∈ c.statics ∧ item ∈ values

instance : Holder CallStack where
  heap := CallStack.heap
  Has := CallStack.Has

instance : Holder Machine where
  heap m := m.calls.heap
  Has m item := m.calls.Has item ∨ item ∈ m.results ∨ m.effects.Has item

/-- What is in the slots and on the stacks of the frame is within bounds. -/
def Bounds.HoldsFrame (b : Bounds) (h : Heap) (f : Frame) : Prop := ∀ item ∈ f.items, b.Holds h item

/-- With another frame and the static slots as they are there are no other items than those of that frame. -/
theorem CallStack.Has.of_frames {c d : CallStack} {frame : Frame} {item : Item} (hitem : d.Has item)
    (hframes : ∀ f ∈ d.frames, f = frame ∨ f ∈ c.frames) (hstatics : d.statics = c.statics) :
    c.Has item ∨ item ∈ frame.items := by
  rcases hitem with ⟨f, hf, hitem⟩ | ⟨values, hvalues, hitem⟩
  · rcases hframes f hf with rfl | hf
    · exact .inr hitem
    · exact .inl (.inl ⟨f, hf, hitem⟩)
  · exact .inl (.inr ⟨values, hstatics ▸ hvalues, hitem⟩)

open Bounds

variable {b : Bounds} {setting : Setting} {limits : Limits} {h : Heap}

/-- The executing frame has another stack, on a heap that has grown. -/
theorem Bounds.Fits.withStack {c : CallStack} {frame : Frame} {rest : List Frame} {stack : List Item} {heap : Heap}
    (hc : b.Fits c) (hframes : c.frames = frame :: rest) (hgrows : c.heap.Grows heap) (hheap : b.HoldsHeap heap)
    (hstack : ∀ item ∈ stack, b.Holds heap item) :
    b.Fits ({ c with frames := { frame with stack } :: rest, heap } : CallStack) where
  heap := hheap
  items item hitem := by
    have hframe : frame ∈ c.frames := hframes ▸ List.mem_cons_self
    have hrest : ∀ f ∈ { frame with stack } :: rest, f = { frame with stack } ∨ f ∈ c.frames := fun f hf =>
      hframes ▸ (List.mem_cons.1 hf).imp_right (List.mem_cons_of_mem frame)
    rcases CallStack.Has.of_frames (c := c) hitem hrest rfl with hold | hitem
    · exact (hc.items item hold).mono hgrows
    · rcases Frame.mem_items.1 hitem with hitem | hitem
      · exact hstack item hitem
      · exact (hc.items item (.inl ⟨frame, hframe, Frame.mem_items.2 (.inr hitem)⟩)).mono hgrows

namespace CallAction

/-! ### The executing frame -/

theorem top_spares : b.Spares h (b.HoldsFrame h) top := by
  refine .of_run fun c hheap hc => ?_
  unfold top
  cases hframes : c.frames with
  | nil => nofun
  | cons frame rest =>
    refine ⟨hheap, fun _ => .inl, fun item hitem => hheap ▸ hc.items item (.inl ⟨frame, ?_, hitem⟩)⟩
    rw [hframes]
    exact List.mem_cons_self

theorem setTop_spares {frame : Frame} (hframe : b.HoldsFrame h frame) :
    b.Spares h (fun _ => True) (setTop frame) := by
  refine .of_run fun c hheap _ => ?_
  unfold setTop
  cases hframes : c.frames with
  | nil => nofun
  | cons top rest =>
    have hrest : ∀ f ∈ frame :: rest, f = frame ∨ f ∈ c.frames := fun f hf =>
      hframes ▸ (List.mem_cons.1 hf).imp_right (List.mem_cons_of_mem top)
    exact ⟨hheap, fun item hitem => (CallStack.Has.of_frames (c := c) hitem hrest rfl).imp_right (hframe item), trivial⟩

/-- The executing frame may hold what it held, besides what is within bounds. -/
theorem modifyTop_spares {f : Frame → Frame} (hf : ∀ frame, b.HoldsFrame h frame → b.HoldsFrame h (f frame)) :
    b.Spares h (fun _ => True) (modifyTop f) :=
  .bind top_spares fun frame hframe => setTop_spares (hf frame hframe)

theorem onTop_keeps {α : Type} {Q : Heap → α → Prop} {operation : Operation α} (ho : b.Keeps h Q operation) :
    b.Keeps h Q (onTop operation) := by
  rintro c rfl hc
  unfold onTop
  split
  · exact fun _ => nofun
  · rename_i frame rest hframes
    have hbench : b.Fits ({ stack := frame.stack, heap := c.heap } : Workbench) := by
      refine ⟨hc.heap, fun item hitem => hc.items item (.inl ⟨frame, ?_, Frame.mem_items.2 (.inl hitem)⟩)⟩
      exact hframes ▸ List.mem_cons_self
    have hkept := ho { stack := frame.stack, heap := c.heap } rfl hbench
    cases hrun : operation { stack := frame.stack, heap := c.heap } with
    | ok x w =>
      rw [hrun] at hkept
      obtain ⟨hgrows, hw, hx⟩ := hkept
      exact ⟨hgrows, hc.withStack hframes hgrows hw.heap hw.items, hx⟩
    | error fault w =>
      rw [hrun] at hkept
      exact hkept

theorem onTop_spares {α : Type} {P : α → Prop} {operation : Operation α} (ho : b.Spares h P operation) :
    b.Spares h P (onTop operation) := onTop_keeps ho

/-! ### The alt stack and the slots -/

theorem pushAlt_spares {item : Item} (hitem : b.Holds h item) : b.Spares h (fun _ => True) (pushAlt item) := by
  refine modifyTop_spares fun frame hframe other hother => ?_
  rw [Frame.mem_items] at hother
  rcases hother with hother | hother | hother
  · exact hframe other (Frame.mem_items.2 (.inl hother))
  · rcases List.mem_cons.1 hother with rfl | hother
    · exact hitem
    · exact hframe other (Frame.mem_items.2 (.inr (.inl hother)))
  · exact hframe other (Frame.mem_items.2 (.inr (.inr hother)))

theorem peekAlt_spares : b.Spares h (b.Holds h) peekAlt := by
  refine .bind top_spares fun frame hframe => ?_
  cases halt : frame.alt with
  | nil => exact .throw rfl
  | cons item rest =>
    refine .pure (hframe item (Frame.mem_items.2 (.inr (.inl ?_))))
    rw [halt]
    exact List.mem_cons_self

theorem popAlt_spares : b.Spares h (b.Holds h) popAlt := by
  refine .bind top_spares fun frame hframe => ?_
  cases halt : frame.alt with
  | nil => exact .throw rfl
  | cons item rest =>
    have hmem {other : Item} (hother : other ∈ item :: rest) : b.Holds h other :=
      hframe other (Frame.mem_items.2 (.inr (.inl (halt ▸ hother))))
    refine .bind (setTop_spares fun other hother => ?_) fun _ _ => .pure (hmem List.mem_cons_self)
    rw [Frame.mem_items] at hother
    rcases hother with hother | hother | hother
    · exact hframe other (Frame.mem_items.2 (.inl hother))
    · exact hmem (List.mem_cons_of_mem item hother)
    · exact hframe other (Frame.mem_items.2 (.inr (.inr hother)))

theorem slot?_spares (kind : SlotKind) :
    b.Spares h (fun slot => ∀ item ∈ slot.getD [], b.Holds h item) (slot? kind) := by
  refine .bind top_spares fun frame hframe => ?_
  cases kind with
  | «local» => exact .pure fun item hitem => hframe item (Frame.mem_items.2 (.inr (.inr (.inl hitem))))
  | argument => exact .pure fun item hitem => hframe item (Frame.mem_items.2 (.inr (.inr (.inr hitem))))
  | static =>
    refine .bind .get fun c ⟨hheap, hc⟩ => .pure fun item hitem => ?_
    rw [Array.getD_eq_getD_getElem?] at hitem
    cases hslot : c.statics[frame.statics]? with
    | none =>
      rw [hslot] at hitem
      cases hitem
    | some slot =>
      rw [hslot] at hitem
      cases slot with
      | none => cases hitem
      | some values => exact hheap ▸ hc.items item (.inr ⟨values, Array.mem_of_getElem? hslot, hitem⟩)

theorem setSlot_spares (kind : SlotKind) {values : List Item} (hvalues : ∀ item ∈ values, b.Holds h item) :
    b.Spares h (fun _ => True) (setSlot kind values) := by
  refine .bind top_spares fun frame hframe => ?_
  cases kind with
  | «local» =>
    refine setTop_spares fun item hitem => ?_
    rcases Frame.mem_items.1 hitem with hitem | hitem | hitem | hitem
    · exact hframe item (Frame.mem_items.2 (.inl hitem))
    · exact hframe item (Frame.mem_items.2 (.inr (.inl hitem)))
    · exact hvalues item hitem
    · exact hframe item (Frame.mem_items.2 (.inr (.inr (.inr hitem))))
  | argument =>
    refine setTop_spares fun item hitem => ?_
    rcases Frame.mem_items.1 hitem with hitem | hitem | hitem | hitem
    · exact hframe item (Frame.mem_items.2 (.inl hitem))
    · exact hframe item (Frame.mem_items.2 (.inr (.inl hitem)))
    · exact hframe item (Frame.mem_items.2 (.inr (.inr (.inl hitem))))
    · exact hvalues item hitem
  | static =>
    refine .modify fun c hheap _ => ⟨hheap, fun item hitem => ?_⟩
    rcases hitem with hitem | ⟨others, hothers, hitem⟩
    · exact .inl (.inl hitem)
    · rcases Array.mem_or_eq_of_mem_setIfInBounds hothers with hothers | hsame
      · exact .inl (.inr ⟨others, hothers, hitem⟩)
      · cases hsame
        exact .inr (hvalues item hitem)

private theorem holds_unset (count : Nat) : ∀ item ∈ List.replicate count (Item.boolean false), b.Holds h item := by
  intro item hitem
  rw [List.eq_of_mem_replicate hitem]
  trivial

theorem initStatic_spares (count : Nat) : b.Spares h (fun _ => True) (initStatic count) := by
  refine .bind (slot?_spares .static) fun slot _ => .check rfl fun _ => ?_
  exact setSlot_spares .static (holds_unset count)

theorem initSlots_spares (locals arguments : Nat) : b.Spares h (fun _ => True) (initSlots locals arguments) := by
  have harguments : b.Spares h (fun _ => True)
      (if arguments ≠ 0 then do setSlot .argument (← onTop (.popMany arguments)) else pure ()) := by
    split
    · exact .bind (onTop_spares (Operation.popMany_spares arguments)) fun values hvalues =>
        setSlot_spares .argument hvalues.2
    · exact .pure trivial
  refine .bind top_spares fun frame _ => .check rfl fun _ => ?_
  dsimp only
  split
  · exact .bind (setSlot_spares .local (holds_unset locals)) fun _ _ => harguments
  · exact harguments

theorem slot_spares (kind : SlotKind) :
    b.Spares h (fun values => ∀ item ∈ values, b.Holds h item) (slot kind) := by
  refine .bind (slot?_spares kind) fun slot hslot => ?_
  cases slot with
  | some values => exact .pure hslot
  | none => exact .throw rfl

theorem load_spares (kind : SlotKind) (index : Nat) : b.Spares h (b.Holds h) (load kind index) := by
  refine .bind (slot_spares kind) fun values hvalues => ?_
  split
  · rename_i item hitem
    exact .pure (hvalues item (List.mem_of_getElem? hitem))
  · exact .throw rfl

theorem store_spares (kind : SlotKind) (index : Nat) {item : Item} (hitem : b.Holds h item) :
    b.Spares h (fun _ => True) (store kind index item) := by
  refine .bind (slot_spares kind) fun values hvalues => ?_
  split
  · refine setSlot_spares kind fun other hother => ?_
    rcases List.mem_or_eq_of_mem_set hother with hother | rfl
    · exact hvalues other hother
    · exact hitem
  · exact .throw rfl

theorem markThrown_spares : b.Spares h (fun _ => True) markThrown := modifyTop_spares fun _ hframe => hframe

/-! ### Transfers of control -/

theorem jump_spares (target : Int) : b.Spares h (fun _ => True) (jump target) :=
  .bind top_spares fun frame hframe => .bind (.ofExcept (frame.target_answers target)) fun _ _ =>
    setTop_spares hframe

theorem takeStack_spares : b.Spares h (fun stack => ∀ item ∈ stack, b.Holds h item) takeStack := by
  refine .bind top_spares fun frame hframe => .bind (setTop_spares fun item hitem => ?_) fun _ _ => .pure ?_
  · rcases Frame.mem_items.1 hitem with hitem | hitem
    · cases hitem
    · exact hframe item (Frame.mem_items.2 (.inr hitem))
  · exact fun item hitem => hframe item (Frame.mem_items.2 (.inl hitem))

/-- A frame with nothing but a stack. -/
theorem holdsFrame_stack {script : Script} {pointer statics : Nat} {stack : List Item}
    (hstack : ∀ item ∈ stack, b.Holds h item) : b.HoldsFrame h { script, pointer, stack, statics } := by
  intro item hitem
  rcases Frame.mem_items.1 hitem with hitem | hitem | hitem | hitem
  · exact hstack item hitem
  all_goals cases hitem

theorem newFrame_spares (script : Script) {stack : List Item} (hstack : ∀ item ∈ stack, b.Holds h item) :
    b.Spares h (b.HoldsFrame h) (newFrame script stack) := by
  refine .of_run fun c hheap _ => ⟨hheap, fun item hitem => .inl ?_, holdsFrame_stack hstack⟩
  -- the static slot of the new frame is empty
  rcases hitem with hitem | ⟨values, hvalues, hitem⟩
  · exact .inl hitem
  · rcases Array.mem_push.1 hvalues with hvalues | hnone
    · exact .inr ⟨values, hvalues, hitem⟩
    · cases hnone

theorem pushFrame_spares (limit : Nat) {frame : Frame} (hframe : b.HoldsFrame h frame) :
    b.Spares h (fun _ => True) (pushFrame limit frame) := by
  refine .of_run fun c hheap _ => ?_
  unfold pushFrame
  by_cases hfull : limit ≤ c.frames.length
  · rw [if_pos hfull]
    nofun
  · rw [if_neg hfull]
    exact ⟨hheap, fun item hitem =>
      (CallStack.Has.of_frames hitem (fun f hf => List.mem_cons.1 hf) rfl).imp_right (hframe item), trivial⟩

theorem popFrame_spares : b.Spares h (b.HoldsFrame h) popFrame := by
  refine .of_run fun c hheap hc => ?_
  unfold popFrame
  cases hframes : c.frames with
  | nil => nofun
  | cons frame rest =>
    refine ⟨hheap, fun item hitem => .inl ?_, fun item hitem => hheap ▸ hc.items item (.inl ⟨frame, ?_, hitem⟩)⟩
    · rcases hitem with ⟨f, hf, hitem⟩ | hitem
      · exact .inl ⟨f, hframes ▸ List.mem_cons_of_mem frame hf, hitem⟩
      · exact .inr hitem
    · exact hframes ▸ List.mem_cons_self

end CallAction

open CallAction

namespace MachineAction

/-! ### Actions on the machine -/

theorem onCalls_keeps {α : Type} {Q : Heap → α → Prop} {a : CallAction α} (ha : b.Keeps h Q a) :
    b.Keeps h Q (onCalls a) := by
  refine .within ha (fun m => ⟨rfl, fun item => .inl⟩) fun m c => ⟨rfl, fun item hitem => ?_⟩
  rcases hitem with hitem | hitem
  · exact .inl hitem
  · exact .inr (.inr hitem)

theorem onCalls_spares {α : Type} {P : α → Prop} {a : CallAction α} (ha : b.Spares h P a) :
    b.Spares h P (onCalls a) := onCalls_keeps ha

theorem onStack_keeps {α : Type} {Q : Heap → α → Prop} {operation : Operation α} (ho : b.Keeps h Q operation) :
    b.Keeps h Q (onStack operation) := onCalls_keeps (onTop_keeps ho)

theorem onStack_spares {α : Type} {P : α → Prop} {operation : Operation α} (ho : b.Spares h P operation) :
    b.Spares h P (onStack operation) := onStack_keeps ho

theorem call_spares (target : Int) : b.Spares h (fun _ => True) (call limits target) := by
  refine onCalls_spares (.bind top_spares fun frame _ => .bind (.ofExcept (frame.target_answers target)) ?_)
  exact fun pointer _ => .bind takeStack_spares fun stack hstack => pushFrame_spares _ (holdsFrame_stack hstack)

theorem ret_spares : b.Spares h (fun _ => True) ret := by
  refine .bind (onCalls_spares popFrame_spares) fun frame hframe => .bind .get fun m _ => ?_
  have hstack : ∀ item ∈ frame.stack, b.Holds h item := fun item hitem =>
    hframe item (Frame.mem_items.2 (.inl hitem))
  split
  · refine .modify fun n hheap _ => ⟨hheap, fun item hitem => ?_⟩
    rcases hitem with hitem | hitem | hitem
    · exact .inl (.inl hitem)
    · rcases List.mem_append.1 hitem with hitem | hitem
      · exact .inl (.inr (.inl hitem))
      · exact .inr (hstack item (List.mem_reverse.1 hitem))
    · exact .inl (.inr (.inr hitem))
  · exact onStack_spares (Operation.pushAll_spares hstack)

theorem checkDynamicInvoke_spares (ledger : Ledger) : b.Spares h (fun _ => True) (checkDynamicInvoke ledger) := by
  refine .bind (onCalls_spares top_spares) fun frame _ => .bind (.ofExcept (.mapError (fun _ => rfl) _)) ?_
  intro found _
  cases found with
  | some contract =>
    dsimp only
    split
    · exact .throw rfl
    · exact .pure trivial
  | none => exact .throw rfl

theorem callTarget_spares (hb : b.Allows limits) (ledger : Ledger) (target : Hash160) :
    b.Spares h (fun _ => True) (callTarget ledger target) := by
  unfold callTarget
  split
  · refine .bind (checkDynamicInvoke_spares ledger) fun _ _ => ?_
    refine .bind (onStack_spares (Operation.popBytes_spares hb)) fun bytes _ => ?_
    split
    · exact .pure trivial
    · exact .throw rfl
  · exact .pure trivial

theorem appCall_spares (hb : b.Allows setting.limits) (target : Hash160) (tail : Bool) :
    b.Spares h (fun _ => True) (appCall setting target tail) := by
  refine .bind (callTarget_spares hb _ target) fun hash _ => .bind (.ofExcept (.mapError (fun _ => rfl) _)) ?_
  intro found _
  cases found with
  | none => exact .throw rfl
  | some contract =>
    refine onCalls_spares (.bind takeStack_spares fun stack hstack => .bind (newFrame_spares _ hstack) ?_)
    intro frame hframe
    cases tail with
    | true => exact .bind popFrame_spares fun _ _ => pushFrame_spares _ hframe
    | false => exact pushFrame_spares _ hframe

theorem findService_spares (id : UInt32) : b.Spares h (fun _ => True) (findService id) := by
  unfold findService
  split
  · exact .pure trivial
  · exact .throw rfl

theorem callService_keeps (hb : b.Suits setting) (service : Service) : b.Preserves (callService setting service) := by
  rintro _ m rfl hm
  unfold callService
  cases hframes : m.calls.frames with
  | nil => exact fun _ => nofun
  | cons frame rest =>
    have hcalls : b.Fits m.calls := ⟨hm.heap, fun item hitem => hm.items item (.inl hitem)⟩
    have hstate : b.Fits ({ bench := { stack := frame.stack, heap := m.calls.heap }, effects := m.effects } :
        ServiceState) := by
      refine ⟨hm.heap, fun item hitem => ?_⟩
      rcases hitem with hitem | hitem
      · refine hcalls.items item (.inl ⟨frame, ?_, Frame.mem_items.2 (.inl hitem)⟩)
        exact hframes ▸ List.mem_cons_self
      · exact hm.items item (.inr (.inr hitem))
    let context : ServiceContext :=
      { setting
        executing := frame.script.hash
        calling := m.calls.calling?
        entry := m.calls.entry?.getD frame.script.hash }
    have hsuits : b.Suits context.setting := hb
    have hkept := service.run_keeps hsuits _ _ rfl hstate
    dsimp only
    cases hrun : service.run context
        { bench := { stack := frame.stack, heap := m.calls.heap }, effects := m.effects } with
    | ok x s =>
      rw [hrun] at hkept
      obtain ⟨hgrows, hs, -⟩ := hkept
      refine ⟨hgrows, ⟨hs.heap, fun item hitem => ?_⟩, trivial⟩
      rcases hitem with hitem | hitem | hitem
      · exact (hcalls.withStack hframes hgrows hs.heap fun item hitem => hs.items item (.inl hitem)).items item hitem
      · exact (hm.items item (.inr (.inl hitem))).mono hgrows
      · exact hs.items item (.inr hitem)
    | error fault s =>
      rw [hrun] at hkept
      exact hkept

end MachineAction

open MachineAction

/-- Instructions that neither operate on the stack nor call a service nor copy from the alt stack leave the heap as it
is. -/
theorem Instruction.execute_spares (hb : b.Suits setting) (position : Nat) {i : Instruction} (hi : i.IsSmall)
    (hoperate : ∀ op, i ≠ .operate op) (hsyscall : ∀ id, i ≠ .syscall id) (hdup : i ≠ .dupFromAlt) :
    b.Spares h (fun _ => True) (i.execute setting position) := by
  cases i with
  | pushBytes data =>
    rw [execute]
    refine .check rfl fun hsize => onStack_spares (Operation.pushBytes_spares ?_)
    exact hb.literal data (Nat.le_of_not_lt hsize)
  | pushInt value =>
    obtain ⟨hlow, hhigh⟩ := hi value rfl
    exact onStack_spares (Operation.pushNumber_spares (hb.word (by omega) (by omega)))
  | nop => exact .pure trivial
  | jump offset => exact onCalls_spares (jump_spares _)
  | jumpIf expected offset =>
    refine onCalls_spares (.bind top_spares fun frame _ => .bind (.ofExcept (frame.target_answers _)) ?_)
    refine fun pointer _ => .bind (onTop_spares Operation.popBool_spares) fun popped _ => ?_
    have hmoved : b.Spares h (fun _ => True) (modifyTop ({ · with pointer })) := modifyTop_spares fun _ hframe => hframe
    split
    · exact hmoved
    · exact .pure trivial
  | call offset => exact call_spares _
  | ret => exact ret_spares
  | appCall target tail => exact appCall_spares hb.toAllows target tail
  | syscall id => exact absurd rfl (hsyscall id)
  | dupFromAlt => exact absurd rfl hdup
  | toAlt => exact onCalls_spares (.bind (onTop_spares Operation.pop_spares) fun item hitem => pushAlt_spares hitem)
  | fromAlt =>
    refine onCalls_spares (.bind popAlt_spares fun item hitem => ?_)
    exact onTop_spares (Operation.push_spares hitem)
  | operate op => exact absurd rfl (hoperate op)
  | initStatic count =>
    rw [execute]
    exact .check rfl fun _ => onCalls_spares (initStatic_spares count)
  | initSlots locals arguments =>
    rw [execute]
    exact .check rfl fun _ => onCalls_spares (initSlots_spares locals arguments)
  | load slot index =>
    refine onCalls_spares (.bind (load_spares slot index) fun item hitem => ?_)
    exact onTop_spares (Operation.push_spares hitem)
  | store slot index =>
    refine onCalls_spares (.bind (onTop_spares Operation.pop_spares) fun item hitem => ?_)
    exact store_spares slot index hitem
  | raise => exact .bind (onCalls_spares markThrown_spares) fun _ _ => .throw rfl
  | raiseUnless =>
    refine .bind (onStack_spares Operation.popBool_spares) fun passed _ => ?_
    cases passed with
    | true => exact .pure trivial
    | false => exact .bind (onCalls_spares markThrown_spares) fun _ _ => .throw rfl

/-- Every instruction keeps within bounds that suit the setting. -/
theorem Instruction.execute_keeps (hb : b.Suits setting) (position : Nat) {i : Instruction} (hi : i.IsSmall) :
    b.Preserves (i.execute setting position) := by
  intro h
  cases i with
  | syscall id => exact .after (findService_spares id) fun service _ => callService_keeps hb service h
  | dupFromAlt =>
    refine onCalls_keeps (.after peekAlt_spares fun item hitem => onTop_keeps ?_)
    exact .bind (Operation.duplicate_keeps hitem) fun k copy _ hcopy => (Operation.push_spares hcopy).done
  | operate op => exact onStack_keeps (op.run_keeps hb.toAllows _ h)
  | _ => exact (execute_spares hb position hi nofun nofun nofun).done

namespace Machine

variable {m n start : Machine}

/-! ### Steps -/

theorem price_spares (hb : b.Allows limits) (schedule : GasSchedule) (i : Instruction) :
    b.Spares h (fun _ => True) (price schedule i) := by
  have hkeys : b.Spares h (fun _ => True) multisigKeys := by
    refine .bind (Operation.peek_spares 0) fun item _ => ?_
    cases item with
    | array ref | struct ref => exact .bind Operation.heap_spares fun _ _ => .pure trivial
    | _ => exact .bind (.ofExcept (Item.toInteger_answers _)) fun _ _ => .pure trivial
  rcases price_cases schedule i with ⟨id, hprice⟩ | hprice | hprice
  · rw [hprice]
    exact .bind (findService_spares id) fun service _ => onStack_spares (service.price_spares hb schedule)
  · rw [hprice]
    exact .bind (onStack_spares hkeys) fun _ _ => .pure trivial
  · rw [hprice]
    exact .pure trivial

theorem fetch_spares : b.Spares h (fun found => found.1.IsSmall) fetch := by
  refine .bind (onCalls_spares top_spares) fun frame _ => ?_
  refine .bind (.modify fun m hheap _ => ⟨hheap, fun item => .inl⟩) fun _ _ => .ofExcept ?_
  exact (decode_answers _ _).mono fun _ hfound => hfound.2

theorem checkSteps_spares (limits : Limits) : b.Spares h (fun _ => True) (checkSteps limits) := by
  unfold checkSteps
  cases limits.steps with
  | some limit =>
    refine .bind .get fun m _ => ?_
    split
    · exact .throw rfl
    · exact .pure trivial
  | none => exact .pure trivial

theorem charge_spares (hb : b.Allows limits) (schedule : GasSchedule) (i : Instruction) :
    b.Spares h (fun _ => True) (charge schedule i) := by
  have hpaid (gas : GasMeter) (price : UInt64) : Answers (fun _ => True) (gas.charge price) :=
    .ite (fun _ => rfl) fun _ => trivial
  refine .bind (price_spares hb schedule i) fun price _ => .bind .get fun m _ => ?_
  exact .bind (.ofExcept (hpaid m.gas price)) fun gas _ => .modify fun m hheap _ => ⟨hheap, fun item => .inl⟩

theorem checkSize_spares (limits : Limits) : b.Spares h (fun _ => True) (checkSize limits) := by
  refine .bind .get fun m _ => ?_
  dsimp only
  split
  · exact .throw rfl
  · exact .pure trivial

/-- Every step keeps within bounds that suit the setting. -/
theorem step_keeps (hb : b.Suits setting) : b.Preserves (step setting) := by
  intro h
  refine .after fetch_spares fun (i, size) hi => .after (checkSteps_spares _) fun _ _ => ?_
  refine .after (charge_spares hb.toAllows _ i) fun _ _ => .after (onCalls_spares top_spares) fun frame hframe => ?_
  refine .after (onCalls_spares (setTop_spares hframe)) fun _ _ => ?_
  exact .bind (i.execute_keeps hb _ hi h) fun k _ _ _ => (checkSize_spares _).done

/-! ### Runs -/

/-- The machine has faulted or is within bounds, and it has not faulted for structs that nest without end, unless they
may. -/
def WithinBounds (m : Machine) (b : Bounds) : Prop :=
  (m.status = .faulted ∨ b.Fits m) ∧ (b.acyclic → m.fault ≠ some .endlessStruct)

/-- Pauses and breakpoints do not count. -/
theorem withinBounds_bare : m.bare.WithinBounds b ↔ m.WithinBounds b := by
  have hstatus : m.bare.status = .faulted ↔ m.status = .faulted := by
    unfold bare
    dsimp only
    split <;> simp_all
  have hfits : b.Fits m.bare ↔ b.Fits m := ⟨fun h => ⟨h.heap, h.items⟩, fun h => ⟨h.heap, h.items⟩⟩
  unfold WithinBounds
  rw [hstatus, hfits]
  rfl

theorem WithinBounds.advance (hb : b.Suits setting) (hlive : m.Live) (hm : m.status = .running)
    (hbounds : m.WithinBounds b) : (m.advance setting).WithinBounds b := by
  have hfits : b.Fits m := hbounds.1.resolve_left (by rw [hm]; decide)
  have hkept := step_keeps hb _ m rfl hfits
  rcases hlive.advance_eq_step setting hm with ⟨n, status, hstep, hn⟩ | ⟨fault, n, hstep, hn⟩
  · rw [hstep] at hkept
    obtain ⟨-, hfits, -⟩ := hkept
    rw [hn, WithinBounds, fault_of_step hstep]
    exact ⟨.inr ⟨hfits.heap, hfits.items⟩, hbounds.2⟩
  · rw [hstep] at hkept
    rw [hn]
    exact ⟨.inl rfl, fun hacyclic hfault => hkept hacyclic (Option.some.inj hfault)⟩

theorem load_spares (limits : Limits) (script : Bytes) (entry : Nat) {arguments : List Item}
    (harguments : ∀ item ∈ arguments, b.Holds h item) :
    b.Spares h (fun _ => True) (load limits script entry arguments) := by
  have hscript : b.Spares h (fun _ => True) (loadScript limits script) :=
    onCalls_spares (.bind (newFrame_spares _ (by simp)) fun frame hframe => pushFrame_spares _ hframe)
  refine .bind hscript fun _ _ => .bind (onCalls_spares (jump_spares _)) fun _ _ => ?_
  exact onStack_spares (Operation.pushAll_spares harguments)

/-- However a machine is driven that was given arguments within bounds, it is within bounds. -/
theorem withinBounds_of_debug {script : Bytes} {entry : Nat} {arguments : List Item} {heap : Heap}
    {calls : List DebugCall} (hb : b.Suits setting) (hgiven : b.HoldsGiven heap arguments)
    (hload : load setting.limits script entry arguments (initial setting.limits heap) = .ok () start)
    (hdebug : start.debug setting calls = some m) : m.WithinBounds (b.given heap arguments) := by
  have hinitial : (b.given heap arguments).Fits (initial setting.limits heap) := by
    refine ⟨hgiven.holdsHeap hb.none, fun item hitem => ?_⟩
    simp [Holder.Has, initial, CallStack.Has, Effects.Has, ChangeSet.get?] at hitem
  have harguments : ∀ item ∈ arguments, (b.given heap arguments).Holds heap item := fun item hitem =>
    hgiven.holds (.root hitem)
  have hloaded := load_spares setting.limits script entry harguments _ rfl hinitial
  rw [hload] at hloaded
  obtain ⟨-, hfits, -⟩ := hloaded
  have hfault : start.fault = none := by
    rw [(load_eq_ok hload).1]
    rfl
  obtain ⟨-, k, hrun⟩ := steps_of_driven hload hdebug
  have hstart : start.WithinBounds (b.given heap arguments) := ⟨.inr hfits, fun _ => by simp [hfault]⟩
  obtain ⟨-, hbounds⟩ := hrun.keeps (fun _ => WithinBounds.advance hb.given) (fresh_of_load hload).1 hstart
  exact withinBounds_bare.1 hbounds

/-! ### What a machine holds -/

/-- Every item in frames, static slots, results and notifications. -/
def held (m : Machine) : List Item :=
  m.calls.frames.flatMap Frame.items ++ m.calls.statics.toList.flatMap (·.getD []) ++ m.results ++
    m.effects.notifications.map (·.item)

theorem has_of_mem_held {item : Item} (hitem : item ∈ m.held) : Holder.Has m item := by
  simp only [held, List.mem_append, List.mem_flatMap, List.mem_map] at hitem
  rcases hitem with ((⟨frame, hframe, hitem⟩ | ⟨slot, hslot, hitem⟩) | hitem) | ⟨announced, hannounced, rfl⟩
  · exact .inl (.inl ⟨frame, hframe, hitem⟩)
  · cases slot with
    | none => cases hitem
    | some values => exact .inl (.inr ⟨values, Array.mem_toList_iff.1 hslot, hitem⟩)
  · exact .inr (.inl hitem)
  · exact .inr (.inr (.inl ⟨announced, hannounced, rfl⟩))

theorem mem_held_of_mem_items {item : Item} (hitem : item ∈ m.items) : item ∈ m.held := by
  simp only [items, CallStack.items, CallStack.staticItems, held, List.mem_append, List.mem_flatMap] at hitem ⊢
  rcases hitem with (hitem | ⟨ref, -, hitem⟩) | hitem
  · exact .inl (.inl (.inl hitem))
  · refine .inl (.inl (.inr ⟨m.calls.statics.getD ref none, ?_, hitem⟩))
    rw [Array.getD_eq_getD_getElem?] at hitem ⊢
    cases hslot : m.calls.statics[ref]? with
    | none =>
      rw [hslot] at hitem
      cases hitem
    | some slot => exact Array.mem_toList_iff.2 (Array.mem_of_getElem? hslot)
  · exact .inl (.inr hitem)

/-- Every item on stacks, in the slots of frames, among the results and in notifications. -/
def retained (m : Machine) : List Item := m.items ++ m.effects.notifications.map (·.item)

theorem mem_held_of_mem_retained {item : Item} (hitem : item ∈ m.retained) : item ∈ m.held := by
  rcases List.mem_append.1 hitem with hitem | hitem
  · exact mem_held_of_mem_items hitem
  · exact List.mem_append.2 (.inr hitem)

theorem Consistent.retained_eq_nil {limits : Limits} (h : m.Consistent limits) (hm : m.status = .faulted) :
    m.retained = [] := by
  obtain ⟨hframes, hresults, hnotifications, -⟩ := h.faulted hm
  simp [retained, items, CallStack.items, CallStack.staticItems, hframes, hresults, hnotifications]

/-- However a machine is driven that was given arguments within bounds, what can be reached from it is within bounds. -/
theorem holds_of_debug {script : Bytes} {entry : Nat} {arguments : List Item} {heap : Heap} {calls : List DebugCall}
    (hb : b.Suits setting) (hgiven : b.HoldsGiven heap arguments)
    (hload : load setting.limits script entry arguments (initial setting.limits heap) = .ok () start)
    (hdebug : start.debug setting calls = some m) {item : Item} (hitem : m.calls.heap.Reaches m.retained item) :
    (b.given heap arguments).HoldsHeap m.calls.heap ∧ (b.given heap arguments).Holds m.calls.heap item := by
  obtain ⟨hfits, -⟩ := withinBounds_of_debug hb hgiven hload hdebug
  rcases hfits with hfaulted | hfits
  · obtain ⟨-, k, hrun⟩ := steps_of_driven hload hdebug
    rw [(hrun.consistent hload).retained_eq_nil hfaulted] at hitem
    exact absurd hitem Heap.not_reaches_nil
  · refine ⟨hfits.heap, hfits.heap.reaches (fun other hother => ?_) hitem⟩
    exact hfits.items other (has_of_mem_held (mem_held_of_mem_retained hother))

end Machine
end LedgerVM
