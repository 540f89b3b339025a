import LedgerVM.Machine.CallStack
import LedgerVM.Proofs.Operator.Action

/-!
# Actions that keep a frame

No action on the call stack but the removal of a frame empties it.  Every other one, and every removal that is
followed by a new frame, leaves a frame wherever it found one (`CallAction.Grounded`).
-/

namespace LedgerVM

namespace CallAction

theorem pushFrame_eq_ok {maxDepth : Nat} {frame : Frame} {c d : CallStack} :
    pushFrame maxDepth frame c = .ok () d ↔
      c.frames.length < maxDepth ∧ d = { c with frames := frame :: c.frames } := by
  unfold pushFrame
  split
  · rename_i hfull
    constructor
    · intro h
      cases h
    · rintro ⟨hroom, -⟩
      omega
  · rename_i hroom
    constructor
    · intro h
      cases h
      exact ⟨Nat.lt_of_not_le hroom, rfl⟩
    · rintro ⟨-, rfl⟩
      rfl

theorem top_eq_ok {frame : Frame} {c d : CallStack} :
    top c = .ok frame d ↔ ∃ rest, c.frames = frame :: rest ∧ d = c := by
  unfold top
  cases hframes : c.frames with
  | nil => simp
  | cons f rest => simp [eq_comm]

theorem setTop_eq_ok {frame : Frame} {c d : CallStack} :
    setTop frame c = .ok () d ↔ ∃ f rest, c.frames = f :: rest ∧ d = { c with frames := frame :: rest } := by
  unfold setTop
  cases hframes : c.frames with
  | nil => simp
  | cons f rest =>
    constructor
    · intro h
      cases h
      exact ⟨f, rest, rfl, rfl⟩
    · rintro ⟨f', rest', hsame, rfl⟩
      cases hsame
      rfl

theorem modifyTop_eq_ok {f : Frame → Frame} {c d : CallStack} :
    modifyTop f c = .ok () d ↔ ∃ frame rest, c.frames = frame :: rest ∧ d = { c with frames := f frame :: rest } := by
  unfold modifyTop
  simp only [Action.bind_eq_ok, top_eq_ok, setTop_eq_ok]
  constructor
  · rintro ⟨frame, c, ⟨rest, hframes, rfl⟩, _, rest', hframes', rfl⟩
    rw [hframes] at hframes'
    cases hframes'
    exact ⟨frame, rest, hframes, rfl⟩
  · rintro ⟨frame, rest, hframes, rfl⟩
    exact ⟨frame, c, ⟨rest, hframes, rfl⟩, frame, rest, hframes, rfl⟩

theorem onTop_eq_ok {α : Type} {operation : Operation α} {x : α} {c d : CallStack} :
    onTop operation c = .ok x d ↔ ∃ frame rest w, c.frames = frame :: rest ∧
      operation { stack := frame.stack, heap := c.heap } = .ok x w ∧
      d = { c with frames := { frame with stack := w.stack } :: rest, heap := w.heap } := by
  unfold onTop
  cases hframes : c.frames with
  | nil => simp
  | cons frame rest =>
    constructor
    · intro h
      dsimp only at h
      split at h
      · rename_i y w hrun
        cases h
        exact ⟨frame, rest, w, rfl, hrun, rfl⟩
      · cases h
    · rintro ⟨frame', rest', w, hsame, hrun, rfl⟩
      cases hsame
      simp only [hrun]

theorem popFrame_eq_ok {frame : Frame} {c d : CallStack} :
    popFrame c = .ok frame d ↔ ∃ rest, c.frames = frame :: rest ∧ d = { c with frames := rest } := by
  unfold popFrame
  cases hframes : c.frames with
  | nil => simp
  | cons f rest =>
    constructor
    · intro h
      cases h
      exact ⟨rest, rfl, rfl⟩
    · rintro ⟨rest', hsame, rfl⟩
      cases hsame
      rfl

/-- The evaluation stack is taken away from the executing frame. -/
theorem takeStack_eq_ok {stack : List Item} {c d : CallStack} :
    takeStack c = .ok stack d ↔ ∃ frame rest, c.frames = frame :: rest ∧ stack = frame.stack ∧
      d = { c with frames := { frame with stack := [] } :: rest } := by
  constructor
  · intro h
    obtain ⟨frame, p, htop, htake⟩ := Action.bind_eq_ok.1 h
    obtain ⟨rest, hframes, rfl⟩ := top_eq_ok.1 htop
    obtain ⟨_, q, hset, hvalue⟩ := Action.bind_eq_ok.1 htake
    obtain ⟨f, rest', hframes', rfl⟩ := setTop_eq_ok.1 hset
    rw [hframes] at hframes'
    cases hframes'
    cases hvalue
    exact ⟨frame, rest, hframes, rfl, rfl⟩
  · rintro ⟨frame, rest, hframes, rfl, rfl⟩
    refine Action.bind_eq_ok.2 ⟨frame, c, top_eq_ok.2 ⟨rest, hframes, rfl⟩, ?_⟩
    exact Action.bind_eq_ok.2 ⟨⟨⟩, _, setTop_eq_ok.2 ⟨frame, rest, hframes, rfl⟩, rfl⟩

/-- Whenever the action succeeds on a call stack with a frame, it leaves one with a frame. -/
def Grounded {α : Type} (a : CallAction α) : Prop := Action.Ensures (fun c d => c.frames ≠ [] → d.frames ≠ []) a

namespace Grounded

variable {α β : Type}

theorem pure (x : α) : Grounded (Pure.pure x) := Action.Ensures.pure (fun _ => id) x

theorem throw (fault : Fault) : Grounded (MonadExcept.throw fault : CallAction α) := Action.Ensures.throw fault

theorem ofExcept (x : Except Fault α) : Grounded (Action.ofExcept x) := Action.Ensures.ofExcept (fun _ => id) x

theorem bind {a : CallAction α} {f : α → CallAction β} (ha : Grounded a) (hf : ∀ x, Grounded (f x)) :
    Grounded (a >>= f) :=
  Action.Ensures.bind (fun hst htu hs => htu (hst hs)) ha hf

theorem get : Grounded MonadState.get := by
  intro c x d h
  cases h
  exact id

theorem top : Grounded top := by
  intro c x d h
  unfold CallAction.top at h
  split at h
  · cases h
    exact id
  · cases h

theorem setTop (frame : Frame) : Grounded (setTop frame) := by
  intro c x d h _
  unfold CallAction.setTop at h
  split at h
  · cases h
    simp
  · cases h

theorem modifyTop (f : Frame → Frame) : Grounded (modifyTop f) := bind top fun _ => setTop _

theorem onTop (operation : Operation α) : Grounded (onTop operation) := by
  intro c x d h _
  unfold CallAction.onTop at h
  split at h
  · cases h
  · split at h
    · cases h
      simp
    · cases h

theorem pushFrame (maxDepth : Nat) (frame : Frame) : Grounded (pushFrame maxDepth frame) := by
  intro c x d h _
  obtain ⟨-, rfl⟩ := pushFrame_eq_ok.1 h
  exact List.cons_ne_nil _ _

/-- Whatever was done before, a frame that is put on the call stack is there. -/
theorem bind_pushFrame (a : CallAction α) (maxDepth : Nat) (frame : α → Frame) :
    Grounded (a >>= fun x => CallAction.pushFrame maxDepth (frame x)) := by
  intro c x d h _
  obtain ⟨_, b, -, hpush⟩ := Action.bind_eq_ok.1 h
  obtain ⟨-, rfl⟩ := pushFrame_eq_ok.1 hpush
  exact List.cons_ne_nil _ _

theorem newFrame (script : Script) (stack : List Item) : Grounded (newFrame script stack) := by
  intro c x d h
  cases h
  exact id

theorem jump (target : Int) : Grounded (jump target) :=
  bind top fun _ => bind (ofExcept _) fun _ => setTop _

theorem takeStack : Grounded takeStack := bind top fun _ => bind (setTop _) fun _ => pure _

theorem pushAlt (item : Item) : Grounded (pushAlt item) := modifyTop _

theorem peekAlt : Grounded peekAlt := by
  refine bind top fun frame => ?_
  split
  · exact pure _
  · exact throw _

theorem popAlt : Grounded popAlt := by
  refine bind top fun frame => ?_
  split
  · exact bind (setTop _) fun _ => pure _
  · exact throw _

theorem slot? (kind : SlotKind) : Grounded (slot? kind) := by
  refine bind top fun frame => ?_
  cases kind with
  | static => exact bind get fun _ => pure _
  | «local» | argument => exact pure _

theorem setSlot (kind : SlotKind) (values : List Item) : Grounded (setSlot kind values) := by
  refine bind top fun frame => ?_
  cases kind with
  | static =>
    intro c x d h
    cases h
    exact id
  | «local» | argument => exact setTop _

theorem initStatic (count : Nat) : Grounded (initStatic count) := by
  refine bind (slot? _) fun values => ?_
  dsimp only
  split
  · exact bind (throw _) fun _ => setSlot _ _
  · exact setSlot _ _

theorem initSlots (locals arguments : Nat) : Grounded (initSlots locals arguments) := by
  have harguments : Grounded (do
      if arguments ≠ 0 then
        CallAction.setSlot .argument (← CallAction.onTop (.popMany arguments))) := by
    split
    · exact bind (onTop _) fun _ => setSlot _ _
    · exact pure _
  refine bind top fun frame => ?_
  dsimp only
  split
  · refine bind (throw _) fun _ => ?_
    split
    · exact bind (setSlot _ _) fun _ => harguments
    · exact harguments
  · split
    · exact bind (setSlot _ _) fun _ => harguments
    · exact harguments

theorem slot (kind : SlotKind) : Grounded (slot kind) := by
  refine bind (slot? kind) fun values => ?_
  split
  · exact pure _
  · exact throw _

theorem load (kind : SlotKind) (index : Nat) : Grounded (load kind index) := by
  refine bind (slot kind) fun values => ?_
  split
  · exact pure _
  · exact throw _

theorem store (kind : SlotKind) (index : Nat) (item : Item) : Grounded (store kind index item) := by
  refine bind (slot kind) fun values => ?_
  split
  · exact setSlot _ _
  · exact throw _

end Grounded
end CallAction
end LedgerVM
