import LedgerVM.Proofs.Machine.CallStack
import LedgerVM.Machine.Execute

/-!
# Looser limits let happen what tighter ones do

An instruction looks at limits only to refuse what goes beyond them.  So whatever an operator, a service or an
instruction succeeds with under some limits it also succeeds with under looser ones
(`Instruction.execute_extends`).
-/

namespace LedgerVM

/-- Every limit of the first on sizes and depth is at most that of the second. -/
structure Limits.AtMost (tight loose : Limits) : Prop where
  stackSize : tight.stackSize ≤ loose.stackSize
  itemSize : tight.itemSize ≤ loose.itemSize
  arraySize : tight.arraySize ≤ loose.arraySize
  callDepth : tight.callDepth ≤ loose.callDepth

/-- The same setting with other limits. -/
def Setting.withLimits (limits : Limits) (setting : Setting) : Setting := { setting with limits }

section

variable {tight loose : Limits} (h : tight.AtMost loose)
include h

theorem SpliceOperator.run_extends (op : SpliceOperator) : Action.Extends (op.run tight) (op.run loose) := by
  have hsize := h.itemSize
  cases op with
  | cat => exact .bind (.refl _) fun second => .bind (.refl _) fun first => .check (by omega) (.refl _)
  | substr | left | right | size => exact .refl _

theorem Operation.popElements_extends : Action.Extends (popElements tight) (popElements loose) := by
  have hsize := h.arraySize
  refine .bind (.refl _) fun item => .bind (.refl _) fun found => ?_
  rcases found with _ | ⟨ref, items⟩ | ⟨ref, entries⟩
  case some.list => exact .refl _
  all_goals
    refine .bind (.refl _) fun value => ?_
    cases index? value with
    | none => exact .refl _
    | some count => exact .check (by omega) (.refl _)

theorem CollectionOperator.run_extends (op : CollectionOperator) :
    Action.Extends (op.run tight) (op.run loose) := by
  have hsize := h.arraySize
  cases op with
  | pack => exact .bind (.refl _) fun size => .check (by omega) (.refl _)
  | setItem =>
    refine .bind (.refl _) fun item => .bind (.refl _) fun value => .bind (.refl _) fun key =>
      .bind (.refl _) fun collection => ?_
    cases collection with
    | list ref items => exact .refl _
    | map ref entries =>
      refine .bind (.refl _) fun key => .check ?_ (.refl _)
      simp only [Bool.and_eq_true, decide_eq_true_eq]
      exact fun hfull => ⟨hfull.1, Nat.le_trans hsize hfull.2⟩
  | newArray => exact .bind (Operation.popElements_extends h) fun _ => .refl _
  | newStruct => exact .bind (Operation.popElements_extends h) fun _ => .refl _
  | append =>
    exact .bind (.refl _) fun item => .bind (.refl _) fun copy => .bind (.refl _) fun ⟨ref, items⟩ =>
      .check (by omega) (.refl _)
  | arraySize | unpack | pickItem | newMap | reverse | remove | hasKey | keys | values => exact .refl _

theorem Operator.run_extends (transaction : Option Transaction) (op : Operator) :
    Action.Extends (op.run tight transaction) (op.run loose transaction) := by
  cases op with
  | splice op => exact op.run_extends h
  | collection op => exact op.run_extends h
  | _ => exact .refl _

theorem Operation.pushBounded_extends (items : List Item) :
    Action.Extends (pushBounded tight items) (pushBounded loose items) := by
  have hsize := h.arraySize
  intro w x v hpush
  unfold pushBounded at hpush ⊢
  by_cases hlong : tight.arraySize < items.length
  · rw [if_pos hlong] at hpush
    cases hpush
  · rw [if_neg hlong] at hpush
    rw [if_neg (by omega)]
    exact hpush

theorem Operation.pushEntities_extends (entities : List Entity) :
    Action.Extends (pushEntities tight entities) (pushEntities loose entities) :=
  .bind (.refl _) fun _ => pushBounded_extends h _

end

/-- The same context in a setting with other limits. -/
def ServiceContext.withLimits (limits : Limits) (context : ServiceContext) : ServiceContext :=
  { context with setting := context.setting.withLimits limits }

theorem Service.run_extends {limits : Limits} {context : ServiceContext}
    (h : context.setting.limits.AtMost limits) (service : Service) :
    Action.Extends (service.run context) (service.run (context.withLimits limits)) := by
  cases service with
  | block service =>
    refine .within ?_
    cases service with
    | getTransactions => exact .bind (.refl _) fun ⟨_, _⟩ => Operation.pushBounded_extends h _
    | getTransactionCount | getTransaction => exact .refl _
  | transaction service =>
    refine .within (.bind (.refl _) fun tx => ?_)
    cases service with
    | getAttributes | getInputs | getOutputs => exact Operation.pushEntities_extends h _
    | getReferences => exact .bind (.refl _) fun outputs => Operation.pushEntities_extends h _
    | getHash | getType => exact .refl _
  | _ => exact .refl _

namespace MachineAction

theorem onTop_extends {α : Type} {a b : Operation α} (hab : Action.Extends a b) :
    Action.Extends (CallAction.onTop a) (CallAction.onTop b) := by
  intro c x d hrun
  unfold CallAction.onTop at hrun ⊢
  cases hframes : c.frames with
  | nil =>
    rw [hframes] at hrun
    cases hrun
  | cons frame rest =>
    rw [hframes] at hrun
    dsimp only at hrun ⊢
    split at hrun
    · rename_i w hw
      rw [hab _ _ _ hw]
      exact hrun
    · cases hrun

variable {setting : Setting} {limits : Limits} (h : setting.limits.AtMost limits)
include h

theorem pushFrame_extends (frame : Frame) :
    Action.Extends (CallAction.pushFrame setting.limits.callDepth frame)
      (CallAction.pushFrame limits.callDepth frame) := by
  intro c x d hpush
  obtain ⟨hroom, hd⟩ := CallAction.pushFrame_eq_ok.1 hpush
  exact CallAction.pushFrame_eq_ok.2 ⟨Nat.lt_of_lt_of_le hroom h.callDepth, hd⟩

theorem callService_extends (service : Service) :
    Action.Extends (callService setting service) (callService (setting.withLimits limits) service) := by
  intro m x n hcall
  unfold callService at hcall ⊢
  cases hframes : m.calls.frames with
  | nil =>
    rw [hframes] at hcall
    cases hcall
  | cons frame rest =>
    rw [hframes] at hcall
    dsimp only at hcall ⊢
    split at hcall
    · rename_i s hs
      have hs' : service.run (ServiceContext.withLimits limits _) _ = .ok _ _ :=
        Service.run_extends h service _ _ _ hs
      unfold ServiceContext.withLimits at hs'
      rw [hs']
      exact hcall
    · cases hcall

end MachineAction

open MachineAction in
/-- An instruction that succeeds does so with the same outcome under looser limits. -/
theorem Instruction.execute_extends {setting : Setting} {limits : Limits} (h : setting.limits.AtMost limits)
    (position : Nat) (i : Instruction) :
    Action.Extends (i.execute setting position) (i.execute (setting.withLimits limits) position) := by
  cases i with
  | pushBytes data =>
    have hsize : limits.itemSize < data.length → setting.limits.itemSize < data.length :=
      fun hlong => Nat.lt_of_le_of_lt h.itemSize hlong
    unfold Instruction.execute
    exact .check hsize (.refl _)
  | call offset =>
    exact .within (.bind (.refl _) fun frame => .bind (.refl _) fun pointer => .bind (.refl _) fun stack =>
      pushFrame_extends h _)
  | appCall target tail =>
    refine .bind (.refl _) fun hash => .bind (.refl _) fun found => ?_
    cases found with
    | none => exact .refl _
    | some contract =>
      refine .within (.bind (.refl _) fun stack => .bind (.refl _) fun frame => ?_)
      cases tail with
      | true => exact .bind (.refl _) fun _ => pushFrame_extends h _
      | false => exact pushFrame_extends h _
  | syscall id => exact .bind (.refl _) fun service => callService_extends h service
  | operate op =>
    exact .within (onTop_extends (op.run_extends h _))
  | _ => exact .refl _

end LedgerVM
