import LedgerVM.Operator.Run
import LedgerVM.Proofs.Operator.Invariant

/-!
# Regular failures

Two faults say that something is wrong with a run and not with the script: that there is no frame to execute, and that
structs nest without end.  Every computation without a state fails with other faults only, which are regular
(`Answers`).
-/

namespace LedgerVM

variable {α β : Type}

/-- A script can bring the fault about, whatever its items are. -/
def Fault.isRegular : Fault → Bool
  | .noFrame | .endlessStruct => false
  | _ => true

/-- The computation gives a value of this kind or fails with a regular fault. -/
def Answers (Q : α → Prop) : Except Fault α → Prop
  | .ok x => Q x
  | .error fault => fault.isRegular = true

namespace Answers

variable {Q R : α → Prop}

theorem mono {x : Except Fault α} (hx : Answers R x) (h : ∀ a, R a → Q a) : Answers Q x := by
  cases x with
  | ok a => exact h a hx
  | error fault => exact hx

/-- A regular fault is not the lack of a frame. -/
theorem yields {x : Except Fault α} (hx : Answers Q x) : Yields Q x := by
  cases x with
  | ok a => exact hx
  | error fault =>
    rintro rfl
    cases hx

theorem bind {x : Except Fault α} {f : α → Except Fault β} {S : β → Prop} (hx : Answers R x)
    (hf : ∀ a, R a → Answers S (f a)) : Answers S (x >>= f) := by
  cases x with
  | ok a => exact hf a hx
  | error fault => exact hx

theorem ite {p : Prop} [Decidable p] {x y : Except Fault α} (hx : p → Answers Q x) (hy : ¬p → Answers Q y) :
    Answers Q (if p then x else y) := by
  split
  · rename_i hp
    exact hx hp
  · rename_i hp
    exact hy hp

theorem mapError {ε : Type} {report : ε → Fault} (hreport : ∀ e, (report e).isRegular = true) (x : Except ε α) :
    Answers (fun a => x = .ok a) (x.mapError report) := by
  cases x with
  | ok a => rfl
  | error e => exact hreport e

theorem mapM {f : β → Except Fault α} {items : List β} (hf : ∀ item ∈ items, Answers R (f item)) :
    Answers (fun xs => ∀ x ∈ xs, R x) (items.mapM f) := by
  induction items with
  | nil =>
    intro x hx
    cases hx
  | cons item items ih =>
    rw [List.mapM_cons]
    refine bind (hf item List.mem_cons_self) fun x hx => ?_
    refine bind (ih fun y hy => hf y (List.mem_cons_of_mem item hy)) fun xs hxs => ?_
    intro y hy
    rcases List.mem_cons.1 hy with rfl | hy
    · exact hx
    · exact hxs y hy

end Answers

/-! ### Coercions -/

namespace Item

theorem toBytes_answers (item : Item) : Answers (fun bytes => item.encoding? = some bytes) item.toBytes := by
  unfold toBytes
  split
  · assumption
  · rfl

theorem toInteger_answers (item : Item) : Answers (fun _ => True) item.toInteger := by
  cases item with
  | integer value | boolean value => trivial
  | byteArray bytes => exact .ite (fun _ => rfl) fun _ => trivial
  | array ref | struct ref | map ref | interface handle => rfl

theorem toListRef_answers (item : Item) : Answers (fun ref => item.cell? = some (.list ref)) item.toListRef := by
  cases item <;> rfl

theorem toMapRef_answers (item : Item) : Answers (fun ref => item.cell? = some (.map ref)) item.toMapRef := by
  cases item <;> rfl

theorem toEntity_answers {α : Type} (expected : Mismatch) (select : Entity → Option α) (item : Item) :
    Answers (fun x => ∃ handle, item = .interface handle ∧ select handle.entity = some x)
      (item.toEntity expected select) := by
  cases item with
  | interface handle =>
    rw [toEntity]
    cases hselect : select handle.entity with
    | some x => exact ⟨handle, rfl, hselect⟩
    | none => rfl
  | _ => rfl

end Item

theorem MapKey.ofItem_answers (item : Item) : Answers (fun key => key.item = item) (ofItem item) := by
  unfold ofItem
  split
  · rfl
  · rfl

theorem elementIndex_answers (key : Item) (length : Nat) : Answers (fun _ => True) (elementIndex key length) :=
  .bind key.toInteger_answers fun _ _ => .ite (fun _ => trivial) fun _ => rfl

theorem BinaryOperator.apply_answers (op : BinaryOperator) (x y : Int) : Answers (fun _ => True) (op.apply x y) := by
  cases op with
  | div | mod => exact .ite (fun _ => rfl) fun _ => trivial
  | _ => trivial

end LedgerVM
