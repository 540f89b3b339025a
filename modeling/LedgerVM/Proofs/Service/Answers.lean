import LedgerVM.Proofs.Operator.Answers
import LedgerVM.Service.Run

/-!
# What services look up

What services read off the ledger and out of bytes is there or fails with a regular fault.
-/

namespace LedgerVM

theorem Ledger.spentOutputs_answers (ledger : Ledger) (tx : Transaction) :
    Answers (fun _ => True) (ledger.spentOutputs tx) := by
  have houtput (input : Input) : Answers (fun _ => True) (ledger.spentOutput input) := by
    refine .bind (.mapError (fun _ => rfl) _) fun found _ => ?_
    cases found with
    | none => rfl
    | some previous =>
      dsimp only
      split
      · trivial
      · rfl
  exact .mono (.mapM fun input _ => houtput input) fun _ _ => trivial

theorem Ledger.witnesses_answers (ledger : Ledger) (tx : Transaction) :
    Answers (fun _ => True) (ledger.witnesses tx) := .bind (ledger.spentOutputs_answers tx) fun _ _ => trivial

theorem Ledger.checkStorage_answers (ledger : Ledger) (context : StorageContext) :
    Answers (fun _ => True) (ledger.checkStorage context) := by
  refine .bind (.mapError (fun _ => rfl) _) fun found _ => ?_
  cases found with
  | none => rfl
  | some contract => exact .ite (fun _ => rfl) fun _ => trivial

theorem witnessHash_answers (witness : Bytes) : Answers (fun _ => True) (witnessHash witness) := by
  unfold witnessHash
  split
  · trivial
  · exact .ite (fun _ => trivial) fun _ => rfl

theorem BlockId.ofBytes_answers (bytes : Bytes) : Answers (fun _ => True) (ofBytes bytes) := by
  unfold BlockId.ofBytes
  split
  · trivial
  · exact .ite (fun _ => .ite (fun _ => trivial) fun _ => rfl) fun _ => rfl

end LedgerVM
