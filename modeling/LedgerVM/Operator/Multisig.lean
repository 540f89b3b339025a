import LedgerVM.Ledger.Transaction.Encoding
import LedgerVM.Operator.Workbench
import LedgerVM.Signature.Verify

/-!
# Signatures of the transaction

Scripts check signatures of the transaction they run for.  Several signatures are checked against an
ordered list of keys: every signature must be valid under a key of its own, in the order of the
keys.
-/

namespace LedgerVM

/-- Assigns signatures to keys in order, each to the first key behind the last one used under which
it is valid.  Stops as soon as fewer keys than signatures are left. -/
def matchInOrder (valid : (signature key : Bytes) → Bool) : (signatures keys : List Bytes) → Bool
  | [], _ => true
  | _ :: _, [] => false
  | s :: ss, k :: ks =>
    if valid s k then matchInOrder valid ss ks
    else if ks.length ≤ ss.length then false
    else matchInOrder valid (s :: ss) ks

namespace Operation

/-- The message that signatures of the transaction commit to. -/
def signatureMessage (transaction : Option Transaction) : Operation Bytes :=
  match transaction with
  | some tx => return tx.encode
  | none => throw (.refused .noContainerToVerify)

/-- Takes byte strings: an array or struct of them, or their positive number and then each from the
stack. -/
def popByteList : Operation (List Bytes) := do
  let item ← pop
  match item with
  | .array ref | .struct ref => Action.ofExcept (((← heap).list ref).mapM Item.toBytes)
  | _ =>
    let count := (index? (← Action.ofExcept item.toInteger)).getD 0
    if count = 0 || (← depth) < count then throw (.refused .multisigItemCount)
    Action.ofExcept ((← popMany count).mapM Item.toBytes)

/-- Checks one signature of the transaction. -/
def checkSig (transaction : Option Transaction) : Operation Unit := do
  let publicKey ← popBytes
  let signature ← popBytes
  let message ← signatureMessage transaction
  pushBool (Signature.verify message signature publicKey)

/-- Checks one signature of a message on the stack. -/
def verify : Operation Unit := do
  let publicKey ← popBytes
  let signature ← popBytes
  let message ← popBytes
  pushBool (Signature.verify message signature publicKey)

/-- Checks signatures of the transaction against a list of keys, by any rule of what a valid
signature is. -/
def checkMultisigWith (valid : (message signature key : Bytes) → Bool)
    (transaction : Option Transaction) : Operation Unit := do
  let publicKeys ← popByteList
  let signatures ← popByteList
  if publicKeys.isEmpty || signatures.isEmpty || publicKeys.length < signatures.length then
    throw (.refused .multisigCount)
  let message ← signatureMessage transaction
  pushBool (matchInOrder (valid message) signatures publicKeys)

/-- Checks signatures of the transaction against a list of keys. -/
def checkMultisig (transaction : Option Transaction) : Operation Unit :=
  checkMultisigWith Signature.verify transaction

end Operation
end LedgerVM
