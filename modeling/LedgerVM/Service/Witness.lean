import LedgerVM.Hashing.Script
import LedgerVM.Service.State

/-!
# Witnesses of a transaction

The outputs that a transaction spends are found through the ledger.  Their owners, together with the
script hashes named by attributes, are those that must witness the transaction.
-/

namespace LedgerVM

/-- The output that an input spends. -/
def Ledger.spentOutput (ledger : Ledger) (input : Input) : Except Fault Output := do
  let some (_, previous) ← (ledger.transaction input.prevHash).mapError .ledger
    | throw (.refused .unknownReference)
  let some output := previous.outputs[input.prevIndex.toNat]?
    | throw (.refused .unknownReferenceOutput)
  return output

/-- The outputs that a transaction spends, in the order of its inputs. -/
def Ledger.spentOutputs (ledger : Ledger) (tx : Transaction) : Except Fault (List Output) :=
  tx.inputs.mapM ledger.spentOutput

/-- The script hashes that must witness a transaction. -/
def Ledger.witnesses (ledger : Ledger) (tx : Transaction) : Except Fault (List Hash160) := do
  return tx.attributeScriptHashes ++ (← ledger.spentOutputs tx).map Output.scriptHash

/-- The script hash that stands for a witness: the hash itself, or the hash of the script that
checks a signature under a public key of 33 bytes. -/
def witnessHash (witness : Bytes) : Except Fault Hash160 :=
  match Digest.ofBytes? 20 witness with
  | some hash => .ok hash
  | none =>
    if witness.length = 33 then .ok (Hashing.hash160 (0x21 :: witness ++ [0xAC]))
    else .error (.refused .witnessWidth)

end LedgerVM
