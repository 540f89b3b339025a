import LedgerVM.Item.Rendering
import LedgerVM.Machine.Basic

/-!
# Receipts

What is reported of an invocation and of a block.  Items are rendered as JSON when the receipt is
made, so that a receipt does not hang on the heap of its run.

* `Receipt.ofMachine`: the receipt of a run that is over.
* `Receipt.toJson`, `Receipt.text`: its two forms.
* `BlockReceipt.gas`, `BlockReceipt.text`: the sum and the text of a block's receipts.  The sum is
  one of 64 bits, and where it does not fit the program panics.
-/

namespace LedgerVM

/-- A notification in a receipt. -/
structure NotificationRecord where
  scriptHash : Hash160
  state : Json

/-- What is reported of one invocation. -/
structure Receipt where
  /-- The hash of the transaction, zero for a bare script. -/
  txHash : Hash256
  status : Status
  gas : UInt64
  /-- The results, bottom first. -/
  stack : List Json
  notifications : List NotificationRecord
  logs : List String
  fault : Option Fault
  /-- The number of storage entries written or deleted. -/
  writes : Nat

namespace Receipt

/-- The receipt of a run that is over. -/
def ofMachine (txHash : Hash256) (m : Machine) : Receipt where
  txHash
  status := m.status
  gas := m.gas.consumed
  stack := m.results.map m.calls.heap.render
  notifications := m.effects.notifications.map fun n =>
    { scriptHash := n.scriptHash, state := m.calls.heap.render n.item }
  logs := m.effects.logs.map fun entry => entry.scriptHash.toHex ++ ": " ++ entry.message
  fault := m.fault
  writes := m.outcomeChanges.size

/-- The run halted. -/
def isHalt (r : Receipt) : Bool := r.status = .halted

/-- The top of the results. -/
def top? (r : Receipt) : Option Json := r.stack.getLast?

/-- The receipt as JSON. -/
def toJson (r : Receipt) : Json :=
  .object [
    ("tx_hash", .string r.txHash.toHex),
    ("state", .string r.status.name),
    ("gas_consumed", .number r.gas.toNat),
    ("stack", .array r.stack),
    ("notifications", .array (r.notifications.map fun n =>
      .object [("script_hash", .string n.scriptHash.toHex), ("state", n.state)])),
    ("logs", .array (r.logs.map .string)),
    ("error_code", .ofText? (r.fault.map Fault.code)),
    ("error", .ofText? (r.fault.map Fault.message)),
    ("storage_writes", .number r.writes)]

/-- Numbered lines, one for each of a list of texts. -/
def numbered (texts : List String) : List String :=
  texts.zipIdx.map fun (text, i) => s!"  [{i}] {text}"

/-- The lines of a receipt's text. -/
def lines (r : Receipt) : List String :=
  ["=== Transaction Receipt ===", s!"Tx: {r.txHash.toHex}", s!"State: {r.status.name}",
    s!"Gas: {r.gas.toNat}"] ++
  (r.fault.map fun fault => s!"Error: {fault.code} ({fault.message})").toList ++
  "Stack:" :: numbered (r.stack.map Json.compact) ++
  "Notifications:" ::
    numbered (r.notifications.map fun n => n.scriptHash.toHex ++ " " ++ n.state.compact) ++
  "Logs:" :: numbered r.logs ++
  [s!"Storage writes: {r.writes}"]

/-- The receipt as text, every line ended. -/
def text (r : Receipt) : String := String.join (r.lines.map (· ++ "\n"))

end Receipt

/-- What stops the program itself, where it has no error to give. -/
inductive Panic where
  /-- A sum does not fit in 64 bits. -/
  | addOverflow
  deriving DecidableEq, Repr

/-- What the program says as it stops. -/
def Panic.message : Panic → String
  | addOverflow => "attempt to add with overflow"

/-- The sum of two numbers of 64 bits, if it is one. -/
def checkedAdd (a b : UInt64) : Except Panic UInt64 :=
  if a.toNat + b.toNat < UInt64.size then .ok (a + b) else .error .addOverflow

/-- What is reported of a block: the receipts of its invocations in order. -/
structure BlockReceipt where
  blockHash : Hash256
  index : UInt32
  receipts : List Receipt
  /-- The number of writes of all invocations that halted. -/
  committed : Nat

namespace BlockReceipt

/-- The gas used by all invocations, added up in order. -/
def gas (r : BlockReceipt) : Except Panic UInt64 :=
  r.receipts.foldlM (fun sum receipt => checkedAdd sum receipt.gas) 0

/-- The number of invocations that halted. -/
def halted (r : BlockReceipt) : Nat := r.receipts.countP Receipt.isHalt

/-- The receipt as JSON. -/
def toJson (r : BlockReceipt) : Json :=
  .object [
    ("block_hash", .string r.blockHash.toHex),
    ("index", .number r.index.toNat),
    ("receipts", .array (r.receipts.map Receipt.toJson)),
    ("committed", .number r.committed)]

/-- The receipt as text, which tells the gas of the block. -/
def text (r : BlockReceipt) : Except Panic String := do
  let gas ← r.gas
  return s!"=== Block {r.index.toNat} ({r.blockHash.toHex}) ===\n" ++
    s!"Invocations: {r.receipts.length} ({r.halted} halted), " ++
    s!"gas {gas.toNat}, committed {r.committed}\n" ++
    String.join (r.receipts.map Receipt.text)

end BlockReceipt
end LedgerVM
