import LedgerVM.Main
import LedgerVM.Script.Assembly
import LedgerVM.Proofs.Store.Buffer
import LedgerVM.Proofs.Machine.Execute
import LedgerVM.Proofs.Machine.Step
import LedgerVM.Proofs.Machine.Run
import LedgerVM.Proofs.Machine.Debugger
import LedgerVM.Proofs.Machine.Writes
import LedgerVM.Proofs.Machine.Gas
import LedgerVM.Proofs.Machine.Extension
import LedgerVM.Proofs.Node.Atomicity
import LedgerVM.Proofs.Node.Block
import LedgerVM.Proofs.Machine.Limits
import LedgerVM.Proofs.Item.CopyInduction
import LedgerVM.Proofs.Item.Scope
import LedgerVM.Proofs.Operator.Invariant
import LedgerVM.Proofs.Operator.Confinement
import LedgerVM.Proofs.Service.Confinement
import LedgerVM.Proofs.Machine.Confinement
import LedgerVM.Proofs.Script.Decode
import LedgerVM.Proofs.Machine.Consistency
import LedgerVM.Proofs.Machine.Termination
import LedgerVM.Proofs.Service.Permission
import LedgerVM.Proofs.Machine.Capability
import LedgerVM.Proofs.Item.Tally
import LedgerVM.Proofs.Item.Nesting
import LedgerVM.Proofs.Item.Bounds
import LedgerVM.Proofs.Item.Copy
import LedgerVM.Proofs.Item.Equality
import LedgerVM.Proofs.Operator.Keeping
import LedgerVM.Proofs.Bytes.Signed
import LedgerVM.Proofs.Operator.Bounds
import LedgerVM.Proofs.Operator.Multisig
import LedgerVM.Proofs.Service.Answers
import LedgerVM.Proofs.Service.Bounds
import LedgerVM.Proofs.Machine.Bounds
import LedgerVM.Proofs.Machine.Size
import LedgerVM.Proofs.Machine.Nesting
import LedgerVM.Proofs.Operator.Copies
import LedgerVM.Proofs.Machine.Capacity
import LedgerVM.Proofs.Machine.Range
import LedgerVM.Proofs.Machine.Operands
import LedgerVM.Proofs.Integer.Range
import LedgerVM.Proofs.Operator.Arithmetic
import LedgerVM.Proofs.Machine.Account
import LedgerVM.Proofs.Node.Gas
import LedgerVM.Proofs.Machine.Transfer
import LedgerVM.Proofs.Machine.HandOver
import LedgerVM.Proofs.Machine.Isolation
import LedgerVM.Proofs.Machine.Pointer
import LedgerVM.Proofs.Machine.Assembly
import LedgerVM.Proofs.Ledger.Encoding
import LedgerVM.Proofs.Ledger.Chain
import LedgerVM.Proofs.Item.Coercion
import LedgerVM.Proofs.Item.History
import LedgerVM.Proofs.Operator.Heap
import LedgerVM.Proofs.Operator.Maps
import LedgerVM.Proofs.Machine.Maps
import LedgerVM.Proofs.Item.CopySize
import LedgerVM.Proofs.Machine.Copies
import LedgerVM.Proofs.Operator.Lookup
import LedgerVM.Proofs.Machine.Lookup
import LedgerVM.Proofs.Machine.Packing
import LedgerVM.Proofs.Item.Rendering
import LedgerVM.Proofs.Machine.Prices
import LedgerVM.Proofs.Integer.Encoding
import LedgerVM.Proofs.Node.BlockGas
import LedgerVM.Proofs.Machine.Pauses
import LedgerVM.Proofs.Service.Witness
import LedgerVM.Proofs.Machine.Reports
