import LedgerVM.Bytes.Signed
import LedgerVM.Script.Opcode
import LedgerVM.Script.ServiceId

/-!
# Assembling scripts

A script is put together from commands, each of which contributes the bytes of one instruction.
Literals take the shortest form that holds them.
-/

namespace LedgerVM

/-- A command that contributes to a script. -/
inductive Command where
  /-- An opcode on its own. -/
  | opcode (op : UInt8)
  /-- An opcode and its operand. -/
  | opcodeWith (op : UInt8) (operand : Bytes)
  | pushInt (value : Int)
  | pushBool (value : Bool)
  | pushBytes (data : Bytes)
  /-- A jump or call by an offset relative to the opcode. -/
  | jump (op : UInt8) (offset : Int16)
  /-- A call of a service by its name. -/
  | syscall (name : String)
  /-- A call of a service by its id. -/
  | syscallId (name : String)
  /-- A call of a contract, in place of the frame if `tail`. -/
  | appCall (target : Hash160) (tail : Bool)

namespace Command

/-- A literal behind the opcode that holds its length in the fewest bytes. -/
def literal (data : Bytes) : Bytes :=
  let size := data.length
  if size = 0 then [Opcode.push0]
  else if size ≤ Opcode.pushBytesLast.toNat then UInt8.ofNat size :: data
  else if size < UInt8.size then Opcode.pushData1 :: (Bytes.ofNat 1 size ++ data)
  else if size < UInt16.size then Opcode.pushData2 :: (Bytes.ofNat 2 size ++ data)
  else Opcode.pushData4 :: (Bytes.ofNat 4 size ++ data)

/-- The bytes a command contributes. -/
def bytes : Command → Bytes
  | opcode op => [op]
  | opcodeWith op operand => op :: operand
  | pushInt value =>
    if value = -1 then [Opcode.pushMinusOne]
    else if value = 0 then [Opcode.push0]
    else if 0 < value ∧ value ≤ 16 then [UInt8.ofNat (0x50 + value.toNat)]
    else literal (Bytes.ofInt value)
  | pushBool value => [if value then Opcode.push1 else Opcode.push0]
  | pushBytes data => literal data
  | jump op offset => op :: Bytes.ofNat 2 offset.toUInt16.toNat
  | syscall name =>
    let name := Bytes.ofText name
    Opcode.syscall :: UInt8.ofNat name.length :: name
  | syscallId name => Opcode.syscall :: 4 :: Bytes.ofNat 4 (serviceId (Bytes.ofText name)).toNat
  | appCall target tail => (if tail then Opcode.tailCall else Opcode.appCall) :: target.bytes

end Command

/-- The script that commands make up. -/
def assemble (commands : List Command) : Bytes := commands.flatMap Command.bytes

end LedgerVM
