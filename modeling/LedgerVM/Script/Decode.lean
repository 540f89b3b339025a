import LedgerVM.Bytes.Signed
import LedgerVM.Fault
import LedgerVM.Script.Opcode
import LedgerVM.Script.ServiceId

/-!
# Decoding scripts

An instruction is read off a script at a position, together with the number of bytes it takes.
Behind the last byte a script returns, so that reading there gives a return of no size.

* `decode`: the instruction at a position.
* `listing`: the instructions from a position on, up to the end of the script or the first that
  cannot be read.
-/

namespace LedgerVM

/-- The largest literal that a script may hold. -/
def literalLimit : Nat := 1024 * 1024

/-- The longest name of a service in a script. -/
def serviceNameLimit : Nat := 252

/-- The `length` bytes of an operand that start `offset` bytes behind the opcode. -/
def operandBytes (opcode : UInt8) (position : Nat) (rest : Bytes) (offset length : Nat) :
    Except Fault Bytes :=
  let bytes := (rest.drop offset).take length
  if bytes.length = length then .ok bytes else .error (.truncatedOperand opcode position)

/-- The instruction with this opcode, which stands at `position`, and the bytes behind it. -/
def decodeOpcode (opcode : UInt8) (position : Nat) (rest : Bytes) :
    Except Fault (Instruction × Nat) := do
  let operand := operandBytes opcode position rest
  let number (width : Nat) : Except Fault Nat := do return Bytes.toNat (← operand 0 width)
  if opcode ≤ Opcode.pushBytesLast then
    return (.pushBytes (← operand 0 opcode.toNat), 1 + opcode.toNat)
  else if opcode = Opcode.pushData1 then
    let length ← number 1
    return (.pushBytes (← operand 1 length), 2 + length)
  else if opcode = Opcode.pushData2 then
    let length ← number 2
    return (.pushBytes (← operand 2 length), 3 + length)
  else if opcode = Opcode.pushData4 then
    let length ← number 4
    if literalLimit < length then throw (.itemTooLarge length literalLimit)
    return (.pushBytes (← operand 4 length), 5 + length)
  else if opcode = Opcode.pushMinusOne then
    return (.pushInt (-1), 1)
  else if Opcode.push1 ≤ opcode ∧ opcode ≤ Opcode.push16 then
    return (.pushInt (opcode.toNat - 0x50), 1)
  else if opcode = Opcode.appCall ∨ opcode = Opcode.tailCall then
    match Digest.ofBytes? 20 (← operand 0 20) with
    | some target => return (.appCall target (opcode = Opcode.tailCall), 21)
    | none => throw (.truncatedOperand opcode position)
  else if opcode = Opcode.syscall then
    let length ← number 1
    if serviceNameLimit < length then throw .invalidServiceName
    let name ← operand 1 length
    if length = 4 then return (.syscall (UInt32.ofNat (Bytes.toNat name)), 6)
    if !Bytes.isAscii name then throw .invalidServiceName
    return (.syscall (serviceId name), 2 + length)
  else if opcode = Opcode.initSlots then
    let sizes ← operand 0 2
    return (.initSlots (Bytes.toNat (sizes.take 1)) (Bytes.toNat (sizes.drop 1)), 3)
  else
    match Opcode.plain? opcode, Opcode.withOffset? opcode, Opcode.withIndex? opcode with
    | some instruction, _, _ => return (instruction, 1)
    | none, some instruction, _ => return (instruction (Bytes.toInt (← operand 0 2)), 3)
    | none, none, some instruction => return (instruction (← number 1), 2)
    | none, none, none => throw (.unknownOpcode opcode position)

/-- The instruction at a position of a script and its size. -/
def decode (script : Bytes) (position : Nat) : Except Fault (Instruction × Nat) :=
  match script.drop position with
  | [] => .ok (.ret, 0)
  | opcode :: rest => decodeOpcode opcode position rest

/-- One line of a listing. -/
structure ListingLine where
  position : Nat
  size : Nat
  instruction : Instruction

/-- Reads at most `fuel` instructions from a position on, in front of the lines already read, last
first.  Gives the lines in order and the fault that ended the listing, if any. -/
def listingWithin (script : Bytes) :
    (fuel position : Nat) → List ListingLine → List ListingLine × Option Fault
  | 0, _, lines => (lines.reverse, none)
  | fuel + 1, position, lines =>
    match decode script position with
    | .error fault => (lines.reverse, some fault)
    | .ok (instruction, size) =>
      let lines := { position, size, instruction } :: lines
      if size = 0 then (lines.reverse, none) else listingWithin script fuel (position + size) lines

/-- The instructions from a position on, up to and with the return behind the end of the script.
Every instruction takes at least one byte, so there are no more than the script has bytes. -/
def listing (script : Bytes) (start : Nat) : List ListingLine × Option Fault :=
  listingWithin script (script.length + 1) start []

end LedgerVM
