import LedgerVM.Script.Opcode

/-!
# The table of opcodes

Which bytes are opcodes, how listings name them and what follows them.  Literals and the calls of services and contracts
have operands of their own kind and are left out.  Scripts are read as the table says: a byte stands for an instruction
of the name in the table, and no other byte does (`Opcode.lookup_alone`, `Opcode.lookup_jumps`, `Opcode.lookup_slots`).
-/

namespace LedgerVM.Opcode

/-- The opcodes that take no operand, with the names that listings show for them. -/
def alone : List (UInt8 × String) :=
  [(0x00, "PUSH0"), (0x4F, "PUSH-1"), (0x51, "PUSH1"), (0x52, "PUSH2"), (0x53, "PUSH3"), (0x54, "PUSH4"),
    (0x55, "PUSH5"), (0x56, "PUSH6"), (0x57, "PUSH7"), (0x58, "PUSH8"), (0x59, "PUSH9"), (0x5A, "PUSH10"),
    (0x5B, "PUSH11"), (0x5C, "PUSH12"), (0x5D, "PUSH13"), (0x5E, "PUSH14"), (0x5F, "PUSH15"), (0x60, "PUSH16"),
    (0x61, "NOP"), (0x66, "RET"), (0x6A, "DUPFROMALTSTACK"), (0x6B, "TOALTSTACK"), (0x6C, "FROMALTSTACK"),
    (0x6D, "XDROP"), (0x72, "XSWAP"), (0x73, "XTUCK"), (0x74, "DEPTH"), (0x75, "DROP"), (0x76, "DUP"), (0x77, "NIP"),
    (0x78, "OVER"), (0x79, "PICK"), (0x7A, "ROLL"), (0x7B, "ROT"), (0x7C, "SWAP"), (0x7D, "TUCK"),
    (0x7E, "CAT"), (0x7F, "SUBSTR"), (0x80, "LEFT"), (0x81, "RIGHT"), (0x82, "SIZE"),
    (0x83, "INVERT"), (0x84, "AND"), (0x85, "OR"), (0x86, "XOR"), (0x87, "EQUAL"),
    (0x8B, "INC"), (0x8C, "DEC"), (0x8D, "SIGN"), (0x8F, "NEGATE"), (0x90, "ABS"), (0x91, "NOT"), (0x92, "NZ"),
    (0x93, "ADD"), (0x94, "SUB"), (0x95, "MUL"), (0x96, "DIV"), (0x97, "MOD"), (0x98, "SHL"), (0x99, "SHR"),
    (0x9A, "BOOLAND"), (0x9B, "BOOLOR"), (0x9C, "NUMEQUAL"), (0x9E, "NUMNOTEQUAL"), (0x9F, "LT"), (0xA0, "GT"),
    (0xA1, "LTE"), (0xA2, "GTE"), (0xA3, "MIN"), (0xA4, "MAX"), (0xA5, "WITHIN"),
    (0xA7, "SHA1"), (0xA8, "SHA256"), (0xA9, "HASH160"), (0xAA, "HASH256"), (0xAC, "CHECKSIG"), (0xAD, "VERIFY"),
    (0xAE, "CHECKMULTISIG"),
    (0xC0, "ARRAYSIZE"), (0xC1, "PACK"), (0xC2, "UNPACK"), (0xC3, "PICKITEM"), (0xC4, "SETITEM"), (0xC5, "NEWARRAY"),
    (0xC6, "NEWSTRUCT"), (0xC7, "NEWMAP"), (0xC8, "APPEND"), (0xC9, "REVERSE"), (0xCA, "REMOVE"), (0xCB, "HASKEY"),
    (0xCC, "KEYS"), (0xCD, "VALUES"), (0xF0, "THROW"), (0xF1, "THROWIFNOT")]

/-- The opcodes of jumps and calls, behind which an offset follows, with their names. -/
def jumps : List (UInt8 × String) := [(0x62, "JMP"), (0x63, "JMPIF"), (0x64, "JMPIFNOT"), (0x65, "CALL")]

/-- The opcodes of slots, with their names and the number of bytes that follow each. -/
def slots : List (UInt8 × String × Nat) :=
  [(0xD0, "INITSSLOT", 1), (0xD1, "INITSLOT", 2), (0xD2, "LDSFLD", 1), (0xD3, "STSFLD", 1), (0xD4, "LDLOC", 1),
    (0xD5, "STLOC", 1), (0xD6, "LDARG", 1), (0xD7, "STARG", 1)]

/-! ### How opcodes are read -/

/-- The instruction of an opcode that takes no operand, if the byte is one. -/
def alone? (op : UInt8) : Option Instruction :=
  if op = push0 then some (.pushBytes [])
  else if op = pushMinusOne then some (.pushInt (-1))
  else if push1 ≤ op ∧ op ≤ push16 then some (.pushInt (op.toNat - 0x50))
  else plain? op

/-- The instruction of a slot opcode with an operand, if the byte is one and the operand is as wide as it takes. -/
def withOperand? (op : UInt8) : (operand : Bytes) → Option Instruction
  | [index] => (withIndex? op).map (· index.toNat)
  | [locals, arguments] => if op = initSlots then some (.initSlots locals.toNat arguments.toNat) else none
  | _ => none

variable (op : UInt8)

theorem lookup_alone : alone.lookup op = (alone? op).map Instruction.text := by
  have hall : ∀ n < 256, alone.lookup (UInt8.ofNat n) = (alone? (UInt8.ofNat n)).map Instruction.text := by
    decide +kernel
  have hop := hall op.toNat op.toNat_lt
  rwa [UInt8.ofNat_toNat] at hop

private theorem lookup_eq_none {op : UInt8} {β : Type} {table : List (UInt8 × β)} (h : op ∉ table.map Prod.fst) :
    table.lookup op = none := by
  rw [List.lookup_eq_none_iff]
  rintro entry hentry
  rw [bne_iff_ne]
  rintro rfl
  exact h (List.mem_map_of_mem hentry)

theorem lookup_jumps (offset : Int) :
    (jumps.lookup op).map (fun name => s!"{name} {Instruction.offsetText offset}") =
      (withOffset? op).map fun make => (make offset).text := by
  by_cases hop : op ∈ jumps.map Prod.fst
  · simp only [jumps, List.map_cons, List.map_nil, List.mem_cons, List.not_mem_nil, or_false] at hop
    rcases hop with rfl | rfl | rfl | rfl
    all_goals rfl
  · have hnone : withOffset? op = none := by
      simp only [jumps, List.map_cons, List.map_nil, List.mem_cons, List.not_mem_nil, or_false, not_or] at hop
      unfold withOffset?
      split
      all_goals simp_all
    rw [lookup_eq_none hop, hnone]
    rfl

theorem lookup_slots (operand : Bytes) :
    (slots.lookup op).bind (fun (name, width) =>
        if operand.length = width then some (operand.foldl (fun text byte => s!"{text} {byte.toNat}") name)
        else none) =
      (withOperand? op operand).map Instruction.text := by
  by_cases hop : op ∈ slots.map Prod.fst
  · simp only [slots, List.map_cons, List.map_nil, List.mem_cons, List.not_mem_nil, or_false] at hop
    rcases hop with rfl | rfl | rfl | rfl | rfl | rfl | rfl | rfl
    -- no opcode of the table takes more than two bytes
    all_goals rcases operand with _ | ⟨first, _ | ⟨second, _ | ⟨third, rest⟩⟩⟩
    all_goals rfl
  · have hnone : withOperand? op operand = none := by
      simp only [slots, List.map_cons, List.map_nil, List.mem_cons, List.not_mem_nil, or_false, not_or] at hop
      unfold withOperand?
      split
      · unfold withIndex?
        split
        all_goals simp_all
      · simp_all [initSlots]
      · rfl
    rw [lookup_eq_none hop, hnone]
    rfl

end LedgerVM.Opcode
