import LedgerVM.Proofs.Bytes.Signed
import LedgerVM.Proofs.Script.Listing
import LedgerVM.Proofs.Script.Opcodes
import LedgerVM.Script.Assembly

/-!
# Reading assembled scripts

Every command that scripts can hold (`Command.Fits`) stands for one instruction (`Command.instruction?`).  What a
command contributes to a script is read as that instruction, of the size that the command contributes
(`Command.decode_bytes`), and as instructions are read off their own bytes alone, a script made of commands is listed
command by command (`listing_of_assemble`).
-/

namespace LedgerVM

namespace Command

/-- A command is one that scripts can hold: its opcode is one of the kind that the command takes, with an operand as
wide as it takes, its literal is no larger than a mebibyte, and its name is one that is not taken for an id. -/
def Fits : Command → Prop
  | opcode op => (Opcode.alone.lookup op).isSome
  | opcodeWith op operand => (Opcode.slots.lookup op).map Prod.snd = some operand.length
  | pushInt value => (Bytes.ofInt value).length ≤ 2 ^ 20
  | pushBytes data => data.length ≤ 2 ^ 20
  | jump op _ => (Opcode.jumps.lookup op).isSome
  | syscall name =>
    (Bytes.ofText name).isAscii ∧ (Bytes.ofText name).length ≤ 252 ∧ (Bytes.ofText name).length ≠ 4
  | pushBool _ | syscallId _ | appCall .. => True

instance : DecidablePred Fits
  | opcode op => inferInstanceAs (Decidable (Opcode.alone.lookup op).isSome)
  | opcodeWith op operand => inferInstanceAs (Decidable ((Opcode.slots.lookup op).map Prod.snd = some operand.length))
  | pushInt value => inferInstanceAs (Decidable ((Bytes.ofInt value).length ≤ 2 ^ 20))
  | pushBytes data => inferInstanceAs (Decidable (data.length ≤ 2 ^ 20))
  | jump op _ => inferInstanceAs (Decidable (Opcode.jumps.lookup op).isSome)
  | syscall name => inferInstanceAs (Decidable ((Bytes.ofText name).isAscii ∧ (Bytes.ofText name).length ≤ 252 ∧
      (Bytes.ofText name).length ≠ 4))
  | pushBool _ | syscallId _ | appCall .. => inferInstanceAs (Decidable True)

/-- What listings show for a command that names an opcode. -/
def shown? : Command → Option String
  | opcode op => Opcode.alone.lookup op
  | opcodeWith op operand => (Opcode.slots.lookup op).bind fun (name, width) =>
    if operand.length = width then some (operand.foldl (fun text byte => s!"{text} {byte.toNat}") name) else none
  | jump op offset => (Opcode.jumps.lookup op).map fun name => s!"{name} {Instruction.offsetText offset.toInt}"
  | _ => none

/-- The instruction that a command stands for, if it is one that scripts can hold. -/
def instruction? : Command → Option Instruction
  | opcode op => Opcode.alone? op
  | opcodeWith op operand => Opcode.withOperand? op operand
  | pushInt value =>
    if value = -1 ∨ 0 < value ∧ value ≤ 16 then some (.pushInt value)
    else if (Bytes.ofInt value).length ≤ literalLimit then some (.pushBytes (Bytes.ofInt value))
    else none
  | pushBool value => some (if value then .pushInt 1 else .pushBytes [])
  | pushBytes data => if data.length ≤ literalLimit then some (.pushBytes data) else none
  | jump op offset => (Opcode.withOffset? op).map (· offset.toInt)
  | syscall name =>
    let name := Bytes.ofText name
    if name.isAscii ∧ name.length ≤ serviceNameLimit ∧ name.length ≠ 4 then some (.syscall (serviceId name)) else none
  | syscallId name => some (.syscall (serviceId (Bytes.ofText name)))
  | appCall target tail => some (.appCall target tail)

/-- Scripts can hold a command if and only if it stands for an instruction. -/
theorem fits_iff (c : Command) : c.Fits ↔ c.instruction?.isSome := by
  have hchecked (p : Prop) [Decidable p] (i : Instruction) : p ↔ (if p then some i else none).isSome := by
    split <;> simp_all
  cases c with
  | opcode op => rw [Fits, Opcode.lookup_alone, Option.isSome_map, instruction?]
  | opcodeWith op operand =>
    have hshown := congrArg Option.isSome (Opcode.lookup_slots op operand)
    rw [Option.isSome_map] at hshown
    rw [instruction?, ← hshown, Fits]
    cases Opcode.slots.lookup op with
    | none => simp
    | some entry => simp [eq_comm, apply_ite Option.isSome]
  | jump op offset =>
    have hshown := congrArg Option.isSome (Opcode.lookup_jumps op offset.toInt)
    rw [Option.isSome_map, Option.isSome_map] at hshown
    rw [Fits, hshown, instruction?, Option.isSome_map]
  | pushInt value =>
    rw [Fits, instruction?]
    split
    · rename_i hsmall
      have hbyte : (Bytes.ofInt value).length ≤ 0 + 1 := (Bytes.length_ofInt_le 0 value).2 (by omega)
      exact iff_of_true (Nat.le_trans hbyte (by decide)) rfl
    · exact hchecked _ _
  | pushBytes data =>
    rw [Fits, instruction?]
    exact hchecked _ _
  | syscall name =>
    rw [Fits, instruction?]
    exact hchecked _ _
  | pushBool value | syscallId name | appCall target tail => exact iff_of_true trivial rfl

/-- A command is listed by the name of its opcode. -/
theorem text_of_shown {c : Command} {text : String} {i : Instruction} (h : c.shown? = some text)
    (hi : c.instruction? = some i) : i.text = text := by
  have hshown : c.instruction?.map Instruction.text = some text := by
    cases c with
    | opcode op => exact (Opcode.lookup_alone op).symm.trans h
    | opcodeWith op operand => exact (Opcode.lookup_slots op operand).symm.trans h
    | jump op offset =>
      rw [instruction?, Option.map_map]
      exact (Opcode.lookup_jumps op offset.toInt).symm.trans h
    | _ => cases h
  rw [hi] at hshown
  exact Option.some.inj hshown

end Command

/-! ### Operands -/

/-- What stands behind the bytes that are passed over is read. -/
theorem operandBytes_append (opcode : UInt8) (position : Nat) (front bytes back : Bytes) :
    operandBytes opcode position (front ++ (bytes ++ back)) front.length bytes.length = .ok bytes := by
  unfold operandBytes
  rw [List.drop_left, List.take_left]
  exact if_pos rfl

/-- The length in front of a literal is read, and then the literal. -/
theorem operandBytes_sized (opcode : UInt8) (position width : Nat) {data : Bytes}
    (h : data.length < Bytes.capacity width) :
    (do return Bytes.toNat (← operandBytes opcode position (Bytes.ofNat width data.length ++ data) 0 width)) =
        Except.ok (ε := Fault) data.length ∧
      operandBytes opcode position (Bytes.ofNat width data.length ++ data) width data.length = .ok data := by
  have hlength := operandBytes_append opcode position [] (Bytes.ofNat width data.length) data
  have hdata := operandBytes_append opcode position (Bytes.ofNat width data.length) data []
  rw [List.nil_append, List.length_nil, Bytes.length_ofNat] at hlength
  rw [List.append_nil, Bytes.length_ofNat] at hdata
  refine ⟨except_bind_eq_ok.2 ⟨_, hlength, ?_⟩, hdata⟩
  rw [Bytes.toNat_ofNat, Nat.mod_eq_of_lt h]
  rfl

theorem operandBytes_all (opcode : UInt8) (position : Nat) (bytes : Bytes) :
    operandBytes opcode position bytes 0 bytes.length = .ok bytes := by
  have hbytes := operandBytes_append opcode position [] bytes []
  rwa [List.nil_append, List.append_nil] at hbytes

/-! ### Opcodes -/

theorem decodeOpcode_plain {op : UInt8} {i : Instruction} (h : Opcode.plain? op = some i) (position : Nat)
    (rest : Bytes) : decodeOpcode op position rest = .ok (i, 1) := by
  unfold Opcode.plain? at h
  split at h
  all_goals cases h
  all_goals rfl

theorem decodeOpcode_small {op : UInt8} (h : Opcode.push1 ≤ op ∧ op ≤ Opcode.push16) (position : Nat) (rest : Bytes) :
    decodeOpcode op position rest = .ok (.pushInt (op.toNat - 0x50), 1) := by
  have hlow : 0x51 ≤ op.toNat := UInt8.le_iff_toNat_le.1 h.1
  have hbelow {b : UInt8} (hb : b.toNat < 0x51) : op ≠ b := by
    rintro rfl
    omega
  have hlong : ¬op ≤ Opcode.pushBytesLast := by
    intro hle
    have hhigh : op.toNat ≤ 0x4B := UInt8.le_iff_toNat_le.1 hle
    omega
  unfold decodeOpcode
  rw [if_neg hlong, if_neg (hbelow (by decide)), if_neg (hbelow (by decide)), if_neg (hbelow (by decide)),
    if_neg (hbelow (by decide)), if_pos h]
  rfl

theorem decodeOpcode_alone {op : UInt8} {i : Instruction} (h : Opcode.alone? op = some i) (position : Nat)
    (rest : Bytes) : decodeOpcode op position rest = .ok (i, 1) := by
  unfold Opcode.alone? at h
  split at h
  · rename_i hop
    cases h
    rw [hop]
    rfl
  split at h
  · rename_i hop
    cases h
    rw [hop]
    rfl
  split at h
  · rename_i hop
    cases h
    exact decodeOpcode_small hop position rest
  · exact decodeOpcode_plain h position rest

theorem decodeOpcode_withOffset {op : UInt8} {make : Int → Instruction} (h : Opcode.withOffset? op = some make)
    (position : Nat) {operand : Bytes} (hoperand : operand.length = 2) :
    decodeOpcode op position operand = .ok (make operand.toInt, 3) := by
  have hread := operandBytes_all op position operand
  rw [hoperand] at hread
  have hall : decodeOpcode op position operand =
      (operandBytes op position operand 0 2 >>= fun bytes => pure (make bytes.toInt, 3)) := by
    unfold Opcode.withOffset? at h
    split at h
    all_goals cases h
    all_goals rfl
  rw [hall, hread]
  rfl

theorem decodeOpcode_withOperand {op : UInt8} {operand : Bytes} {i : Instruction}
    (h : Opcode.withOperand? op operand = some i) (position : Nat) :
    decodeOpcode op position operand = .ok (i, 1 + operand.length) := by
  unfold Opcode.withOperand? at h
  split at h
  · rename_i index
    obtain ⟨make, hmake, rfl⟩ := Option.map_eq_some_iff.1 h
    unfold Opcode.withIndex? at hmake
    split at hmake
    all_goals cases hmake
    all_goals rfl
  · rename_i locals arguments
    split at h
    · rename_i hop
      cases h
      rw [hop]
      rfl
    · cases h
  · cases h

/-! ### Literals -/

section Literals

variable (position : Nat) {data : Bytes}

theorem decodeOpcode_pushBytes (h : data.length ≤ Opcode.pushBytesLast.toNat) :
    decodeOpcode (UInt8.ofNat data.length) position data = .ok (.pushBytes data, 1 + data.length) := by
  have hlast : Opcode.pushBytesLast.toNat < 256 := Opcode.pushBytesLast.toNat_lt
  have hop : (UInt8.ofNat data.length).toNat = data.length := by
    rw [UInt8.toNat_ofNat']
    omega
  have hle : UInt8.ofNat data.length ≤ Opcode.pushBytesLast := UInt8.le_iff_toNat_le.2 (by rwa [hop])
  unfold decodeOpcode
  rw [if_pos hle, hop]
  exact except_bind_eq_ok.2 ⟨data, operandBytes_all _ position data, rfl⟩

theorem decodeOpcode_pushData1 (h : data.length < UInt8.size) :
    decodeOpcode Opcode.pushData1 position (Bytes.ofNat 1 data.length ++ data) =
      .ok (.pushBytes data, 2 + data.length) := by
  obtain ⟨hlength, hdata⟩ := operandBytes_sized Opcode.pushData1 position 1 h
  unfold decodeOpcode
  rw [if_neg (by decide), if_pos rfl]
  exact except_bind_eq_ok.2 ⟨data.length, hlength, except_bind_eq_ok.2 ⟨data, hdata, rfl⟩⟩

theorem decodeOpcode_pushData2 (h : data.length < UInt16.size) :
    decodeOpcode Opcode.pushData2 position (Bytes.ofNat 2 data.length ++ data) =
      .ok (.pushBytes data, 3 + data.length) := by
  obtain ⟨hlength, hdata⟩ := operandBytes_sized Opcode.pushData2 position 2 h
  unfold decodeOpcode
  rw [if_neg (by decide), if_neg (by decide), if_pos rfl]
  exact except_bind_eq_ok.2 ⟨data.length, hlength, except_bind_eq_ok.2 ⟨data, hdata, rfl⟩⟩

theorem decodeOpcode_pushData4 (h : data.length ≤ literalLimit) :
    decodeOpcode Opcode.pushData4 position (Bytes.ofNat 4 data.length ++ data) =
      .ok (.pushBytes data, 5 + data.length) := by
  have hwide : data.length < Bytes.capacity 4 := Nat.lt_of_le_of_lt h (by decide)
  obtain ⟨hlength, hdata⟩ := operandBytes_sized Opcode.pushData4 position 4 hwide
  unfold decodeOpcode
  rw [if_neg (by decide), if_neg (by decide), if_neg (by decide), if_pos rfl]
  refine except_bind_eq_ok.2 ⟨data.length, hlength, ?_⟩
  rw [if_neg (Nat.not_lt.2 h)]
  exact except_bind_eq_ok.2 ⟨data, hdata, rfl⟩

end Literals

/-! ### Calls -/

section Calls

variable (position : Nat)

/-- A name of four bytes is an id; of any other name the id is computed. -/
theorem decodeOpcode_syscall {name : Bytes} (h : name.length ≤ serviceNameLimit) :
    decodeOpcode Opcode.syscall position (Bytes.ofNat 1 name.length ++ name) =
      if name.length = 4 then .ok (.syscall (UInt32.ofNat name.toNat), 6)
      else if !name.isAscii then .error .invalidServiceName
      else .ok (.syscall (serviceId name), 2 + name.length) := by
  have hbyte : name.length < Bytes.capacity 1 := Nat.lt_of_le_of_lt h (by decide)
  obtain ⟨hlength, hname⟩ := operandBytes_sized Opcode.syscall position 1 hbyte
  unfold decodeOpcode
  rw [if_neg (by decide), if_neg (by decide), if_neg (by decide), if_neg (by decide), if_neg (by decide),
    if_neg (by decide), if_neg (by decide), if_pos rfl]
  refine (except_bind_of_ok hlength _).trans ?_
  rw [if_neg (Nat.not_lt.2 h)]
  refine (except_bind_of_ok hname _).trans ?_
  repeat' split
  all_goals rfl

theorem decodeOpcode_appCall (target : Hash160) (tail : Bool) :
    decodeOpcode (if tail then Opcode.tailCall else Opcode.appCall) position target.bytes =
      .ok (.appCall target tail, 21) := by
  have hread (op : UInt8) : operandBytes op position target.bytes 0 20 = .ok target.bytes := by
    have hall := operandBytes_all op position target.bytes
    rwa [target.length_bytes] at hall
  unfold decodeOpcode
  cases tail with
  | true | false =>
    rw [if_neg (by decide), if_neg (by decide), if_neg (by decide), if_neg (by decide), if_neg (by decide),
      if_neg (by decide), if_pos (by decide)]
    refine except_bind_eq_ok.2 ⟨target.bytes, hread _, ?_⟩
    rw [Digest.ofBytes?_bytes]
    rfl

end Calls

namespace Command

/-- A literal is read whole, whichever form was the shortest. -/
theorem decode_literal {data : Bytes} (h : data.length ≤ literalLimit) :
    decode (literal data) 0 = .ok (.pushBytes data, (literal data).length) := by
  unfold literal
  dsimp only
  split
  · rename_i hnone
    rw [List.length_eq_zero_iff.1 hnone]
    rfl
  split
  · rename_i hnone hshort
    rw [List.length_cons, Nat.add_comm]
    exact decodeOpcode_pushBytes 0 hshort
  have hsum (width : Nat) : (Bytes.ofNat width data.length ++ data).length + 1 = width + 1 + data.length := by
    rw [List.length_append, Bytes.length_ofNat]
    omega
  split
  · rename_i hbyte
    rw [List.length_cons, hsum]
    exact decodeOpcode_pushData1 0 hbyte
  split
  · rename_i htwo
    rw [List.length_cons, hsum]
    exact decodeOpcode_pushData2 0 htwo
  · rw [List.length_cons, hsum]
    exact decodeOpcode_pushData4 0 h

/-- An integer is read as a small number or as a literal. -/
theorem decode_pushInt {value : Int} {i : Instruction} (h : (pushInt value).instruction? = some i) :
    decode (pushInt value).bytes 0 = .ok (i, (pushInt value).bytes.length) := by
  rw [instruction?] at h
  by_cases hminus : value = -1
  · rw [hminus] at h ⊢
    cases h
    rfl
  by_cases hsmall : 0 < value ∧ value ≤ 16
  · rw [if_pos (.inr hsmall)] at h
    cases h
    have hop : (UInt8.ofNat (0x50 + value.toNat)).toNat = 0x50 + value.toNat := by
      rw [UInt8.toNat_ofNat']
      omega
    have hbetween : Opcode.push1 ≤ UInt8.ofNat (0x50 + value.toNat) ∧
        UInt8.ofNat (0x50 + value.toNat) ≤ Opcode.push16 := by
      simp only [UInt8.le_iff_toNat_le, hop]
      show 0x51 ≤ 0x50 + value.toNat ∧ 0x50 + value.toNat ≤ 0x60
      omega
    have hread := decodeOpcode_small hbetween 0 []
    have hvalue : ((UInt8.ofNat (0x50 + value.toNat)).toNat : Int) - 0x50 = value := by
      rw [hop]
      omega
    rw [bytes, if_neg hminus, if_neg (by omega), if_pos hsmall]
    rwa [hvalue] at hread
  · rw [if_neg (by simp [hminus, hsmall])] at h
    split at h
    · rename_i hsize
      cases h
      by_cases hzero : value = 0
      · rw [hzero]
        rfl
      · rw [bytes, if_neg hminus, if_neg hzero, if_neg hsmall]
        exact decode_literal hsize
    · cases h

theorem decode_syscall {name : String} {i : Instruction} (h : (syscall name).instruction? = some i) :
    decode (syscall name).bytes 0 = .ok (i, (syscall name).bytes.length) := by
  simp only [instruction?] at h
  split at h
  · rename_i hname
    obtain ⟨hascii, hlength, hid⟩ := hname
    cases h
    have hread := decodeOpcode_syscall 0 hlength
    rw [if_neg hid, hascii] at hread
    have hlow : (Bytes.ofText name).length % 256 = (Bytes.ofText name).length :=
      Nat.mod_eq_of_lt (Nat.lt_of_le_of_lt hlength (by decide))
    rw [Bytes.ofNat, Bytes.ofNat, hlow] at hread
    rw [bytes, List.length_cons, List.length_cons, Nat.add_assoc, Nat.add_comm]
    exact hread
  · cases h

theorem decode_syscallId (name : String) :
    decode (syscallId name).bytes 0 = .ok (.syscall (serviceId (Bytes.ofText name)), (syscallId name).bytes.length) := by
  let id := serviceId (Bytes.ofText name)
  have hlength : (Bytes.ofNat 4 id.toNat).length = 4 := Bytes.length_ofNat 4 id.toNat
  have hid : UInt32.ofNat (Bytes.ofNat 4 id.toNat).toNat = id := by
    have hlt : id.toNat < Bytes.capacity 4 := id.toNat_lt
    rw [Bytes.toNat_ofNat, Nat.mod_eq_of_lt hlt, UInt32.ofNat_toNat]
  have hread := decodeOpcode_syscall 0 (Nat.le_trans (Nat.le_of_eq hlength) (show 4 ≤ serviceNameLimit by decide))
  rw [if_pos hlength, hid, hlength] at hread
  exact hread

theorem bytes_ne_nil (c : Command) : c.bytes ≠ [] := by
  have hliteral (data : Bytes) : literal data ≠ [] := by
    unfold literal
    dsimp only
    repeat' split
    all_goals exact List.cons_ne_nil _ _
  cases c with
  | pushInt value =>
    unfold bytes
    repeat' split
    all_goals first | exact List.cons_ne_nil _ _ | exact hliteral _
  | pushBytes data => exact hliteral data
  | _ => exact List.cons_ne_nil _ _

/-- What a command contributes is read as its instruction, and whole. -/
theorem decode_bytes {c : Command} {i : Instruction} (h : c.instruction? = some i) :
    decode c.bytes 0 = .ok (i, c.bytes.length) := by
  cases c with
  | opcode op =>
    rw [instruction?] at h
    exact decodeOpcode_alone h 0 []
  | opcodeWith op operand =>
    rw [instruction?] at h
    rw [bytes, List.length_cons, Nat.add_comm]
    exact decodeOpcode_withOperand h 0
  | pushInt value => exact decode_pushInt h
  | pushBool value =>
    cases h
    cases value <;> rfl
  | pushBytes data =>
    rw [instruction?] at h
    split at h
    · rename_i hsize
      cases h
      exact decode_literal hsize
    · cases h
  | jump op offset =>
    obtain ⟨make, hmake, rfl⟩ := Option.map_eq_some_iff.1 h
    have hread := decodeOpcode_withOffset hmake 0 (Bytes.length_ofNat 2 offset.toUInt16.toNat)
    rwa [Bytes.toInt_ofNat_int16] at hread
  | syscall name => exact decode_syscall h
  | syscallId name =>
    cases h
    exact decode_syscallId name
  | appCall target tail =>
    cases h
    rw [bytes, List.length_cons, target.length_bytes]
    exact decodeOpcode_appCall 0 target tail

/-- So is it wherever it stands. -/
theorem decode_placed {c : Command} {i : Instruction} (h : c.instruction? = some i) (before after : Bytes) :
    decode (before ++ (c.bytes ++ after)) before.length = .ok (i, c.bytes.length) := by
  refine decode_congr (List.length_pos_iff.2 c.bytes_ne_nil) (decode_bytes h) ?_
  rw [List.drop_left, List.take_left, List.drop_zero, List.take_length]

end Command

/-! ### Scripts -/

theorem assemble_cons (c : Command) (commands : List Command) :
    assemble (c :: commands) = c.bytes ++ assemble commands := List.flatMap_cons

/-- Whatever stands around them, what commands contribute is tiled by their instructions. -/
theorem tiles_assemble {commands : List Command} (h : ∀ c ∈ commands, c.instruction? ≠ none) (before after : Bytes) :
    ∃ lines, Tiles (before ++ assemble commands ++ after) before.length lines (before ++ assemble commands).length ∧
      lines.length = commands.length ∧ ∀ (k : Nat) (c : Command) (line : ListingLine), commands[k]? = some c →
        lines[k]? = some line → c.instruction? = some line.instruction ∧
          line.position = before.length + (assemble (commands.take k)).length ∧ line.size = c.bytes.length := by
  -- by induction on the commands, the first of which goes over to what stands before the others
  induction commands generalizing before with
  | nil =>
    refine ⟨[], ?_, rfl, fun k c line hk => ?_⟩
    · rw [assemble, List.flatMap_nil, List.append_nil]
      exact .nil _
    · cases hk
  | cons c commands ih =>
    obtain ⟨i, hi⟩ := Option.ne_none_iff_exists'.1 (h c List.mem_cons_self)
    obtain ⟨lines, htiles, hlength, hlines⟩ :=
      ih (fun c' hc' => h c' (List.mem_cons_of_mem c hc')) (before ++ c.bytes)
    have hscript : before ++ c.bytes ++ assemble commands = before ++ assemble (c :: commands) := by
      rw [assemble_cons, List.append_assoc]
    have hbehind : (before ++ c.bytes).length = before.length + c.bytes.length := List.length_append
    rw [hscript, hbehind] at htiles
    have hpositive : 0 < c.bytes.length := List.length_pos_iff.2 c.bytes_ne_nil
    have hread : decode (before ++ assemble (c :: commands) ++ after) before.length = .ok (i, c.bytes.length) := by
      rw [assemble_cons, List.append_assoc, List.append_assoc]
      exact Command.decode_placed hi before _
    have hinside : before.length < (before ++ assemble (c :: commands) ++ after).length := by
      rw [assemble_cons]
      simp only [List.length_append]
      omega
    refine ⟨_, Tiles.cons hinside hread htiles, ?_, fun k c' line hk hline => ?_⟩
    · rw [List.length_cons, List.length_cons, hlength]
    · cases k with
      | zero =>
        cases hk
        cases hline
        exact ⟨hi, rfl, rfl⟩
      | succ k =>
        obtain ⟨hinstruction, hposition, hsize⟩ := hlines k c' line hk hline
        refine ⟨hinstruction, ?_, hsize⟩
        rw [hposition, hbehind, List.take_succ_cons, assemble_cons, List.length_append, Nat.add_assoc]

/-- A script made of commands is listed command by command: each line is the instruction of its command, under the name
of its opcode, stands where the commands before it end and is as long as what its command contributes. -/
theorem listing_of_assemble {commands : List Command} (h : ∀ c ∈ commands, c.Fits) :
    ∃ lines, listing (assemble commands) 0 = (lines ++ [returnLine (assemble commands)], none) ∧
      lines.length = commands.length ∧ ∀ (k : Nat) (c : Command) (line : ListingLine), commands[k]? = some c →
        lines[k]? = some line → c.instruction? = some line.instruction ∧
          (∀ text ∈ c.shown?, line.instruction.text = text) ∧ line.position = (assemble (commands.take k)).length ∧
          line.position + line.size = (assemble (commands.take (k + 1))).length := by
  have hall : ∀ c ∈ commands, c.instruction? ≠ none := fun c hc =>
    Option.isSome_iff_ne_none.1 ((Command.fits_iff c).1 (h c hc))
  obtain ⟨lines, htiles, hlength, hlines⟩ := tiles_assemble hall [] []
  rw [List.append_nil, List.nil_append, List.length_nil] at htiles
  refine ⟨lines, htiles.listing_of_end, hlength, fun k c line hk hline => ?_⟩
  obtain ⟨hinstruction, hposition, hsize⟩ := hlines k c line hk hline
  rw [List.length_nil, Nat.zero_add] at hposition
  refine ⟨hinstruction, fun text htext => Command.text_of_shown htext hinstruction, hposition, ?_⟩
  rw [hposition, hsize, List.take_add_one, hk, assemble, assemble, List.flatMap_append, List.length_append]
  simp

end LedgerVM
