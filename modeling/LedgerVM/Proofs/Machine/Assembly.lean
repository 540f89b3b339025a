import LedgerVM.Proofs.Machine.Range
import LedgerVM.Proofs.Script.Assembly

/-!
# Assembled scripts do what their commands say

A script is listed as the commands it was made of, a service is the same by name and by id, and an integer that a
script pushes is the one that was put into it, though it may go by the bytes of its literal.
-/

namespace LedgerVM

/-- The machine with an item on the stack of the executing frame. -/
def Machine.pushed (m : Machine) (frame : Frame) (rest : List Frame) (item : Item) : Machine :=
  { m with calls := { m.calls with frames := { frame with stack := item :: frame.stack } :: rest } }

theorem MachineAction.onStack_push {m : Machine} {frame : Frame} {rest : List Frame}
    (hframes : m.calls.frames = frame :: rest) (item : Item) :
    onStack (.push item) m = .ok () (m.pushed frame rest item) :=
  onCalls_eq_ok.2 ⟨_, CallAction.onTop_eq_ok.2 ⟨frame, rest, _, hframes, rfl, rfl⟩, rfl⟩

namespace Item

/-- The item that the instruction of an integer pushes. -/
def ofPushed (value : Int) : Item :=
  if value = -1 ∨ 0 < value ∧ value ≤ 16 then .integer value else .byteArray (Bytes.ofInt value)

theorem toInteger_ofPushed {value : Int} (hvalue : InRange value) : (ofPushed value).toInteger = .ok value := by
  unfold ofPushed
  split
  · rfl
  · rw [toInteger, if_neg (Nat.not_lt.2 (inRange_iff.1 hvalue)), Bytes.toInt_ofInt]

end Item

namespace Instruction

variable {setting : Setting} {m : Machine} {frame : Frame} {rest : List Frame}

/-- A literal is pushed unless it is larger than items may be. -/
theorem execute_pushBytes (hframes : m.calls.frames = frame :: rest) (position : Nat) (data : Bytes) :
    (pushBytes data).execute setting position m =
      if setting.limits.itemSize < data.length then .error (.itemTooLarge data.length setting.limits.itemSize) m
      else .ok () (m.pushed frame rest (.byteArray data)) := by
  rw [execute]
  split
  · rfl
  · exact MachineAction.onStack_push hframes (.byteArray data)

/-- The instruction of an integer pushes it, unless it goes by a literal that is larger than items may be. -/
theorem execute_of_pushInt {value : Int} {i : Instruction} (hi : (Command.pushInt value).instruction? = some i)
    (hframes : m.calls.frames = frame :: rest) (position : Nat) :
    i.execute setting position m = .ok () (m.pushed frame rest (.ofPushed value)) ∨
      setting.limits.itemSize < (Bytes.ofInt value).length ∧
        i.execute setting position m =
          .error (.itemTooLarge (Bytes.ofInt value).length setting.limits.itemSize) m := by
  rw [Command.instruction?] at hi
  unfold Item.ofPushed
  split at hi
  · rename_i hsmall
    cases hi
    rw [if_pos hsmall]
    exact .inl (MachineAction.onStack_push hframes (.integer value))
  · rename_i hlarge
    split at hi
    · cases hi
      rw [if_neg hlarge, execute_pushBytes hframes]
      split
      · rename_i hlimit
        exact .inr ⟨hlimit, rfl⟩
      · exact .inl rfl
    · cases hi

end Instruction

/-- Decoding undoes assembling.  A script made of commands that scripts can hold is listed command by command, up to the
return behind its end: each line is the instruction of its command, under the name that the table has for its opcode,
stands where the commands before it end, and ends where the command does.  A service called by its name and by its id
is the same.  What is read for an integer in range pushes an item that stands for the integer, unless it goes by a
literal that is larger than items may be. -/
theorem decoding_undoes_assembling :
    (∀ commands : List Command, (∀ c ∈ commands, c.Fits) →
      ∃ lines, listing (assemble commands) 0 = (lines ++ [returnLine (assemble commands)], none) ∧
        lines.length = commands.length ∧
        ∀ (k : Nat) (c : Command) (line : ListingLine), commands[k]? = some c → lines[k]? = some line →
          c.instruction? = some line.instruction ∧ (∀ text ∈ c.shown?, line.instruction.text = text) ∧
          line.position = (assemble (commands.take k)).length ∧
          line.position + line.size = (assemble (commands.take (k + 1))).length) ∧
    (∀ name : String, (Bytes.ofText name).isAscii → (Bytes.ofText name).length ≤ 252 →
      (Bytes.ofText name).length ≠ 4 → ∃ id, ∀ before after : Bytes,
        decode (before ++ ((Command.syscall name).bytes ++ after)) before.length =
          .ok (.syscall id, (Command.syscall name).bytes.length) ∧
        decode (before ++ ((Command.syscallId name).bytes ++ after)) before.length =
          .ok (.syscall id, (Command.syscallId name).bytes.length)) ∧
    ∀ value : Int, -2 ^ 255 ≤ value → value < 2 ^ 255 → ∃ (i : Instruction) (item : Item),
      decode (Command.pushInt value).bytes 0 = .ok (i, (Command.pushInt value).bytes.length) ∧
      item.toInteger = .ok value ∧
      ∀ (setting : Setting) (m : Machine) (frame : Frame) (rest : List Frame) (position : Nat),
        m.calls.frames = frame :: rest →
          i.execute setting position m = .ok () (m.pushed frame rest item) ∨
          setting.limits.itemSize < (Bytes.ofInt value).length ∧
            i.execute setting position m =
              .error (.itemTooLarge (Bytes.ofInt value).length setting.limits.itemSize) m := by
  refine ⟨fun commands hall => listing_of_assemble hall, fun name hascii hlength hid => ?_, fun value hlow hhigh => ?_⟩
  · have hname : (Command.syscall name).instruction? = some (.syscall (serviceId (Bytes.ofText name))) :=
      if_pos ⟨hascii, hlength, hid⟩
    exact ⟨serviceId (Bytes.ofText name), fun before after =>
      ⟨Command.decode_placed hname before after, Command.decode_placed rfl before after⟩⟩
  · have hrange : Item.InRange value := ⟨hlow, hhigh⟩
    have hshort : (Bytes.ofInt value).length ≤ literalLimit :=
      Nat.le_trans (Item.inRange_iff.1 hrange) (by decide)
    obtain ⟨i, hi⟩ : ∃ i, (Command.pushInt value).instruction? = some i := by
      by_cases hsmall : value = -1 ∨ 0 < value ∧ value ≤ 16
      · exact ⟨_, if_pos hsmall⟩
      · exact ⟨_, (if_neg hsmall).trans (if_pos hshort)⟩
    exact ⟨i, .ofPushed value, Command.decode_bytes hi, Item.toInteger_ofPushed hrange,
      fun setting m frame rest position hframes => Instruction.execute_of_pushInt hi hframes position⟩

/-- Four commands, one of each kind of opcode among them, make four lines and the return; a name of three bytes calls
what its id does, and the least integer in range is pushed by its literal. -/
theorem least_integer_assembles :
    (∃ lines, listing (assemble [.opcodeWith 0xD0 [1], .pushInt (-300), .opcode 0x93, .jump 0x64 (-2)]) 0 =
        (lines ++ [returnLine (assemble [.opcodeWith 0xD0 [1], .pushInt (-300), .opcode 0x93, .jump 0x64 (-2)])],
          none) ∧
      lines.length = 4 ∧ ∀ line ∈ lines[2]?, line.instruction.text = "ADD") ∧
    (∃ id, decode (Command.syscall "Log").bytes 0 = .ok (.syscall id, 5) ∧
      decode (Command.syscallId "Log").bytes 0 = .ok (.syscall id, 6)) ∧
    ∃ i item, decode (Command.pushInt (-2 ^ 255)).bytes 0 = .ok (i, 33) ∧ item.toInteger = .ok (-2 ^ 255) ∧
      i.execute Setting.blank 0 (Machine.ofScript {} []) =
        .ok () ((Machine.ofScript {} []).pushed
          { script := { bytes := [], hash := Hashing.hash160 [] }, statics := 0 } [] item) := by
  obtain ⟨hlisted, hnamed, hpushed⟩ := decoding_undoes_assembling
  refine ⟨?_, ?_, ?_⟩
  · obtain ⟨lines, hlines, hlength, heach⟩ :=
      hlisted [.opcodeWith 0xD0 [1], .pushInt (-300), .opcode 0x93, .jump 0x64 (-2)] (by decide +kernel)
    exact ⟨lines, hlines, hlength, fun line hline => (heach 2 (.opcode 0x93) line rfl hline).2.1 "ADD" rfl⟩
  · obtain ⟨id, hid⟩ := hnamed "Log" (by decide +kernel) (by decide +kernel) (by decide +kernel)
    have hsizes : (Command.syscall "Log").bytes.length = 5 ∧ (Command.syscallId "Log").bytes.length = 6 := by
      decide +kernel
    have hboth := hid [] []
    rw [hsizes.1, hsizes.2, List.append_nil, List.append_nil] at hboth
    exact ⟨id, hboth⟩
  · obtain ⟨i, item, hread, hitem, hpush⟩ := hpushed (-2 ^ 255) (by decide) (by decide)
    have hsize : (Command.pushInt (-2 ^ 255)).bytes.length = 33 := by decide +kernel
    rw [hsize] at hread
    refine ⟨i, item, hread, hitem, ?_⟩
    exact (hpush Setting.blank _ _ [] 0 rfl).resolve_right fun hlimit => absurd hlimit.1 (by decide +kernel)

end LedgerVM
