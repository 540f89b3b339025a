import LedgerVM.Proofs.Operator.Answers
import LedgerVM.Script.Decode

/-!
# Decoding goes forward

Every instruction that is read off a script takes at least its opcode's byte, so that reading goes on behind where it
was.  Only behind the last byte there is an instruction without bytes, the return (`decode_yields`).  The integers that
instructions push are small (`decode_answers`).
-/

namespace LedgerVM

/-- An integer that the instruction pushes is one of those that have an opcode. -/
def Instruction.IsSmall (i : Instruction) : Prop := ∀ value, i = .pushInt value → -1 ≤ value ∧ value ≤ 16

theorem operandBytes_answers (opcode : UInt8) (position : Nat) (rest : Bytes) (offset length : Nat) :
    Answers (fun _ => True) (operandBytes opcode position rest offset length) :=
  .ite (fun _ => trivial) fun _ => rfl

private theorem small_of_plain {opcode : UInt8} {i : Instruction} (h : Opcode.plain? opcode = some i) : i.IsSmall := by
  unfold Opcode.plain? at h
  split at h
  all_goals cases h
  all_goals exact nofun

private theorem small_of_withOffset {opcode : UInt8} {make : Int → Instruction}
    (h : Opcode.withOffset? opcode = some make) (offset : Int) : (make offset).IsSmall := by
  unfold Opcode.withOffset? at h
  split at h
  all_goals cases h
  all_goals exact nofun

private theorem small_of_withIndex {opcode : UInt8} {make : Nat → Instruction}
    (h : Opcode.withIndex? opcode = some make) (index : Nat) : (make index).IsSmall := by
  unfold Opcode.withIndex? at h
  split at h
  all_goals cases h
  all_goals exact nofun

theorem decodeOpcode_answers (opcode : UInt8) (position : Nat) (rest : Bytes) :
    Answers (fun found => 1 ≤ found.2 ∧ found.1.IsSmall) (decodeOpcode opcode position rest) := by
  have hoperand (offset length : Nat) : Answers (fun _ => True) (operandBytes opcode position rest offset length) :=
    operandBytes_answers opcode position rest offset length
  have hnumber (width : Nat) :
      Answers (fun _ => True) (do return Bytes.toNat (← operandBytes opcode position rest 0 width)) :=
    .bind (hoperand 0 width) fun _ _ => trivial
  unfold decodeOpcode
  -- the first byte is looked up kind by kind: literals, small numbers, calls, services, slots, the rest
  refine .ite (fun _ => .bind (hoperand _ _) fun _ _ => ⟨Nat.le_add_right 1 _, nofun⟩) fun _ => ?_
  refine .ite (fun _ => .bind (hnumber 1) fun _ _ => .bind (hoperand _ _) fun _ _ =>
    ⟨Nat.le_add_right_of_le (by decide), nofun⟩) fun _ => ?_
  refine .ite (fun _ => .bind (hnumber 2) fun _ _ => .bind (hoperand _ _) fun _ _ =>
    ⟨Nat.le_add_right_of_le (by decide), nofun⟩) fun _ => ?_
  refine .ite (fun _ => .bind (hnumber 4) fun length _ => .ite (fun _ => rfl) fun _ => ?_) fun _ => ?_
  · exact .bind (hoperand _ _) fun _ _ => ⟨Nat.le_add_right_of_le (by decide), nofun⟩
  refine .ite (fun _ => ⟨Nat.le_refl 1, ?_⟩) fun _ => .ite (fun hsmall => ⟨Nat.le_refl 1, ?_⟩) fun _ => ?_
  · rintro value ⟨⟩
    decide
  · rintro value ⟨⟩
    have hlow : Opcode.push1.toNat ≤ opcode.toNat := UInt8.le_iff_toNat_le.1 hsmall.1
    have hhigh : opcode.toNat ≤ Opcode.push16.toNat := UInt8.le_iff_toNat_le.1 hsmall.2
    have hfirst : Opcode.push1.toNat = 0x51 := rfl
    have hlast : Opcode.push16.toNat = 0x60 := rfl
    omega
  refine .ite (fun _ => .bind (hoperand _ _) fun bytes _ => ?_) fun _ => ?_
  · cases Digest.ofBytes? 20 bytes with
    | some target => exact ⟨Nat.le_add_left 1 20, nofun⟩
    | none => rfl
  refine .ite (fun _ => .bind (hnumber 1) fun length _ => .ite (fun _ => rfl) fun _ => ?_) fun _ => ?_
  · refine .bind (hoperand _ _) fun name _ => .ite (fun _ => ⟨Nat.le_add_left 1 5, nofun⟩) fun _ => ?_
    exact .ite (fun _ => rfl) fun _ => ⟨Nat.le_add_right_of_le (by decide), nofun⟩
  refine .ite (fun _ => .bind (hoperand _ _) fun _ _ => ⟨Nat.le_add_left 1 2, nofun⟩) fun _ => ?_
  cases hplain : Opcode.plain? opcode with
  | some instruction => exact ⟨Nat.le_refl 1, small_of_plain hplain⟩
  | none =>
    cases hoffset : Opcode.withOffset? opcode with
    | some make => exact .bind (hoperand _ _) fun _ _ => ⟨Nat.le_add_left 1 2, small_of_withOffset hoffset _⟩
    | none =>
      cases hindex : Opcode.withIndex? opcode with
      | some make => exact .bind (hnumber 1) fun _ _ => ⟨Nat.le_add_left 1 1, small_of_withIndex hindex _⟩
      | none => rfl

/-- Behind the last byte there is a return without bytes, and every other instruction has some; what it pushes is
small. -/
theorem decode_answers (script : Bytes) (position : Nat) :
    Answers (fun (i, size) => (i = .ret ∧ size = 0 ∨ 1 ≤ size ∧ position < script.length) ∧ i.IsSmall)
      (decode script position) := by
  unfold decode
  split
  · exact ⟨.inl ⟨rfl, rfl⟩, nofun⟩
  · rename_i opcode rest hrest
    have hlt : position < script.length := by
      refine Nat.lt_of_not_le fun hle => ?_
      rw [List.drop_eq_nil_of_le hle] at hrest
      cases hrest
    refine .mono (decodeOpcode_answers opcode position rest) fun found hfound => ?_
    exact ⟨.inr ⟨hfound.1, hlt⟩, hfound.2⟩

/-- Behind the last byte there is a return without bytes, and every other instruction has some. -/
theorem decode_yields (script : Bytes) (position : Nat) :
    Yields (fun (i, size) => i = .ret ∧ size = 0 ∨ 1 ≤ size ∧ position < script.length)
      (decode script position) := (decode_answers script position).yields.mono fun _ hfound => hfound.1

end LedgerVM
