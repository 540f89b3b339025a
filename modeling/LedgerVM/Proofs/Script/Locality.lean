import LedgerVM.Proofs.Script.Decode

/-!
# Decoding reads one window

An instruction that is read off a script lies within the script, and depends on nothing but the bytes that it takes:
wherever these bytes stand, in whatever script, the same instruction is read there.  Operands say how much they read in
front of the instruction's end (`ReadsFirst`), and a reading of a whole instruction says it of its size
(`ReadsWithin`).

* `decode_inside`: an instruction in a script takes at least one byte and does not reach over the script's end.
* `decode_congr`: scripts that agree on an instruction's bytes have the same instruction there.
-/

namespace LedgerVM

/-- Behind `m` bytes that are there, a reading that succeeds takes what it reads from the first `n`: there are as many,
and all bytes that begin with them read alike, wherever they stand. -/
def ReadsFirst {α : Type} (m n : Nat) (read : (position : Nat) → Bytes → Except Fault α) : Prop :=
  ∀ ⦃position rest x⦄, m ≤ rest.length → read position rest = .ok x → ∃ front back, rest = front ++ back ∧
    front.length = n ∧ ∀ position' back', read position' (front ++ back') = .ok x

/-- Behind an opcode and `m` bytes that are there, a reading of an instruction that succeeds takes it from as many bytes
as it says, opcode included, but no fewer than those there. -/
def ReadsWithin (m : Nat) (read : (position : Nat) → Bytes → Except Fault (Instruction × Nat)) : Prop :=
  ∀ ⦃position rest i size⦄, m ≤ rest.length → read position rest = .ok (i, size) → ∃ front back, rest = front ++ back ∧
    m ≤ front.length ∧ 1 + front.length = size ∧ ∀ position' back', read position' (front ++ back') = .ok (i, size)

theorem except_bind_eq_ok {ε α β : Type} {x : Except ε α} {f : α → Except ε β} {b : β} :
    (x >>= f) = .ok b ↔ ∃ a, x = .ok a ∧ f a = .ok b := by
  cases x with
  | ok a => exact ⟨fun h => ⟨a, rfl, h⟩, fun ⟨_, rfl, h⟩ => h⟩
  | error e => exact ⟨nofun, nofun⟩

theorem except_bind_of_ok {ε α β : Type} {x : Except ε α} {a : α} (h : x = .ok a) (f : α → Except ε β) :
    (x >>= f) = f a := by
  rw [h]
  rfl

variable {α β : Type} {m n : Nat}

theorem ReadsFirst.map {read : Nat → Bytes → Except Fault α} (hread : ReadsFirst m n read) (f : α → β) :
    ReadsFirst m n fun position rest => do return f (← read position rest) := by
  intro position rest y hm h
  obtain ⟨x, hx, hy⟩ := except_bind_eq_ok.1 h
  obtain ⟨front, back, hrest, hlength, hagain⟩ := hread hm hx
  exact ⟨front, back, hrest, hlength, fun position' back' => except_bind_eq_ok.2 ⟨x, hagain position' back', hy⟩⟩

/-- Behind the opcode `offset` bytes are passed over and `length` are read. -/
theorem operandBytes_readsFirst (opcode : UInt8) (offset length : Nat) :
    ReadsFirst offset (offset + length) fun position rest => operandBytes opcode position rest offset length := by
  intro position rest bytes hoffset h
  simp only [operandBytes] at h
  split at h
  · rename_i hlength
    cases h
    have hthere : offset + length ≤ rest.length := by
      simp only [List.length_take, List.length_drop] at hlength
      omega
    refine ⟨rest.take (offset + length), rest.drop (offset + length), (List.take_append_drop _ _).symm,
      List.length_take_of_le hthere, fun position' back' => ?_⟩
    have hsame : ((rest.take (offset + length) ++ back').drop offset).take length = (rest.drop offset).take length := by
      rw [List.drop_append_of_le_length (by simp; omega), List.take_append_of_le_length (by simp; omega),
        List.drop_take, List.take_take]
      simp
    simp only [operandBytes]
    rw [hsame, if_pos hlength]
  · cases h

namespace ReadsWithin

theorem error {fault : Nat → Bytes → Fault} : ReadsWithin m fun position rest => .error (fault position rest) := nofun

/-- All that belongs to the instruction is there. -/
theorem ok {i : Instruction} {size : Nat} (hsize : size = 1 + m) : ReadsWithin m fun _ _ => .ok (i, size) := by
  intro position rest j size' hm h
  cases h
  have hlength : (rest.take m).length = m := List.length_take_of_le hm
  exact ⟨rest.take m, rest.drop m, (List.take_append_drop m rest).symm, by omega, by omega, fun _ _ => rfl⟩

theorem ite {p : Prop} [Decidable p] {read other : Nat → Bytes → Except Fault (Instruction × Nat)}
    (hread : p → ReadsWithin m read) (hother : ¬p → ReadsWithin m other) :
    ReadsWithin m fun position rest => if p then read position rest else other position rest := by
  split
  · rename_i hp
    exact hread hp
  · rename_i hp
    exact hother hp

/-- An operand is read, and then more. -/
theorem bind {read : Nat → Bytes → Except Fault α} {next : α → Nat → Bytes → Except Fault (Instruction × Nat)}
    (hread : ReadsFirst m n read) (hmn : m ≤ n) (hnext : ∀ x, ReadsWithin n (next x)) :
    ReadsWithin m fun position rest => read position rest >>= fun x => next x position rest := by
  intro position rest i size hm h
  obtain ⟨x, hx, hi⟩ := except_bind_eq_ok.1 h
  obtain ⟨front, back, hrest, hlength, hagain⟩ := hread hm hx
  have hn : n ≤ rest.length := by rw [hrest, List.length_append]; omega
  obtain ⟨front', back', hrest', hlength', hsize, hagain'⟩ := hnext x hn hi
  refine ⟨front', back', hrest', Nat.le_trans hmn hlength', hsize, fun position' back'' => ?_⟩
  -- what the operand was read off is the first part of what all of it was read off
  have hfront : front <+: rest := ⟨back, hrest.symm⟩
  have hfront' : front' <+: rest := ⟨back', hrest'.symm⟩
  obtain ⟨between, hbetween⟩ := List.prefix_of_prefix_length_le hfront hfront' (by omega)
  refine except_bind_eq_ok.2 ⟨x, ?_, hagain' position' back''⟩
  rw [← hbetween, List.append_assoc]
  exact hagain position' (between ++ back'')

end ReadsWithin

theorem decodeOpcode_readsWithin (opcode : UInt8) : ReadsWithin 0 (decodeOpcode opcode) := by
  have hbehind (offset length : Nat) :
      ReadsFirst offset (offset + length) fun position rest => operandBytes opcode position rest offset length :=
    operandBytes_readsFirst opcode offset length
  have hfirst (length : Nat) : ReadsFirst 0 length fun position rest => operandBytes opcode position rest 0 length := by
    have hread := hbehind 0 length
    rwa [Nat.zero_add] at hread
  have hnumber (width : Nat) : ReadsFirst 0 width fun position rest => do
      return Bytes.toNat (← operandBytes opcode position rest 0 width) := (hfirst width).map Bytes.toNat
  unfold decodeOpcode
  -- the first byte is looked up kind by kind: literals, small numbers, calls, services, slots, the rest
  refine .ite (fun _ => .bind (hfirst _) (Nat.zero_le _) fun _ => .ok rfl) fun _ => ?_
  refine .ite (fun _ => .bind (hnumber 1) (Nat.zero_le _) fun length => ?_) fun _ => ?_
  · exact .bind (hbehind 1 length) (Nat.le_add_right _ _) fun _ => .ok (by omega)
  refine .ite (fun _ => .bind (hnumber 2) (Nat.zero_le _) fun length => ?_) fun _ => ?_
  · exact .bind (hbehind 2 length) (Nat.le_add_right _ _) fun _ => .ok (by omega)
  refine .ite (fun _ => .bind (hnumber 4) (Nat.zero_le _) fun length => .ite (fun _ => .error) fun _ => ?_) fun _ => ?_
  · exact .bind (hbehind 4 length) (Nat.le_add_right _ _) fun _ => .ok (by omega)
  refine .ite (fun _ => .ok rfl) fun _ => .ite (fun _ => .ok rfl) fun _ => ?_
  refine .ite (fun _ => .bind (hfirst 20) (Nat.zero_le _) fun bytes => ?_) fun _ => ?_
  · cases Digest.ofBytes? 20 bytes with
    | some target => exact .ok rfl
    | none => exact .error
  refine .ite (fun _ => .bind (hnumber 1) (Nat.zero_le _) fun length => .ite (fun _ => .error) fun _ => ?_) fun _ => ?_
  · refine .bind (hbehind 1 length) (Nat.le_add_right _ _) fun name => ?_
    exact .ite (fun hid => .ok (by omega)) fun _ => .ite (fun _ => .error) fun _ => .ok (by omega)
  refine .ite (fun _ => .bind (hfirst 2) (Nat.zero_le _) fun _ => .ok rfl) fun _ => ?_
  cases hplain : Opcode.plain? opcode with
  | some instruction => exact .ok rfl
  | none =>
    cases hoffset : Opcode.withOffset? opcode with
    | some make => exact .bind (hfirst 2) (Nat.zero_le _) fun _ => .ok rfl
    | none =>
      cases hindex : Opcode.withIndex? opcode with
      | some make => exact .bind (hnumber 1) (Nat.zero_le _) fun _ => .ok rfl
      | none => exact .error

/-- The bytes of an instruction that is read off a script are a part of the script, and the instruction is read off them
wherever they stand. -/
theorem decode_window {script : Bytes} {position size : Nat} {i : Instruction} (hlt : position < script.length)
    (h : decode script position = .ok (i, size)) :
    ∃ before bytes after, script = before ++ bytes ++ after ∧ before.length = position ∧ bytes.length = size ∧
      0 < size ∧ ∀ before' after', decode (before' ++ bytes ++ after') before'.length = .ok (i, size) := by
  have hdrop := List.drop_eq_getElem_cons hlt
  unfold decode at h
  rw [hdrop] at h
  obtain ⟨front, back, hrest, -, hsize, hagain⟩ := decodeOpcode_readsWithin _ (Nat.zero_le _) h
  refine ⟨script.take position, script[position] :: front, back, ?_, ?_, ?_, by omega, ?_⟩
  · rw [List.append_assoc, List.cons_append, ← hrest, ← hdrop, List.take_append_drop]
  · exact List.length_take_of_le (Nat.le_of_lt hlt)
  · rw [List.length_cons]
    omega
  · intro before' after'
    unfold decode
    rw [List.append_assoc, List.drop_left]
    exact hagain _ _

variable {script other : Bytes} {position place size : Nat} {i : Instruction}

/-- An instruction in a script takes at least one byte and does not reach over the script's end. -/
theorem decode_inside (hlt : position < script.length) (h : decode script position = .ok (i, size)) :
    0 < size ∧ position + size ≤ script.length := by
  obtain ⟨before, bytes, after, rfl, rfl, rfl, hpositive, -⟩ := decode_window hlt h
  refine ⟨hpositive, ?_⟩
  rw [List.length_append, List.length_append]
  exact Nat.le_add_right _ _

/-- Scripts that agree on the bytes of an instruction have the same instruction there. -/
theorem decode_congr (hlt : position < script.length) (h : decode script position = .ok (i, size))
    (hsame : (other.drop place).take size = (script.drop position).take size) :
    decode other place = .ok (i, size) := by
  obtain ⟨before, bytes, after, rfl, rfl, rfl, hpositive, hagain⟩ := decode_window hlt h
  rw [List.append_assoc, List.drop_left, List.take_left] at hsame
  have hplace : (other.take place).length = place := by
    have hlength := congrArg List.length hsame
    rw [List.length_take, List.length_drop] at hlength
    rw [List.length_take]
    omega
  have hother : other = other.take place ++ bytes ++ (other.drop place).drop bytes.length := by
    have hrest := List.take_append_drop bytes.length (other.drop place)
    rw [hsame] at hrest
    rw [List.append_assoc, hrest, List.take_append_drop]
  have hthere := hagain (other.take place) ((other.drop place).drop bytes.length)
  rwa [← hother, hplace] at hthere

end LedgerVM
