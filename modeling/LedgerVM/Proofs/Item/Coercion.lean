import LedgerVM.Item.Coercion
import LedgerVM.Item.Equality
import LedgerVM.Proofs.Bytes.Signed
import LedgerVM.Proofs.Machine.Range

/-!
# Coercions of primitive items

A truth value, an integer and a byte string with one encoding are taken for one another everywhere: each coercion of
a primitive item gives what it gives for the byte string of the item's encoding (`Item.Primitive.toBool_eq`,
`Item.Primitive.toInteger_eq`).  So equality, map keys, truth values and integers agree
(`Item.primitives_coherent`).  A byte string of more than 32 bytes is where truth values and integers part: it is true,
zeros or not, and no integer.
-/

namespace LedgerVM.Item

/-- A truth value, a byte string or an integer in range. -/
inductive Primitive : Item → Prop
  | boolean (value : Bool) : Primitive (.boolean value)
  | byteArray (bytes : Bytes) : Primitive (.byteArray bytes)
  | integer {value : Int} (hrange : InRange value) : Primitive (.integer value)

variable {a b item : Item} {bytes : Bytes} {value : Int}

private theorem any_ne_zero (bs : Bytes) : bs.any (· ≠ 0) = true ↔ bs.toInt ≠ 0 := by
  rw [ne_eq, Bytes.toInt_eq_zero_iff]
  simp

private theorem toInteger_byteArray (bytes : Bytes) : (byteArray bytes).toInteger =
    if integerBytes < bytes.length then .error (.integerOverflow integerBytes) else .ok bytes.toInt := rfl

/-! ### The encoding stands for the item -/

theorem Primitive.exists_encoding (hitem : item.Primitive) : ∃ bytes, item.encoding? = some bytes := by
  cases hitem with
  | boolean value => cases value <;> exact ⟨_, rfl⟩
  | _ => exact ⟨_, rfl⟩

theorem Primitive.toBool_eq (hitem : item.Primitive) (hbytes : item.encoding? = some bytes) :
    item.toBool = (Item.byteArray bytes).toBool := by
  cases hitem with
  | boolean value => cases value <;> cases hbytes <;> rfl
  | byteArray bytes =>
    cases hbytes
    rfl
  | @integer value hrange =>
    cases hbytes
    have hwidth : ¬integerBytes < (Bytes.ofInt value).length := Nat.not_lt.2 (inRange_iff.1 hrange)
    have hany := any_ne_zero (Bytes.ofInt value)
    rw [Bytes.toInt_ofInt] at hany
    show decide (value ≠ 0) = (decide _ || _)
    rw [decide_eq_false hwidth, Bool.false_or, Bool.eq_iff_iff, decide_eq_true_eq, hany]

theorem Primitive.toInteger_eq (hitem : item.Primitive) (hbytes : item.encoding? = some bytes) :
    item.toInteger = (Item.byteArray bytes).toInteger := by
  cases hitem with
  | boolean value => cases value <;> cases hbytes <;> rfl
  | byteArray bytes =>
    cases hbytes
    rfl
  | @integer value hrange =>
    cases hbytes
    have hwidth : ¬integerBytes < (Bytes.ofInt value).length := Nat.not_lt.2 (inRange_iff.1 hrange)
    show Except.ok value = _
    rw [toInteger_byteArray, if_neg hwidth, Bytes.toInt_ofInt]

theorem Primitive.equal_eq (hitem : a.Primitive) {x y : Bytes} (ha : a.encoding? = some x)
    (hb : b.encoding? = some y) (h : Heap) : h.equal a b = .ok (x == y) := by
  have hsame : a.sameAs b = (x == y) := by
    cases hitem <;> simp only [sameAs, ha, hb]
  have hwithin : ∀ depth, h.equalWithin depth a b = some (a.sameAs b) := by
    intro depth
    cases hitem <;> cases depth <;> rfl
  rw [Heap.equal, hwithin, hsame]

/-! ### Truth values and integers -/

/-- A byte string is an integer up to 32 bytes, and true of the integers other than zero. -/
theorem toBool_iff_of_toInteger (hitem : item.Primitive) (hvalue : item.toInteger = .ok value) :
    item.toBool = true ↔ value ≠ 0 := by
  obtain ⟨bytes, hbytes⟩ := hitem.exists_encoding
  rw [hitem.toInteger_eq hbytes, toInteger_byteArray] at hvalue
  rw [hitem.toBool_eq hbytes, toBool]
  split at hvalue
  · cases hvalue
  · rename_i hwidth
    cases hvalue
    rw [decide_eq_false hwidth, Bool.false_or]
    exact any_ne_zero bytes

theorem Primitive.toInteger_cases (hitem : item.Primitive) :
    (∃ value, item.toInteger = .ok value) ∨ item.toInteger = .error (.integerOverflow integerBytes) := by
  obtain ⟨bytes, hbytes⟩ := hitem.exists_encoding
  rw [hitem.toInteger_eq hbytes, toInteger_byteArray]
  split
  · exact .inr rfl
  · exact .inl ⟨_, rfl⟩

/-! ### All coercions together -/

theorem ofItem_eq_ok (hbytes : item.encoding? = some bytes) :
    MapKey.ofItem item = .ok ⟨item, bytes, hbytes⟩ := by
  unfold MapKey.ofItem
  split
  · rename_i found hfound
    have hsame : found = bytes := Option.some.inj (hfound.symm.trans hbytes)
    subst hsame
    rfl
  · rename_i hnone
    rw [hbytes] at hnone
    cases hnone

/-- Two primitive items are equal, have the same bytes and are the same key of a map, or none of it.  Equal ones are
both true or both false, and the same integer or both too wide for one; and an item that is an integer is true if and
only if that is not zero. -/
theorem primitives_coherent (h : Heap) (ha : a.Primitive) (hb : b.Primitive) :
    ∃ bytesA bytesB keyA keyB,
      a.toBytes = .ok bytesA ∧ b.toBytes = .ok bytesB ∧
      MapKey.ofItem a = .ok keyA ∧ MapKey.ofItem b = .ok keyB ∧
      (h.equal a b = .ok true ↔ bytesA = bytesB) ∧
      (h.equal a b = .ok true ↔ keyA.encoding = keyB.encoding) ∧
      (h.equal a b = .ok true → a.toBool = b.toBool ∧
        ((∃ value, a.toInteger = .ok value ∧ b.toInteger = .ok value) ∨
          a.toInteger = .error (.integerOverflow integerBytes) ∧
          b.toInteger = .error (.integerOverflow integerBytes))) ∧
      ∀ value, a.toInteger = .ok value → (a.toBool = true ↔ value ≠ 0) := by
  obtain ⟨x, hx⟩ := ha.exists_encoding
  obtain ⟨y, hy⟩ := hb.exists_encoding
  have hequal : h.equal a b = .ok true ↔ x = y := by
    rw [ha.equal_eq hx hy h, Except.ok.injEq, beq_iff_eq]
  refine ⟨x, y, _, _, by simp [toBytes, hx], by simp [toBytes, hy], ofItem_eq_ok hx, ofItem_eq_ok hy, hequal, hequal,
    fun hab => ?_, fun value => toBool_iff_of_toInteger ha⟩
  have hxy : x = y := hequal.1 hab
  subst hxy
  have hinteger : a.toInteger = b.toInteger := by rw [ha.toInteger_eq hx, hb.toInteger_eq hy]
  refine ⟨by rw [ha.toBool_eq hx, hb.toBool_eq hy], ?_⟩
  rcases ha.toInteger_cases with ⟨value, hvalue⟩ | hover
  · exact .inl ⟨value, hvalue, hinteger ▸ hvalue⟩
  · exact .inr ⟨hover, hinteger ▸ hover⟩

/-- The integer -1 is its one byte. -/
theorem minus_one_coherent :
    InRange (-1) ∧ Heap.empty.equal (.integer (-1)) (.byteArray [0xFF]) = .ok true ∧
      (integer (-1)).toBool = (byteArray [0xFF]).toBool ∧
      ∃ value, (integer (-1)).toInteger = .ok value ∧ (byteArray [0xFF]).toInteger = .ok value := by
  have hrange : InRange (-1) := by decide
  obtain ⟨x, y, _, _, hx, hy, -, -, hequal, -, hcoherent, -⟩ :=
    primitives_coherent .empty (.integer hrange) (.byteArray [0xFF])
  have hxy : x = y := by
    have hbytes : Bytes.ofInt (-1) = [0xFF] := by
      simp [Bytes.ofInt, Bytes.ofIntNonempty]
    rw [toBytes, encoding?, hbytes] at hx
    cases hx
    cases hy
    rfl
  have hab := hequal.2 hxy
  obtain ⟨hbool, hvalue | ⟨hover, -⟩⟩ := hcoherent hab
  · exact ⟨hrange, hab, hbool, hvalue⟩
  · cases hover

end LedgerVM.Item
