import LedgerVM.Proofs.Machine.Failure
import LedgerVM.Proofs.Machine.Run

/-!
# Gas along a run

A meter never goes beyond its budget, so no sum of prices wraps around (`GasMeter.charge_eq_ok`).  Along a run the
budget stays and the gas used only grows (`Machine.Steps.debited`).
-/

namespace LedgerVM

namespace GasMeter

variable {m n o : GasMeter} {p : UInt64}

/-- No more was used than the budget. -/
def Solvent (m : GasMeter) : Prop := m.consumed ≤ m.limit

private theorem toNat_remaining (hm : m.Solvent) : m.remaining.toNat = m.limit.toNat - m.consumed.toNat :=
  UInt64.toNat_sub_of_le _ _ hm

/-- A price is debited if the budget covers it with all that was debited before. -/
theorem charge_eq_ok (hm : m.Solvent) :
    m.charge p = .ok n ↔
      m.consumed.toNat + p.toNat ≤ m.limit.toNat ∧ n = { m with consumed := m.consumed + p } := by
  have hle : m.consumed.toNat ≤ m.limit.toNat := UInt64.le_iff_toNat_le.1 hm
  have hremaining := toNat_remaining hm
  have hshort : m.remaining < p ↔ m.limit.toNat < m.consumed.toNat + p.toNat := by
    rw [UInt64.lt_iff_toNat_lt, hremaining]
    omega
  unfold charge
  by_cases h : m.remaining < p
  · have hover := hshort.1 h
    rw [if_pos h]
    constructor
    · intro hfails
      cases hfails
    · rintro ⟨hfits, -⟩
      omega
  · have hfits := mt hshort.2 h
    rw [if_neg h]
    constructor
    · intro hpaid
      cases hpaid
      exact ⟨by omega, rfl⟩
    · rintro ⟨-, rfl⟩
      rfl

/-- A price that the rest of the budget does not cover is refused. -/
theorem charge_eq_insufficientGas (hm : m.Solvent) (h : m.limit.toNat < m.consumed.toNat + p.toNat) :
    m.charge p = .error (.insufficientGas p m.remaining) := by
  have hle : m.consumed.toNat ≤ m.limit.toNat := UInt64.le_iff_toNat_le.1 hm
  have hremaining := toNat_remaining hm
  have hshort : m.remaining < p := by
    rw [UInt64.lt_iff_toNat_lt, hremaining]
    omega
  exact if_pos hshort

/-- The second meter is the first after prices were debited. -/
structure Debited (m n : GasMeter) : Prop where
  limit : n.limit = m.limit
  consumed : m.consumed.toNat ≤ n.consumed.toNat
  solvent : n.Solvent

theorem Debited.refl (hm : m.Solvent) : m.Debited m := ⟨rfl, Nat.le_refl _, hm⟩

theorem Debited.trans (h : m.Debited n) (hn : n.Debited o) : m.Debited o :=
  ⟨hn.limit.trans h.limit, Nat.le_trans h.consumed hn.consumed, hn.solvent⟩

theorem toNat_consumed_of_charge (hm : m.Solvent) (h : m.charge p = .ok n) :
    n.consumed.toNat = m.consumed.toNat + p.toNat := by
  obtain ⟨hfits, rfl⟩ := (charge_eq_ok hm).1 h
  have hbound := m.limit.toNat_lt
  show (m.consumed + p).toNat = _
  rw [UInt64.toNat_add]
  omega

theorem debited_of_charge (hm : m.Solvent) (h : m.charge p = .ok n) : m.Debited n := by
  have hconsumed := toNat_consumed_of_charge hm h
  obtain ⟨hfits, rfl⟩ := (charge_eq_ok hm).1 h
  have hsum : (m.consumed + p).toNat = m.consumed.toNat + p.toNat := hconsumed
  have hmore : m.consumed.toNat ≤ (m.consumed + p).toNat := by omega
  have hwithin : (m.consumed + p).toNat ≤ m.limit.toNat := by omega
  exact ⟨rfl, hmore, UInt64.le_iff_toNat_le.2 hwithin⟩

end GasMeter

namespace Machine

variable {setting : Setting} {m n last : Machine} {k : Nat}

theorem gas_of_execute {frame : Frame} {rest : List Frame} {i : Instruction} {size : Nat} {gas : GasMeter}
    (h : i.execute setting frame.pointer (m.entering frame rest size gas) = .ok () n) : n.gas = gas :=
  congrArg Book.gas ((i.execute_bookless setting frame.pointer).book_of_ok h)

/-- A step that succeeds has paid for its instruction. -/
theorem charge_of_step (h : step setting m = .ok () n) :
    ∃ frame rest i size p, m.calls.frames = frame :: rest ∧
      decode frame.script.bytes frame.pointer = .ok (i, size) ∧
      price setting.schedule i (m.fetched frame) = .ok p (m.fetched frame) ∧ m.gas.charge p = .ok n.gas := by
  obtain ⟨frame, rest, i, size, p, gas, hframes, hi, -, hprice, hgas, hexecute, -⟩ := step_eq_ok.1 h
  exact ⟨frame, rest, i, size, p, hframes, hi, hprice, by rw [gas_of_execute hexecute, hgas]⟩

theorem debited_of_step (hm : m.gas.Solvent) (h : step setting m = .ok () n) : m.gas.Debited n.gas := by
  obtain ⟨frame, rest, i, size, p, -, -, -, hgas⟩ := charge_of_step h
  exact GasMeter.debited_of_charge hm hgas

theorem debited_of_step_error {fault : Fault} (hm : m.gas.Solvent) (hframes : m.calls.frames ≠ [])
    (h : step setting m = .error fault n) : m.gas.Debited n.gas := by
  obtain ⟨frame, rest, hframes⟩ := List.exists_cons_of_ne_nil hframes
  rcases ((step_eq_error hframes).1 h).count with ⟨hgas, -⟩ | ⟨p, hgas, -⟩
  · rw [hgas]
    exact .refl hm
  · exact GasMeter.debited_of_charge hm hgas

theorem debited_of_advance (hlive : m.Live) (hm : m.status = .running) (hgas : m.gas.Solvent) :
    m.gas.Debited (m.advance setting).gas := by
  have hframes := hlive.frames_ne_nil hm
  rcases hlive.advance_eq_step setting hm with ⟨n, status, hstep, hn⟩ | ⟨fault, n, hstep, hn⟩
  · have hpaid := debited_of_step hgas hstep
    rw [hn]
    exact hpaid
  · have hfailed := debited_of_step_error hgas hframes hstep
    rw [hn]
    exact hfailed

/-- Along a run the budget stays and gas is only ever used. -/
theorem Steps.debited (h : Steps setting k m last) (hlive : m.Live) (hgas : m.gas.Solvent) :
    m.gas.Debited last.gas := by
  induction h with
  | refl => exact .refl hgas
  | @cons k m last hm _ ih =>
    have hone : m.gas.Debited (m.advance setting).gas := debited_of_advance hlive hm hgas
    exact hone.trans (ih (hlive.advance setting hm) hone.solvent)

theorem solvent_of_load {limits : Limits} {script : Bytes} {entry : Nat} {arguments : List Item} {heap : Heap}
    (h : load limits script entry arguments (initial limits heap) = .ok () m) :
    m.gas.Solvent ∧ m.gas.consumed = 0 ∧ m.steps = 0 := by
  obtain ⟨hm, -⟩ := load_eq_ok h
  rw [hm]
  exact ⟨UInt64.le_iff_toNat_le.2 (Nat.zero_le _), rfl, rfl⟩

end Machine
end LedgerVM
