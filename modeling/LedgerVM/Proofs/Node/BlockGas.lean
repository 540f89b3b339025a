import LedgerVM.Proofs.Node.Block
import LedgerVM.Proofs.Node.Gas
import LedgerVM.Proofs.Script.Locality

/-!
# The gas of a block

Every receipt of a block stays within the budget of its invocation, which is a number of 64 bits, but a block may have
any number of receipts, and the sum of their gas is checked to be such a number too.  So a block tells its gas as long
as the budgets together fit in 64 bits, and panics where the gas that was used does not, after the block has been
committed (`Host.gas_of_validateBlock`).
-/

namespace LedgerVM

/-- A checked sum is the exact one. -/
theorem checkedAdd_eq_ok {a b c : UInt64} : checkedAdd a b = .ok c ↔ c.toNat = a.toNat + b.toNat := by
  have hc : c.toNat < UInt64.size := c.toNat_lt
  unfold checkedAdd
  split
  · rename_i hfits
    have hsum : (a + b).toNat = a.toNat + b.toNat := by
      rw [UInt64.toNat_add]
      exact Nat.mod_eq_of_lt hfits
    rw [Except.ok.injEq, ← UInt64.toNat_inj, hsum, eq_comm]
  · rename_i hover
    refine iff_of_false nofun fun hexact => ?_
    omega

namespace BlockReceipt

variable {r : BlockReceipt}

/-- The gas used by all invocations of a block together. -/
def used (r : BlockReceipt) : Nat := (r.receipts.map fun receipt => receipt.gas.toNat).sum

/-- A block tells the gas that was used, and nothing else. -/
theorem gas_eq_ok {gas : UInt64} : r.gas = .ok gas ↔ gas.toNat = r.used := by
  have hfold (receipts : List Receipt) (start : UInt64) :
      receipts.foldlM (fun sum receipt => checkedAdd sum receipt.gas) start = .ok gas ↔
        gas.toNat = start.toNat + (receipts.map fun receipt => receipt.gas.toNat).sum := by
    induction receipts generalizing start with
    | nil =>
      rw [List.foldlM_nil, List.map_nil, List.sum_nil, Nat.add_zero, eq_comm (a := gas.toNat), UInt64.toNat_inj]
      exact Except.ok.injEq start gas ▸ Iff.rfl
    | cons receipt receipts ih =>
      rw [List.foldlM_cons, except_bind_eq_ok]
      simp only [ih, checkedAdd_eq_ok, List.map_cons, List.sum_cons]
      constructor
      · rintro ⟨sum, hsum, hgas⟩
        omega
      · intro hgas
        have hlt := gas.toNat_lt
        have hfits : start.toNat + receipt.gas.toNat < UInt64.size := by
          have hsize : UInt64.size = 2 ^ 64 := rfl
          omega
        have hsum : (UInt64.ofNat (start.toNat + receipt.gas.toNat)).toNat = start.toNat + receipt.gas.toNat :=
          UInt64.toNat_ofNat_of_lt' hfits
        exact ⟨_, hsum, by omega⟩
  rw [BlockReceipt.gas, hfold, used, UInt64.toNat_zero, Nat.zero_add]

/-- It panics where 64 bits cannot hold what was used. -/
theorem gas_eq_error {panic : Panic} : r.gas = .error panic ↔ 2 ^ 64 ≤ r.used := by
  cases hgas : r.gas with
  | ok gas =>
    have hlt := gas.toNat_lt
    have hexact := gas_eq_ok.1 hgas
    refine iff_of_false nofun ?_
    omega
  | error other =>
    refine iff_of_true ?_ ?_
    · cases other
      cases panic
      rfl
    · by_contra hfits
      have hexact : (UInt64.ofNat r.used).toNat = r.used := UInt64.toNat_ofNat_of_lt' (Nat.not_le.1 hfits)
      rw [gas_eq_ok.2 hexact] at hgas
      cases hgas

/-- The text of a block tells its gas, and panics where that does. -/
theorem text_eq_error {panic : Panic} : r.text = .error panic ↔ r.gas = .error panic := by
  unfold text
  cases r.gas with
  | ok gas => exact iff_of_false nofun nofun
  | error other =>
    constructor
    all_goals
      rintro ⟨⟩
      rfl

end BlockReceipt

namespace Host

variable {host : Host} {fuel : Nat} {block : Block} {receipt : BlockReceipt} {store : Store}

/-- The gas that a transaction may use: the configured budget and its fee, if that is positive, up to the greatest
number of 64 bits. -/
def budget (host : Host) (tx : Transaction) : Int :=
  min (host.config.limits.gas.toNat + max tx.gas.toInt 0) (2 ^ 64 - 1)

/-- A validated block has the receipts of its invocations run alone. -/
theorem receipts_of_validateBlock (h : (host.validateBlock fuel block).run = some (.ok (receipt, store))) :
    List.Forall₂ (fun tx r => ∃ e, host.RunsAlone fuel block tx e ∧ r = e.receipt) (invocations block)
      receipt.receipts := by
  rcases run_bind_eq_some.1 h with ⟨error, -, hanswer⟩ | ⟨runs, hruns, hcommit⟩
  · cases hanswer
  · rcases mapM_run_eq_some hruns with ⟨tx, -, e, -, hanswer⟩ | ⟨runs', halone, hanswer⟩
    · cases hanswer
    cases hanswer
    rcases committed_eq_some hcommit with ⟨-, -, hanswer⟩ | ⟨-, hanswer⟩
    · cases hanswer
    cases hanswer
    exact List.forall₂_map_right_iff.2 (halone.imp fun tx e he => ⟨e, he, rfl⟩)

/-- No receipt of a block reports more gas than its invocation may use. -/
theorem gas_of_runsAlone {tx : Transaction} {e : Execution} (h : host.RunsAlone fuel block tx e) :
    (e.receipt.gas.toNat : Int) ≤ host.budget tx := by
  have hwithin := UInt64.le_iff_toNat_le.1 (gas_of_execute h)
  have hlimit : ((host.limitsFor (.ofTransaction tx)).gas.toNat : Int) = host.budget tx :=
    toNat_gas_limitsFor host.config tx
  omega

private theorem sum_gas_le {txs : List Transaction} {receipts : List Receipt}
    (h : List.Forall₂ (fun tx r => (r.gas.toNat : Int) ≤ host.budget tx) txs receipts) :
    (((receipts.map fun r => r.gas.toNat).sum : Nat) : Int) ≤ (txs.map host.budget).sum := by
  induction h with
  | nil => exact Int.le_refl 0
  | cons hle _ ih =>
    rw [List.map_cons, List.map_cons, List.sum_cons, List.sum_cons, Int.natCast_add]
    exact Int.add_le_add hle ih

/-- A validated block tells the gas that its invocations used, whenever it tells any.  It panics where 64 bits cannot
hold that gas, and so does its text, though the block is committed by then.  They can hold it if they can hold the
budgets of the invocations together, for none uses more than its own. -/
theorem gas_of_validateBlock (h : (host.validateBlock fuel block).run = some (.ok (receipt, store))) :
    (∀ gas, receipt.gas = .ok gas ↔ gas.toNat = receipt.used) ∧
    (receipt.gas = .error .addOverflow ↔ 2 ^ 64 ≤ receipt.used) ∧
    (receipt.text = .error .addOverflow ↔ 2 ^ 64 ≤ receipt.used) ∧
    List.Forall₂ (fun tx r => (r.gas.toNat : Int) ≤ host.budget tx) (invocations block) receipt.receipts ∧
    (((invocations block).map host.budget).sum < 2 ^ 64 →
      ∃ gas, receipt.gas = .ok gas ∧ gas.toNat = receipt.used) := by
  have hwithin : List.Forall₂ (fun tx r => (r.gas.toNat : Int) ≤ host.budget tx) (invocations block) receipt.receipts :=
    (receipts_of_validateBlock h).imp fun tx r ⟨e, halone, hr⟩ => hr ▸ gas_of_runsAlone halone
  refine ⟨fun _ => BlockReceipt.gas_eq_ok, BlockReceipt.gas_eq_error,
    BlockReceipt.text_eq_error.trans BlockReceipt.gas_eq_error, hwithin, fun hbudgets => ?_⟩
  have hsum : (receipt.used : Int) ≤ ((invocations block).map host.budget).sum := sum_gas_le hwithin
  cases hgas : receipt.gas with
  | ok gas => exact ⟨gas, rfl, BlockReceipt.gas_eq_ok.1 hgas⟩
  | error panic =>
    have hover := BlockReceipt.gas_eq_error.1 hgas
    omega

/-- A node whose instructions cost half of what 64 bits can count. -/
def dear : Host :=
  { blank with
    config := { limits := { gas := 9223372036854775808 }, schedule := { instruction := 9223372036854775808 } } }

/-- Two scripts that use half of what 64 bits can count each make a block that is committed and cannot tell its gas. -/
theorem two_halves_panic :
    ∃ receipt store, (dear.validateBlock 4 (blockOf [[0x51], [0x51]])).run = some (.ok (receipt, store)) ∧
      receipt.receipts.map Receipt.status = [.halted, .halted] ∧
      receipt.used = 2 ^ 64 ∧ receipt.gas = .error .addOverflow ∧ receipt.text = .error .addOverflow := by
  have hanswer : ((dear.validateBlock 4 (blockOf [[0x51], [0x51]])).run.map fun answer =>
      answer.toOption.map fun (receipt, _) => (receipt.receipts.map Receipt.status, receipt.used)) =
        some (some ([.halted, .halted], 2 ^ 64)) := by
    decide +kernel
  obtain ⟨answer, h, hshape⟩ := Option.map_eq_some_iff.1 hanswer
  cases answer with
  | error error => cases hshape
  | ok answer =>
    obtain ⟨hstatus, hused⟩ := Prod.mk.inj (Option.some.inj hshape)
    obtain ⟨-, hgas, htext, -⟩ := gas_of_validateBlock h
    have hover := Nat.le_of_eq hused.symm
    exact ⟨answer.1, answer.2, h, hstatus, hused, hgas.2 hover, htext.2 hover⟩

end Host
end LedgerVM
