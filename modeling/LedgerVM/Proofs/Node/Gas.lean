import LedgerVM.Proofs.Machine.Account
import LedgerVM.Proofs.Node.Execution
import Mathlib.Algebra.Ring.Int.Defs

/-!
# The gas of machines and receipts

Machines pay for what they count and nothing else, in every state that a debugger can see (`gas_ledger_exact`).  The
receipt of a transaction reports what its machine used, which the configured budget and the fee of the transaction
cover together (`Host.gas_of_runTransaction`).
-/

namespace LedgerVM

namespace Host

variable {host : Host} {fuel : Nat} {persisting : Option Block} {invocation : Invocation}

/-- No receipt reports more gas than the limits of its invocation allow. -/
theorem gas_of_execute {e : Execution} (h : (execute fuel host persisting invocation).run = some (.ok e)) :
    e.receipt.gas ≤ (host.limitsFor invocation).gas := by
  rcases execute_eq_some h with ⟨fault, -, he⟩ | ⟨start, m, hloads, hends, he⟩
  · cases he
  · cases he
    have hdebug : start.debug (host.application persisting invocation) [.execute fuel] = some m := by
      rw [Machine.debug, List.foldlM_cons]
      exact Option.bind_eq_some_iff.2 ⟨m, hends, rfl⟩
    obtain ⟨-, hlimit, hsolvent⟩ := Machine.accounted_of_debug hloads hdebug
    rw [hlimit] at hsolvent
    exact hsolvent

theorem toNat_gas_limitsFor (config : Config) (tx : Transaction) :
    ((config.limitsFor tx).gas.toNat : Int) = min (config.limits.gas.toNat + max tx.gas.toInt 0) (2 ^ 64 - 1) := by
  have hsize : UInt64.size = 2 ^ 64 := rfl
  have hgas : (config.limitsFor tx).gas.toNat = min (config.limits.gas.toNat + tx.gas.toInt.toNat) (2 ^ 64 - 1) := by
    show (UInt64.ofNat (min _ (UInt64.size - 1))).toNat = _
    rw [UInt64.toNat_ofNat_of_lt' (by omega), hsize]
  rw [hgas]
  omega

/-- The receipt of a transaction reports no more gas than the configured budget and the fee of the transaction. -/
theorem gas_of_runTransaction {tx : Transaction} {receipt : Receipt} {store : Store}
    (h : (host.runTransaction fuel tx).run = some (.ok (receipt, store))) :
    (receipt.gas.toNat : Int) ≤ min (host.config.limits.gas.toNat + max tx.gas.toInt 0) (2 ^ 64 - 1) := by
  unfold runTransaction at h
  split at h
  · rcases run_bind_eq_some.1 h with ⟨error, -, hanswer⟩ | ⟨e, he, hcommit⟩
    · cases hanswer
    rcases run_bind_eq_some.1 hcommit with ⟨error, -, hanswer⟩ | ⟨committed, -, hanswer⟩
    · cases hanswer
    cases hanswer
    have hwithin := UInt64.le_iff_toNat_le.1 (gas_of_execute he)
    have hlimit := toNat_gas_limitsFor host.config tx
    have hsame : host.limitsFor (.ofTransaction tx) = host.config.limitsFor tx := rfl
    rw [hsame] at hwithin
    omega
  · cases h

end Host

open Machine

variable {setting : Setting} {m start : Machine} {script : Bytes} {entry : Nat} {arguments : List Item} {heap : Heap}
  {calls : List DebugCall}

/-- However a machine is driven, the gas it used is the sum of the prices of the instructions it counted, each on the
machine as it was just before.  It stays within the budget and never decreases.  A step that is barred leaves everything
as it was, and one that fails later was paid for and counted.  A receipt reports no more gas than the configured budget
and the fee of its transaction, if that is positive. -/
theorem gas_ledger_exact
    (hload : load setting.limits script entry arguments (initial setting.limits heap) = .ok () start)
    (hdebug : start.debug setting calls = some m) :
    m.Accounted setting start ∧
    (∀ more n, m.debug setting more = some n → m.gas.consumed ≤ n.gas.consumed) ∧
    (∀ fault, m.Barred setting fault → step setting m = .error fault { m with cursor := m.location? }) ∧
    (∀ fault n, m.status.isTerminal = false → step setting m = .error fault n →
      m.Barred setting fault ∨ ∃ p, m.Paid setting p n) ∧
    ∀ (host : Host) fuel tx receipt store, (host.runTransaction fuel tx).run = some (.ok (receipt, store)) →
      (receipt.gas.toNat : Int) ≤ min (host.config.limits.gas.toNat + max tx.gas.toInt 0) (2 ^ 64 - 1) := by
  have haccount := accounted_of_debug hload hdebug
  obtain ⟨hlive, j, hfirst⟩ := steps_of_driven hload hdebug
  refine ⟨haccount, ?_, ?_, ?_, ?_⟩
  · intro more n hmore
    obtain ⟨-, k, hrun⟩ := steps_of_debug hlive hmore
    have hdebited := hrun.debited (hfirst.live (fresh_of_load hload).1) haccount.solvent
    exact UInt64.le_iff_toNat_le.2 hdebited.consumed
  · exact fun fault => step_of_barred
  · intro fault n hgoes hstep
    exact paid_of_step_error haccount.solvent (hlive hgoes) hstep
  · exact fun host fuel tx receipt store => Host.gas_of_runTransaction

/-- A setting with gas for one addition. -/
def tight : Setting := { Setting.blank with limits := { gas := 1 } }

/-- A host without free gas, and a transaction that pays for one addition and asks for two. -/
def feeOfOne : Transaction :=
  { hash := .zero 32, type := .invocation, version := 0, attributes := [], inputs := [], outputs := []
    script := [0x51, 0x52, 0x93, 0x51, 0x93], gas := 1 }

/-- The first of two additions is paid for, and the second is not executed. -/
theorem second_addition_barred :
    (∃ m, (ofScript tight.limits feeOfOne.script).debug tight [.stepInto, .stepInto, .stepInto, .stepInto] = some m ∧
      m.Accounted tight (ofScript tight.limits feeOfOne.script) ∧ m.gas.consumed = 1 ∧ m.steps = 4 ∧
      step tight m = .error (.insufficientGas 1 0) { m with cursor := m.location? }) ∧
    ∃ receipt store, (({ Host.blank with config := { limits := { gas := 0 } } } : Host).runTransaction 8 feeOfOne).run =
      some (.ok (receipt, store)) ∧ receipt.gas = 1 ∧ (receipt.gas.toNat : Int) ≤ min (0 + max 1 0) (2 ^ 64 - 1) := by
  have hends : ((ofScript tight.limits feeOfOne.script).debug tight [.stepInto, .stepInto, .stepInto, .stepInto]).map
      (fun m => (m.gas, m.steps, m.quote tight)) = some ({ limit := 1, consumed := 1 }, 4, some 1) := by
    decide +kernel
  obtain ⟨m, hdebug, hm⟩ := Option.map_eq_some_iff.1 hends
  obtain ⟨hgas, hm⟩ := Prod.mk.inj hm
  obtain ⟨hsteps, hquote⟩ := Prod.mk.inj hm
  have hload := load_ofScript feeOfOne.script (show 0 < tight.limits.callDepth by decide)
  obtain ⟨haccount, -, hbarred, -, hreceipts⟩ := gas_ledger_exact hload hdebug
  have hremaining : m.gas.remaining = 0 := by rw [hgas]; rfl
  have hshort : m.Barred tight (.insufficientGas 1 0) := by
    rw [← hremaining]
    refine .gas nofun hquote ?_
    rw [hremaining]
    decide
  have hanswer : ((({ Host.blank with config := { limits := { gas := 0 } } } : Host).runTransaction 8 feeOfOne).run.map
      fun answer => answer.toOption.map fun (receipt, _) => receipt.gas) = some (some 1) := by
    decide +kernel
  obtain ⟨answer, hanswer, hreceipt⟩ := Option.map_eq_some_iff.1 hanswer
  refine ⟨⟨m, hdebug, haccount, by rw [hgas], hsteps, hbarred _ hshort⟩, ?_⟩
  cases answer with
  | error e => cases hreceipt
  | ok answer =>
    exact ⟨answer.1, answer.2, hanswer, Option.some.inj hreceipt, hreceipts _ _ _ _ _ hanswer⟩

end LedgerVM
