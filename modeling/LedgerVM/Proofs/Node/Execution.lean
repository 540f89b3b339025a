import LedgerVM.Node.Execution
import LedgerVM.Proofs.Machine.Serving
import LedgerVM.Proofs.Machine.Writes

/-!
# What a node gets from one invocation

* `Host.execute_eq_some`: an invocation that is answered was set up and ran to its end, or could not be set up.
* `Host.execute_ends`: its receipt and changes are those of a machine that halted with all of its writes, or of
  one that faulted and wants nothing.
* `Host.commit_eq`: a commit applies every change, or refuses and applies none.
-/

namespace LedgerVM

/-- A computation that may be given up is answered if its parts are, up to the first that fails. -/
theorem run_bind_eq_some {ε α β : Type} {x : ExceptT ε Option α} {f : α → ExceptT ε Option β}
    {answer : Except ε β} :
    (x >>= f).run = some answer ↔
      (∃ e, x.run = some (.error e) ∧ answer = .error e) ∨
        ∃ a, x.run = some (.ok a) ∧ (f a).run = some answer := by
  rw [ExceptT.run_bind]
  cases x.run with
  | none => simp
  | some result =>
    cases result with
    | error e => simp [eq_comm]
    | ok a => simp

/-- The machine that an invocation sets up. -/
def Invocation.Loads (setting : Setting) (invocation : Invocation) (start : Machine) : Prop :=
  Machine.load setting.limits invocation.script invocation.entry invocation.arguments
    (.initial setting.limits invocation.heap) = .ok () start

/-- The fault for which an invocation cannot be set up. -/
def Invocation.Fails (setting : Setting) (invocation : Invocation) (fault : Fault) : Prop :=
  ∃ m, Machine.load setting.limits invocation.script invocation.entry invocation.arguments
    (.initial setting.limits invocation.heap) = .error fault m

/-- A run that halted: its changes are all of the writes, each key counted once. -/
structure Execution.Halts (e : Execution) (ws : List Write) : Prop where
  status : e.receipt.status = .halted
  changes : e.changes = ChangeSet.empty.recordAll ws
  writes : e.receipt.writes = (Write.keys ws).length

/-- A run that faulted: it leaves no results, notifications or changes. -/
structure Execution.Faults (e : Execution) : Prop where
  status : e.receipt.status = .faulted
  stack : e.receipt.stack = []
  notifications : e.receipt.notifications = []
  changes : e.changes = .empty
  writes : e.receipt.writes = 0

namespace Host

variable {host : Host} {fuel : Nat} {persisting : Option Block} {invocation : Invocation}

/-- The setting in which a node runs an invocation as an application. -/
def application (host : Host) (persisting : Option Block) (invocation : Invocation) : Setting :=
  host.setting .application (host.limitsFor invocation) persisting invocation

private theorem run_eq_some {setting : Setting} {answer : Except NodeError Machine}
    (h : (run fuel setting invocation).run = some answer) :
    (∃ fault, invocation.Fails setting fault ∧ answer = .error (.fault fault)) ∨
    ∃ start m, invocation.Loads setting start ∧ start.execute setting fuel = some m ∧ answer = .ok m := by
  unfold run at h
  dsimp only [EStateM.run] at h
  split at h
  · rename_i start hload
    obtain ⟨m, hm, rfl⟩ := Option.map_eq_some_iff.1 h
    exact .inr ⟨start, m, hload, hm, rfl⟩
  · rename_i fault m hload
    cases h
    exact .inl ⟨fault, ⟨m, hload⟩, rfl⟩

/-- An invocation that is answered was set up and ran to its end, or could not be set up. -/
theorem execute_eq_some {answer : Except NodeError Execution}
    (h : (execute fuel host persisting invocation).run = some answer) :
    (∃ fault, invocation.Fails (host.application persisting invocation) fault ∧ answer = .error (.fault fault)) ∨
    ∃ start m, invocation.Loads (host.application persisting invocation) start ∧
      start.execute (host.application persisting invocation) fuel = some m ∧
      answer = .ok { receipt := .ofMachine (receiptHash invocation) m, changes := m.outcomeChanges } := by
  rcases run_bind_eq_some.1 h with ⟨e, hrun, rfl⟩ | ⟨m, hrun, hanswer⟩
  · rcases run_eq_some hrun with ⟨fault, hfails, he⟩ | ⟨start, m, -, -, he⟩
    · cases he
      exact .inl ⟨fault, hfails, rfl⟩
    · cases he
  · rcases run_eq_some hrun with ⟨fault, -, hm⟩ | ⟨start, m', hloads, hends, hm⟩
    · cases hm
    · cases hm
      cases hanswer
      exact .inr ⟨start, m, hloads, hends, rfl⟩

/-- An invocation that runs to its end halts with all of its writes, or faults. -/
theorem execute_ends {start m : Machine} (hloads : invocation.Loads (host.application persisting invocation) start)
    (hends : start.execute (host.application persisting invocation) fuel = some m) (txHash : Hash256) :
    let e : Execution := { receipt := .ofMachine txHash m, changes := m.outcomeChanges }
    e.Halts (start.writes (host.application persisting invocation) fuel) ∨ e.Faults := by
  intro e
  rcases Machine.execute_eq_some hloads hends with ⟨hstatus, hchanges⟩ | ⟨hstatus, hresults, hnotifications, -⟩
  · have houtcome : m.outcomeChanges = m.effects.changes := if_pos hstatus
    have hwrites : e.changes = ChangeSet.empty.recordAll _ := houtcome.trans hchanges
    refine .inl ⟨hstatus, hwrites, ?_⟩
    show e.changes.size = _
    rw [hwrites, ChangeSet.size_recordAll]
  · have houtcome : m.outcomeChanges = .empty := if_neg (by rw [hstatus]; decide)
    refine .inr ⟨hstatus, ?_, ?_, houtcome, ?_⟩
    · show m.results.map _ = []
      rw [hresults, List.map_nil]
    · show m.effects.notifications.map _ = []
      rw [hnotifications, List.map_nil]
    · show m.outcomeChanges.size = 0
      rw [houtcome]
      rfl

/-- A commit applies every change, or is refused by a closed store. -/
theorem commit_eq (host : Host) (changes : ChangeSet) :
    host.commit changes =
      if host.store.closed ∧ changes.isEmpty = false then .error (.store .closed)
      else .ok (host.store.applyAll changes.toList) := by
  unfold commit
  cases hempty : changes.isEmpty with
  | true =>
    -- even a closed store is not asked if there is nothing to commit
    have hnil : changes.toList = [] :=
      Std.ExtTreeMap.toList_eq_nil_iff.2 (Std.ExtTreeMap.isEmpty_iff.1 hempty)
    simp [hnil, Store.applyAll]
  | false =>
    rw [if_neg (by decide), Store.commit_eq]
    cases hclosed : host.store.closed <;> simp [Except.mapError]

/-- The store after an answer: the one that comes with it, or the one before if it is an error. -/
def storeAfter {α : Type} (host : Host) : Except NodeError (α × Store) → Store
  | .ok (_, store) => store
  | .error _ => host.store

/-- Changes are reported with what a commit makes of the store, or refused with nothing. -/
theorem committed_eq_some {α : Type} {x : α} {changes : ChangeSet} {answer : Except NodeError (α × Store)}
    (h : (do return (x, ← ExceptT.mk (some (host.commit changes))) : ExceptT NodeError Option (α × Store)).run =
      some answer) :
    (host.store.closed ∧ changes.isEmpty = false ∧ answer = .error (.store .closed)) ∨
      ((host.store.closed → changes.isEmpty) ∧ answer = .ok (x, host.store.applyAll changes.toList)) := by
  have hcommit := host.commit_eq changes
  by_cases hrefused : host.store.closed ∧ changes.isEmpty = false
  · rw [if_pos hrefused] at hcommit
    rw [hcommit] at h
    cases h
    exact .inl ⟨hrefused.1, hrefused.2, rfl⟩
  · rw [if_neg hrefused] at hcommit
    rw [hcommit] at h
    cases h
    refine .inr ⟨fun hclosed => ?_, rfl⟩
    simpa [hclosed] using hrefused

/-- A node with the default settings on an empty ledger and an empty store. -/
def blank : Host := { config := {}, ledger := .available .empty, store := .empty }

/-- The same node with the vault on its ledger, in which one entry stands. -/
def keeper : Host := { blank with ledger := .withVault, store := Store.empty.insert (vaultKey 3) [6] }

end Host
end LedgerVM
