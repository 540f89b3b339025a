import LedgerVM.Proofs.Node.Execution

/-!
# Invocations are atomic

A request to run a transaction or a script either halts, and then the store is as the last write to each key asks,
or leaves the store as it was: because the run faulted, could not be set up or may not be committed
(`Host.request_is_atomic`).
-/

namespace LedgerVM

/-- A request to run one invocation and to commit what it wants. -/
inductive Request where
  | transaction (tx : Transaction)
  | script (invocation : Invocation)

namespace Request

/-- The invocation that is asked for. -/
def invocation : Request → Invocation
  | transaction tx => .ofTransaction tx
  | script invocation => invocation

/-- The answer to a request, if the run is not given up. -/
def answer (fuel : Nat) (host : Host) : Request → Option (Except NodeError (Receipt × Store))
  | transaction tx => (host.runTransaction fuel tx).run
  | script invocation => (host.runScript fuel invocation).run

/-- Why a request is refused. -/
inductive Refused (fuel : Nat) (host : Host) : Request → NodeError → Prop
  | notInvocation {tx : Transaction} (h : tx.type ≠ .invocation) :
      Refused fuel host (transaction tx) (.notInvocation tx.hash)
  | fails {request : Request} {fault : Fault}
      (h : request.invocation.Fails (host.application none request.invocation) fault) :
      Refused fuel host request (.fault fault)
  | closed {request : Request} {start : Machine} (hclosed : host.store.closed)
      (hloads : request.invocation.Loads (host.application none request.invocation) start)
      (hwrites : start.writes (host.application none request.invocation) fuel ≠ []) :
      Refused fuel host request (.store .closed)

end Request

namespace Host

variable {host : Host} {fuel : Nat}

/-- A request is answered by running its invocation and committing its changes, unless it is no invocation. -/
private theorem answer_eq_some {request : Request} {answer : Except NodeError (Receipt × Store)}
    (h : request.answer fuel host = some answer) :
    (∃ tx, request = .transaction tx ∧ tx.type ≠ .invocation ∧ answer = .error (.notInvocation tx.hash)) ∨
    (host.runScript fuel request.invocation).run = some answer := by
  cases request with
  | script invocation => exact .inr h
  | transaction tx =>
    by_cases htype : tx.type = .invocation
    · simp only [Request.answer, runTransaction, if_pos htype] at h
      exact .inr h
    · simp only [Request.answer, runTransaction, if_neg htype] at h
      cases h
      exact .inl ⟨tx, rfl, htype, rfl⟩

/-- Running a transaction or a script is all or nothing.  If it halts, the store is the one before with every
write of the run made and the receipt counts the keys; if it faults, nothing is left of the run; and a request
that is refused leaves the store alone. -/
theorem request_is_atomic {request : Request} {answer : Except NodeError (Receipt × Store)}
    (h : request.answer fuel host = some answer) :
    (∃ receipt start, answer = .ok (receipt, host.storeAfter answer) ∧ receipt.status = .halted ∧
      request.invocation.Loads (host.application none request.invocation) start ∧
      host.store.HasWritten (start.writes (host.application none request.invocation) fuel)
        (host.storeAfter answer) ∧
      receipt.writes = (Write.keys (start.writes (host.application none request.invocation) fuel)).length) ∨
    (∃ receipt, answer = .ok (receipt, host.storeAfter answer) ∧ receipt.status = .faulted ∧
      host.storeAfter answer = host.store ∧ receipt.writes = 0 ∧ receipt.stack = [] ∧
      receipt.notifications = []) ∨
    ∃ error, answer = .error error ∧ host.storeAfter answer = host.store ∧ request.Refused fuel host error := by
  rcases answer_eq_some h with ⟨tx, rfl, htype, rfl⟩ | hscript
  · exact .inr (.inr ⟨_, rfl, rfl, .notInvocation htype⟩)
  · rcases run_bind_eq_some.1 hscript with ⟨error, hexecute, rfl⟩ | ⟨e, hexecute, hcommit⟩
    · rcases execute_eq_some hexecute with ⟨fault, hfails, he⟩ | ⟨start, m, -, -, he⟩
      · cases he
        exact .inr (.inr ⟨_, rfl, rfl, .fails hfails⟩)
      · cases he
    · rcases execute_eq_some hexecute with ⟨fault, -, he⟩ | ⟨start, m, hloads, hends, he⟩
      · cases he
      · cases he
        rcases execute_ends hloads hends (receiptHash request.invocation) with hhalts | hfaults
        · rcases committed_eq_some hcommit with ⟨hclosed, hchanges, rfl⟩ | ⟨-, rfl⟩
          · rw [hhalts.changes, ChangeSet.isEmpty_recordAll] at hchanges
            exact .inr (.inr ⟨_, rfl, rfl, .closed hclosed hloads (by simpa using hchanges)⟩)
          · refine .inl ⟨_, start, rfl, hhalts.status, hloads, ?_, hhalts.writes⟩
            rw [storeAfter, hhalts.changes, Store.applyAll_toList_recordAll]
            exact host.store.hasWritten_applyAll _
        · rw [hfaults.changes] at hcommit
          rcases committed_eq_some hcommit with ⟨-, hchanges, -⟩ | ⟨-, rfl⟩
          · exact absurd hchanges (by decide)
          · exact .inr (.inl ⟨_, rfl, hfaults.status, rfl, hfaults.writes, hfaults.stack, hfaults.notifications⟩)

/-- Puts a value into the vault twice and deletes the entry that stands there. -/
def revision : Invocation := { script := vaultPut 1 7 ++ vaultDelete 3 ++ vaultPut 1 8 }

/-- Puts a value into the vault and throws. -/
def retraction : Invocation := { script := vaultPut 1 7 ++ [0xF0] }

/-- Of the writes of a run that halts, the last to each key is in the store, and of one that throws, none. -/
theorem last_writes_committed :
    (∃ receipt store, ∃ start : Machine, (Request.script revision).answer 32 keeper = some (.ok (receipt, store)) ∧
      receipt.status = .halted ∧ receipt.writes = 2 ∧ revision.Loads (keeper.application none revision) start ∧
      keeper.store.HasWritten (start.writes (keeper.application none revision) 32) store ∧
      [1, 3].map (fun key => store.entries[vaultKey key]?) = [some [8], none]) ∧
    ∃ receipt store, (Request.script retraction).answer 32 keeper = some (.ok (receipt, store)) ∧
      receipt.status = .faulted ∧ store = keeper.store ∧ receipt.writes = 0 := by
  constructor
  · have hanswer : ((Request.script revision).answer 32 keeper).bind
        (fun answer => answer.toOption.map fun (receipt, store) => (receipt.status, receipt.writes,
          [1, 3].map fun key => store.entries[vaultKey key]?)) = some (.halted, 2, [some [8], none]) := by
      simp only [Request.answer, runScript, execute, run, Machine.execute_eq_runListed]
      decide +kernel
    obtain ⟨answer, h, hshape⟩ := Option.bind_eq_some_iff.1 hanswer
    rcases request_is_atomic h with
      ⟨receipt, start, hok, hstatus, hloads, hwritten, -⟩ | ⟨receipt, hok, hstatus, -⟩ | ⟨error, herror, -⟩
    · rw [hok] at hshape
      obtain ⟨-, hshape⟩ := Prod.mk.inj (Option.some.inj hshape)
      obtain ⟨hwrites, hentries⟩ := Prod.mk.inj hshape
      exact ⟨receipt, _, start, h.trans (congrArg some hok), hstatus, hwrites, hloads, hwritten, hentries⟩
    · rw [hok] at hshape
      obtain ⟨hhalted, -⟩ := Prod.mk.inj (Option.some.inj hshape)
      rw [hstatus] at hhalted
      cases hhalted
    · rw [herror] at hshape
      cases hshape
  · have hanswer : ((Request.script retraction).answer 32 keeper).bind
        (fun answer => answer.toOption.map fun (receipt, _) => receipt.status) = some .faulted := by
      simp only [Request.answer, runScript, execute, run, Machine.execute_eq_runListed]
      decide +kernel
    obtain ⟨answer, h, hshape⟩ := Option.bind_eq_some_iff.1 hanswer
    rcases request_is_atomic h with
      ⟨receipt, start, hok, hstatus, -⟩ | ⟨receipt, hok, hstatus, hstore, hwrites, -⟩ | ⟨error, herror, -⟩
    · rw [hok] at hshape
      have hfaulted : receipt.status = .faulted := Option.some.inj hshape
      rw [hstatus] at hfaulted
      cases hfaulted
    · exact ⟨receipt, _, h.trans (congrArg some hok), hstatus, hstore, hwrites⟩
    · rw [herror] at hshape
      cases hshape

end Host
end LedgerVM
