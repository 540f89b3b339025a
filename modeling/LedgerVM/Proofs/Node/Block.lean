import LedgerVM.Proofs.Node.Execution

/-!
# Validating a block

The invocations of a block run side by side against the store at the start of the block, and their changes are
merged before one commit.  The merged commit leaves the store that the changes leave when they are applied one
after the other (`applyAll_foldl_merge`), and those are the writes of the steps of the invocations that halted
(`applyRuns_eq_applyAll`).  So a validated block is the same as its invocations run alone and committed in order
(`Host.validateBlock_is_sequential`).
-/

namespace LedgerVM

/-- A list of computations is answered by the results of all of them, or by the error of one. -/
theorem mapM_run_eq_some {ε α β : Type} {f : α → ExceptT ε Option β} {xs : List α} {answer : Except ε (List β)}
    (h : (xs.mapM f).run = some answer) :
    (∃ x ∈ xs, ∃ e, (f x).run = some (.error e) ∧ answer = .error e) ∨
      ∃ ys, List.Forall₂ (fun x y => (f x).run = some (.ok y)) xs ys ∧ answer = .ok ys := by
  induction xs generalizing answer with
  | nil =>
    cases h
    exact .inr ⟨[], .nil, rfl⟩
  | cons x xs ih =>
    rw [List.mapM_cons] at h
    rcases run_bind_eq_some.1 h with ⟨e, hx, rfl⟩ | ⟨y, hx, h⟩
    · exact .inl ⟨x, List.mem_cons_self, e, hx, rfl⟩
    · rcases run_bind_eq_some.1 h with ⟨e, hrest, rfl⟩ | ⟨ys, hrest, h⟩
      · -- the first computation gave a result, and one behind it an error
        rcases ih hrest with ⟨x', hmem, e', hx', he⟩ | ⟨ys, -, he⟩
        · cases he
          exact .inl ⟨x', List.mem_cons_of_mem _ hmem, e, hx', rfl⟩
        · cases he
      · cases h
        rcases ih hrest with ⟨_, -, e', -, he⟩ | ⟨ys', hys, he⟩
        · cases he
        · cases he
          exact .inr ⟨y :: ys, .cons hx hys, rfl⟩

/-- Applies the changes of runs to a store, one after the other. -/
def Store.applyRuns (s : Store) (runs : List Execution) : Store :=
  runs.foldl (fun s e => s.applyAll e.changes.toList) s

/-- Merged changes leave the store that the changes leave one after the other. -/
theorem applyAll_foldl_merge (s : Store) (changes : ChangeSet) (runs : List Execution) :
    s.applyAll (runs.foldl (fun changes e => changes.merge e.changes) changes).toList =
      (s.applyAll changes.toList).applyRuns runs := by
  induction runs generalizing changes with
  | nil => rfl
  | cons e runs ih => rw [List.foldl_cons, ih, Store.applyAll_toList_merge]; rfl

/-- Runs that faulted do not count. -/
theorem applyRuns_filter {runs : List Execution}
    (hruns : ∀ e ∈ runs, e.receipt.isHalt = false → e.changes = .empty) (s : Store) :
    s.applyRuns (runs.filter (·.receipt.isHalt)) = s.applyRuns runs := by
  induction runs generalizing s with
  | nil => rfl
  | cons e runs ih =>
    have htail := ih fun e he => hruns e (List.mem_cons_of_mem _ he)
    cases hhalt : e.receipt.isHalt with
    | true =>
      rw [List.filter_cons_of_pos (by simp [hhalt])]
      exact htail _
    | false =>
      rw [List.filter_cons_of_neg (by simp [hhalt]), htail]
      have hnone := hruns e List.mem_cons_self hhalt
      show s.applyRuns runs = (s.applyAll e.changes.toList).applyRuns runs
      rw [hnone]
      rfl

/-- Counting the changes of runs is counting the writes of their receipts. -/
theorem foldl_size_eq {runs : List Execution} (hruns : ∀ e ∈ runs, e.receipt.writes = e.changes.size) (start : Nat) :
    runs.foldl (fun total e => total + e.changes.size) start =
      (runs.map Execution.receipt).foldl (fun total receipt => total + receipt.writes) start := by
  induction runs generalizing start with
  | nil => rfl
  | cons e runs ih =>
    rw [List.foldl_cons, List.map_cons, List.foldl_cons, hruns e List.mem_cons_self]
    exact ih (fun e he => hruns e (List.mem_cons_of_mem _ he)) _

/-! ### The writes of runs -/

section Ends

variable {runs : List (Execution × List Write)}

/-- The writes of the runs that halted, in order. -/
def haltedWrites (runs : List (Execution × List Write)) : List Write :=
  (runs.filter (·.1.receipt.isHalt)).flatMap Prod.snd

private theorem changes_of_ends (hruns : ∀ run ∈ runs, run.1.Halts run.2 ∨ run.1.Faults) :
    ∀ e ∈ runs.map Prod.fst, e.receipt.isHalt = false → e.changes = .empty := by
  intro e he hfaulted
  obtain ⟨run, hrun, rfl⟩ := List.mem_map.1 he
  rcases hruns run hrun with hhalts | hfaults
  · have hhalt : decide (run.1.receipt.status = .halted) = true := decide_eq_true hhalts.status
    exact absurd (hhalt.symm.trans hfaulted) (by decide)
  · exact hfaults.changes

private theorem writes_of_ends (hruns : ∀ run ∈ runs, run.1.Halts run.2 ∨ run.1.Faults) :
    ∀ e ∈ runs.map Prod.fst, e.receipt.writes = e.changes.size := by
  intro e he
  obtain ⟨run, hrun, rfl⟩ := List.mem_map.1 he
  rcases hruns run hrun with hhalts | hfaults
  · rw [hhalts.writes, hhalts.changes, ChangeSet.size_recordAll]
  · rw [hfaults.writes, hfaults.changes]
    rfl

/-- The changes of the runs that halted leave the store that their writes leave. -/
theorem applyRuns_eq_applyAll (hruns : ∀ run ∈ runs, run.1.Halts run.2 ∨ run.1.Faults) (s : Store) :
    s.applyRuns ((runs.map Prod.fst).filter (·.receipt.isHalt)) = s.applyAll (haltedWrites runs) := by
  induction runs generalizing s with
  | nil => rfl
  | cons run runs ih =>
    obtain ⟨hends, hruns⟩ := List.forall_mem_cons.1 hruns
    rw [haltedWrites, List.map_cons]
    rcases hends with hhalts | hfaults
    · have hhalt : run.1.receipt.isHalt = true := decide_eq_true hhalts.status
      simp only [List.filter_cons, hhalt, if_true]
      rw [List.flatMap_cons, Store.applyAll_append]
      refine (ih hruns _).trans ?_
      show (s.applyAll run.1.changes.toList).applyAll (haltedWrites runs) = _
      rw [hhalts.changes, Store.applyAll_toList_recordAll]
      rfl
    · have hfaulted : ¬run.1.receipt.isHalt = true := by
        rw [Receipt.isHalt, hfaults.status]
        decide
      simp only [List.filter_cons, hfaulted]
      exact ih hruns s

end Ends

namespace Host

variable {host : Host} {fuel : Nat} {block : Block}

/-- The transactions of a block that are run. -/
def invocations (block : Block) : List Transaction := block.transactions.filter (·.type = .invocation)

/-- The run of one transaction of a block alone, against the store of the node. -/
def RunsAlone (host : Host) (fuel : Nat) (block : Block) (tx : Transaction) (e : Execution) : Prop :=
  (execute fuel host (some block) (.ofTransaction tx)).run = some (.ok e)

/-- One transaction of a block is run alone and its machine makes these writes, step by step: it halts with all of them
or faults with none. -/
structure WritesAlone (host : Host) (fuel : Nat) (block : Block) (tx : Transaction) (run : Execution × List Write) :
    Prop where
  alone : host.RunsAlone fuel block tx run.1
  writes : ∃ start, (Invocation.ofTransaction tx).Loads (host.application (some block) (.ofTransaction tx)) start ∧
    run.2 = start.writes (host.application (some block) (.ofTransaction tx)) fuel
  ends : run.1.Halts run.2 ∨ run.1.Faults

/-- What is run alone makes some writes. -/
theorem RunsAlone.writesAlone {tx : Transaction} {e : Execution} (h : host.RunsAlone fuel block tx e) :
    ∃ ws, host.WritesAlone fuel block tx (e, ws) := by
  rcases execute_eq_some h with ⟨fault, -, he⟩ | ⟨start, m, hloads, hends, he⟩
  · cases he
  · cases he
    exact ⟨_, h, ⟨start, hloads, rfl⟩, execute_ends hloads hends (receiptHash (.ofTransaction tx))⟩

private theorem exists_writesAlone {txs : List Transaction} {es : List Execution}
    (h : List.Forall₂ (host.RunsAlone fuel block) txs es) :
    ∃ runs, List.Forall₂ (host.WritesAlone fuel block) txs runs ∧ runs.map Prod.fst = es := by
  induction h with
  | nil => exact ⟨[], .nil, rfl⟩
  | @cons tx e _ _ halone _ ih =>
    obtain ⟨ws, hrun⟩ := halone.writesAlone
    obtain ⟨runs, hruns, hes⟩ := ih
    exact ⟨(e, ws) :: runs, .cons hrun hruns, by rw [List.map_cons, hes]⟩

private theorem ends_of_writesAlone {txs : List Transaction} {runs : List (Execution × List Write)}
    (h : List.Forall₂ (host.WritesAlone fuel block) txs runs) : ∀ run ∈ runs, run.1.Halts run.2 ∨ run.1.Faults := by
  induction h with
  | nil => simp
  | cons hrun _ ih => exact List.forall_mem_cons.2 ⟨hrun.ends, ih⟩

/-- A validated block has one receipt for each of its invocations, that of the invocation run alone against the
store at the start of the block.  The store is the one that the changes of those that halted leave when applied in
order: what the last of their writes to a key asks for is there, and other entries are as they were.  The writes that
are counted are those of the receipts together.  A block that is refused leaves the store alone. -/
theorem validateBlock_is_sequential {answer : Except NodeError (BlockReceipt × Store)}
    (h : (host.validateBlock fuel block).run = some answer) :
    (∃ receipt runs, answer = .ok (receipt, host.storeAfter answer) ∧
      List.Forall₂ (host.WritesAlone fuel block) (invocations block) runs ∧
      receipt.receipts = runs.map (·.1.receipt) ∧
      host.storeAfter answer = host.store.applyRuns ((runs.map Prod.fst).filter (·.receipt.isHalt)) ∧
      host.store.HasWritten (haltedWrites runs) (host.storeAfter answer) ∧
      receipt.committed = receipt.receipts.foldl (fun total receipt => total + receipt.writes) 0) ∨
    ∃ error, answer = .error error ∧ host.storeAfter answer = host.store ∧
      ((∃ tx ∈ invocations block, ∃ fault,
        (Invocation.ofTransaction tx).Fails (host.application (some block) (.ofTransaction tx)) fault ∧
          error = .fault fault) ∨
        host.store.closed ∧ error = .store .closed) := by
  rcases run_bind_eq_some.1 h with ⟨error, hruns, rfl⟩ | ⟨es, hruns, hcommit⟩
  · refine .inr ⟨error, rfl, rfl, .inl ?_⟩
    rcases mapM_run_eq_some hruns with ⟨tx, hmem, e, hexecute, he⟩ | ⟨runs, -, he⟩
    · cases he
      rcases execute_eq_some hexecute with ⟨fault, hfails, he⟩ | ⟨start, m, -, -, he⟩
      · cases he
        exact ⟨tx, hmem, fault, hfails, rfl⟩
      · cases he
    · cases he
  · rcases mapM_run_eq_some hruns with ⟨tx, -, e, -, he⟩ | ⟨es', halone, he⟩
    · cases he
    · cases he
      rcases committed_eq_some hcommit with ⟨hclosed, -, rfl⟩ | ⟨-, rfl⟩
      · exact .inr ⟨_, rfl, rfl, .inr ⟨hclosed, rfl⟩⟩
      · obtain ⟨runs, hwrites, rfl⟩ := exists_writesAlone halone
        have hends := ends_of_writesAlone hwrites
        have hstore : host.store.applyAll
            ((runs.map Prod.fst).foldl (fun changes e => changes.merge e.changes) ChangeSet.empty).toList =
              host.store.applyRuns ((runs.map Prod.fst).filter (·.receipt.isHalt)) := by
          rw [applyRuns_filter (changes_of_ends hends)]
          exact applyAll_foldl_merge host.store .empty _
        refine .inl ⟨_, runs, rfl, hwrites, ?_, hstore, ?_, ?_⟩
        · exact List.map_map
        · rw [storeAfter, hstore, applyRuns_eq_applyAll hends]
          exact host.store.hasWritten_applyAll _
        · exact foldl_size_eq (writes_of_ends hends) 0

/-- A block of transactions that carry scripts and nothing else. -/
def blockOf (scripts : List Bytes) : Block where
  header :=
    { hash := .zero 32, version := 0, prevHash := .zero 32, merkleRoot := .zero 32, timestamp := 0, index := 0,
      consensusData := 0, nextConsensus := .zero 20 }
  transactions := scripts.map fun script =>
    { hash := .zero 32, type := .invocation, version := 0, attributes := [], inputs := [], outputs := [], script,
      gas := 0 }

/-- A block of three: one puts two values into the vault, the next deletes the first and replaces the second, and the
last puts a third and throws. -/
def overlapping : Block :=
  blockOf [vaultPut 1 7 ++ vaultPut 2 8, vaultDelete 1 ++ vaultPut 2 9, vaultPut 3 5 ++ [0xF0]]

/-- What the later of two transactions asks for is in the store, and nothing that the third, which faulted, asked
for. -/
theorem later_writes_prevail : ∃ receipt store runs,
    (keeper.validateBlock 32 overlapping).run = some (.ok (receipt, store)) ∧
      List.Forall₂ (keeper.WritesAlone 32 overlapping) (invocations overlapping) runs ∧
      receipt.receipts = runs.map (·.1.receipt) ∧
      receipt.receipts.map Receipt.status = [.halted, .halted, .faulted] ∧ receipt.committed = 4 ∧
      keeper.store.HasWritten (haltedWrites runs) store ∧
      [1, 2, 3].map (fun key => store.entries[vaultKey key]?) = [none, some [9], some [6]] := by
  have hanswer : ((keeper.validateBlock 32 overlapping).run.bind fun answer =>
      answer.toOption.map fun (receipt, store) => (receipt.receipts.map Receipt.status, receipt.committed,
        [1, 2, 3].map fun key => store.entries[vaultKey key]?)) =
          some ([.halted, .halted, .faulted], 4, [none, some [9], some [6]]) := by
    simp only [validateBlock, execute, run, Machine.execute_eq_runListed]
    decide +kernel
  obtain ⟨answer, h, hshape⟩ := Option.bind_eq_some_iff.1 hanswer
  rcases validateBlock_is_sequential h with
    ⟨receipt, runs, hok, halone, hreceipts, -, hwritten, -⟩ | ⟨error, herror, -⟩
  · rw [hok] at hshape
    obtain ⟨hstatus, hshape⟩ := Prod.mk.inj (Option.some.inj hshape)
    obtain ⟨hcommitted, hentries⟩ := Prod.mk.inj hshape
    exact ⟨receipt, _, runs, h.trans (congrArg some hok), halone, hreceipts, hstatus, hcommitted, hwritten, hentries⟩
  · rw [herror] at hshape
    cases hshape

end Host
end LedgerVM
