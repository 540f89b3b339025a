import LedgerVM.Proofs.Store.Writes

/-!
# The write buffer of an invocation

An invocation reads and writes contract storage through a buffer: a change set laid over a store.  On an open
store nobody can tell the buffer from the store itself: reads answer alike, a commit leaves the store that the
writes would have left, and what was discarded was never there (`buffer_refines_store`).  The invariant is that
the store written to directly is the store under the buffer with all pending changes applied.
-/

namespace LedgerVM

/-- What can be asked of contract storage. -/
inductive Access where
  | put (key : StoreKey) (value : Bytes)
  | delete (key : StoreKey)
  | get (key : StoreKey)

/-- What a read answers. -/
abbrev Reading := Except StoreError (Option Bytes)

namespace Access

/-- The key that is asked for. -/
def key : Access → StoreKey
  | put key _ | delete key | get key => key

/-- The write that is made, if it is no read. -/
def write? : Access → Option Write
  | put key value => some (key, some value)
  | delete key => some (key, none)
  | get _ => none

/-- The writes among accesses, in order. -/
def writes (accesses : List Access) : List Write := accesses.filterMap write?

end Access

namespace Store

/-- Serves accesses one after the other straight from the store: the answers to the reads, and the store that
is left. -/
def serve (s : Store) : List Access → List Reading × Store
  | [] => ([], s)
  | .put key value :: rest => (s.insert key value).serve rest
  | .delete key :: rest => serve { s with entries := s.entries.erase key } rest
  | .get key :: rest => (s.get key :: (s.serve rest).1, (s.serve rest).2)

theorem serve_writes (s : Store) (accesses : List Access) :
    (s.serve accesses).2 = s.applyAll (Access.writes accesses) := by
  induction accesses generalizing s with
  | nil => rfl
  | cons access rest ih =>
    cases access with
    | put key value => exact ih (s.insert key value)
    | delete key => exact ih { s with entries := s.entries.erase key }
    | get key => exact ih s

end Store

/-- A store and the changes laid over it. -/
structure Buffer where
  store : Store
  pending : ChangeSet := {}

namespace Buffer

/-- Reads through the pending changes. -/
def get (b : Buffer) (key : StoreKey) : Reading := b.pending.getOver b.store key

/-- Commits the pending changes and says how many entries were written or deleted. -/
def commit (b : Buffer) : Except StoreError (Nat × Store) := b.pending.commitTo b.store

/-- Drops the pending changes. -/
def discard (b : Buffer) : Buffer := { b with pending := b.pending.discard }

/-- Serves accesses one after the other from the buffer: the answers to the reads, and the buffer that is
left. -/
def serve (b : Buffer) : List Access → List Reading × Buffer
  | [] => ([], b)
  | .put key value :: rest => serve { b with pending := b.pending.put key value } rest
  | .delete key :: rest => serve { b with pending := b.pending.delete key } rest
  | .get key :: rest => (b.get key :: (b.serve rest).1, (b.serve rest).2)

/-- The store with all pending changes applied. -/
def flushed (b : Buffer) : Store := b.store.applyAll b.pending.toList

/-- A read through the buffer of an open store reads the store with all changes applied. -/
theorem get_eq_flushed {b : Buffer} (hb : b.store.closed = false) (key : StoreKey) :
    b.get key = b.flushed.get key := by
  have hentry : b.flushed.entries[key]? = (b.pending.get? key).getD b.store.entries[key]? := by
    rw [flushed, Store.getElem?_applyAll, ChangeSet.last?_toList]
  have hclosed : b.flushed.closed = false := hb
  simp only [get, ChangeSet.getOver, Store.get, hclosed, hb, hentry]
  cases b.pending.get? key <;> rfl

/-- A recorded write reaches the store with all changes applied at once. -/
theorem flushed_record (b : Buffer) (w : Write) :
    flushed { b with pending := b.pending.record w } = b.flushed.applyAll [w] := by
  rw [flushed, flushed, ← Store.applyAll_append]
  apply Store.applyAll_congr
  intro key
  rw [ChangeSet.last?_toList, ChangeSet.get?_record, Write.last?_append, ChangeSet.last?_toList]
  by_cases hw : w.1 = key <;> simp [Write.last?, hw]

theorem serve_pending (b : Buffer) (accesses : List Access) :
    (b.serve accesses).2 = { b with pending := b.pending.recordAll (Access.writes accesses) } := by
  induction accesses generalizing b with
  | nil => rfl
  | cons access rest ih =>
    cases access with
    | put key value => exact ih { b with pending := b.pending.put key value }
    | delete key => exact ih { b with pending := b.pending.delete key }
    | get key => exact ih b

/-- The buffer of an open store answers every read as the store with all changes applied does. -/
theorem serve_readings {b : Buffer} (hb : b.store.closed = false) (accesses : List Access) :
    (b.serve accesses).1 = (b.flushed.serve accesses).1 := by
  induction accesses generalizing b with
  | nil => rfl
  | cons access rest ih =>
    cases access with
    | put key value =>
      have hrest := ih (b := { b with pending := b.pending.put key value }) hb
      exact hrest.trans (congrArg (fun s => (s.serve rest).1) (flushed_record b (key, some value)))
    | delete key =>
      have hrest := ih (b := { b with pending := b.pending.delete key }) hb
      exact hrest.trans (congrArg (fun s => (s.serve rest).1) (flushed_record b (key, none)))
    | get key => exact congrArg₂ List.cons (get_eq_flushed hb key) (ih hb)

theorem flushed_fresh (s : Store) : flushed { store := s } = s := by
  have hnil : ChangeSet.toList {} = [] := Std.ExtTreeMap.toList_eq_nil_iff.2 rfl
  simp [flushed, hnil, Store.applyAll]

theorem commit_fresh_serve {s : Store} (hs : s.closed = false) (accesses : List Access) :
    (serve { store := s } accesses).2.commit =
      .ok ((Write.keys (Access.writes accesses)).length, (s.serve accesses).2) := by
  rw [serve_pending, commit, ChangeSet.commitTo, Store.commit_of_open hs, Store.serve_writes]
  have hstore := Store.applyAll_toList_recordAll s (Access.writes accesses)
  have hsize := ChangeSet.size_recordAll (Access.writes accesses)
  exact congrArg₂ (fun n s => Except.ok (n, s)) hsize hstore

end Buffer

/-- Accesses to the storage of other contracts make no difference to a contract's entries. -/
private theorem last?_writes_filter (accesses : List Access) (key : StoreKey) :
    Write.last? (Access.writes (accesses.filter (·.key.contract = key.contract))) key =
      Write.last? (Access.writes accesses) key := by
  have hfilter : Access.writes (accesses.filter (·.key.contract = key.contract)) =
      (Access.writes accesses).filter (·.1.contract = key.contract) := by
    rw [Access.writes, Access.writes, List.filterMap_filter, List.filter_filterMap]
    congr 1
    funext access
    by_cases hkey : access.key.contract = key.contract <;> cases access <;>
      simp_all [Access.write?, Access.key, Option.filter]
  rw [hfilter, Write.last?_filter]

/-- A store cannot be told from a buffer laid over it: the buffer answers reads as if every access had been
served by the store, which stays as it is until a commit; the commit leaves the store that the accesses would
have left and counts the keys written or deleted; discarding leaves the buffer as it began.  Committing merged
change sets is committing them in order, and only accesses to a key's own contract bear on the key. -/
theorem buffer_refines_store {s : Store} (hs : s.closed = false) (accesses : List Access) :
    (Buffer.serve { store := s } accesses).1 = (s.serve accesses).1 ∧
    (Buffer.serve { store := s } accesses).2.store = s ∧
    (Buffer.serve { store := s } accesses).2.commit =
      .ok ((Write.keys (Access.writes accesses)).length, (s.serve accesses).2) ∧
    (Buffer.serve { store := s } accesses).2.discard = { store := s } ∧
    (∀ (m : Store) (a b : ChangeSet), m.commit (a.merge b) = (m.commit a).bind (·.commit b)) ∧
    ∀ key : StoreKey,
      let own := accesses.filter (·.key.contract = key.contract)
      (s.serve accesses).2.entries[key]? = (s.serve own).2.entries[key]? ∧
      (Buffer.serve { store := s } accesses).2.get key = (Buffer.serve { store := s } own).2.get key := by
  refine ⟨?_, ?_, Buffer.commit_fresh_serve hs accesses, ?_, ?_, ?_⟩
  · have hserve := Buffer.serve_readings (b := { store := s }) hs accesses
    rwa [Buffer.flushed_fresh] at hserve
  · rw [Buffer.serve_pending]
  · rw [Buffer.serve_pending]
    rfl
  · intro m a b
    cases hm : m.closed with
    | true => simp [Store.commit_eq, hm, Except.bind]
    | false =>
      rw [Store.commit_of_open hm, Store.commit_of_open hm, Store.applyAll_toList_merge]
      exact (Store.commit_of_open (s := m.applyAll a.toList) hm b).symm
  · intro key own
    have hlast := last?_writes_filter accesses key
    constructor
    · rw [Store.serve_writes, Store.serve_writes, Store.getElem?_applyAll, Store.getElem?_applyAll, hlast]
    · rw [Buffer.serve_pending, Buffer.serve_pending]
      simp only [Buffer.get, ChangeSet.getOver, ChangeSet.get?_recordAll, hlast, own]

/-- A pending deletion hides the entry below it, which is there until the commit and gone after it. -/
theorem deletion_hides_entry :
    let key : StoreKey := { contract := .zero 20, key := [7] }
    let s := Store.empty.insert key [9]
    let served := Buffer.serve { store := s } [.get key, .delete key, .get key]
    s.closed = false ∧ served.1 = [.ok (some [9]), .ok none] ∧ served.2.store.get key = .ok (some [9]) ∧
    served.2.commit.map (·.2.get key) = .ok (.ok none) := by
  intro key s served
  obtain ⟨hread, hstore, hcommit, -⟩ := buffer_refines_store (s := s) rfl [.get key, .delete key, .get key]
  refine ⟨rfl, hread.trans ?_, ?_, ?_⟩
  · simp [Store.serve, Store.get, s, Store.insert, Store.empty]
  · rw [hstore]
    simp [Store.get, s, Store.insert, Store.empty]
  · rw [hcommit]
    simp [Except.map, Store.serve, Store.get, s, Store.insert, Store.empty]

end LedgerVM
