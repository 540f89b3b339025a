import LedgerVM.Store.Basic
import Mathlib.Data.List.Dedup

/-!
# Writes to the store

A write puts a value under a key or deletes the entry there.  A list of writes can be applied to a store one
after the other, or recorded in a change set that is committed as a whole; both leave the same store
(`applyAll_toList_recordAll`), in which every entry is as the last write to it asks (`getElem?_applyAll`).
Committing two merged change sets is committing one after the other (`applyAll_toList_merge`).
-/

namespace LedgerVM

/-- A change of one entry: the value that is put under the key, or `none` if the entry is deleted. -/
abbrev Write := StoreKey × Option Bytes

namespace Write

/-- What the last of the writes to a key asks for, if there is one. -/
def last? : List Write → StoreKey → Option (Option Bytes)
  | [], _ => none
  | w :: ws, key => (last? ws key).or (if w.1 = key then some w.2 else none)

/-- The keys that are written or deleted, each once. -/
def keys (ws : List Write) : List StoreKey := (ws.map Prod.fst).dedup

theorem last?_append (ws vs : List Write) (key : StoreKey) :
    last? (ws ++ vs) key = (last? vs key).or (last? ws key) := by
  induction ws with
  | nil => simp [last?]
  | cons w ws ih => rw [List.cons_append, last?, last?, ih, Option.or_assoc]

theorem last?_isSome {ws : List Write} {key : StoreKey} : (last? ws key).isSome ↔ key ∈ ws.map Prod.fst := by
  induction ws with
  | nil => simp [last?]
  | cons w ws ih =>
    rw [last?, Option.isSome_or, Bool.or_eq_true, ih, List.map_cons, List.mem_cons, or_comm, eq_comm (a := key)]
    by_cases hw : w.1 = key <;> simp [hw]

/-- Where no key is written twice, the last write to a key is the only one. -/
theorem last?_of_nodup {ws : List Write} (hws : (ws.map Prod.fst).Nodup) {w : Write} (hw : w ∈ ws) :
    last? ws w.1 = some w.2 := by
  induction ws with
  | nil => cases hw
  | cons v ws ih =>
    rw [List.map_cons, List.nodup_cons] at hws
    rcases List.mem_cons.1 hw with rfl | hw
    · have hnone : last? ws w.1 = none := by
        rw [← Option.not_isSome_iff_eq_none, last?_isSome]
        exact hws.1
      simp [last?, hnone]
    · simp [last?, ih hws.2 hw]

/-- Writes to keys of another contract do not count for a key. -/
theorem last?_filter (ws : List Write) (key : StoreKey) :
    last? (ws.filter (·.1.contract = key.contract)) key = last? ws key := by
  induction ws with
  | nil => rfl
  | cons w ws ih =>
    by_cases hw : w.1.contract = key.contract
    · rw [List.filter_cons_of_pos (by simpa using hw), last?, last?, ih]
    · have hne : w.1 ≠ key := fun h => hw (congrArg StoreKey.contract h)
      rw [List.filter_cons_of_neg (by simpa using hw), ih, last?, if_neg hne, Option.or_none]

theorem length_keys_eq_zero {ws : List Write} : (keys ws).length = 0 ↔ ws = [] := by
  rw [List.length_eq_zero_iff]
  constructor
  · intro hkeys
    cases ws with
    | nil => rfl
    | cons w ws =>
      have hmem : w.1 ∈ keys (w :: ws) := by simp [keys]
      rw [hkeys] at hmem
      cases hmem
  · rintro rfl
    rfl

end Write

/-! ### Writes in a change set -/

namespace ChangeSet

/-- Records a write. -/
def record (c : ChangeSet) (w : Write) : ChangeSet :=
  match w.2 with
  | some value => c.put w.1 value
  | none => c.delete w.1

/-- Records writes, one after the other. -/
def recordAll (c : ChangeSet) (ws : List Write) : ChangeSet := ws.foldl record c

private theorem record_eq_insert (c : ChangeSet) (w : Write) : c.record w = ⟨c.entries.insert w.1 w.2⟩ := by
  unfold record
  split <;> simp_all [put, delete]

theorem get?_record (c : ChangeSet) (w : Write) (key : StoreKey) :
    (c.record w).get? key = if w.1 = key then some w.2 else c.get? key := by
  rw [record_eq_insert]
  simp [get?, Std.ExtTreeMap.getElem?_insert]

/-- A change set holds for each key what the last write to it asks for. -/
theorem get?_recordAll (c : ChangeSet) (ws : List Write) (key : StoreKey) :
    (c.recordAll ws).get? key = (Write.last? ws key).or (c.get? key) := by
  induction ws generalizing c with
  | nil => simp [recordAll, Write.last?]
  | cons w ws ih =>
    have hstep : c.recordAll (w :: ws) = (c.record w).recordAll ws := rfl
    rw [hstep, ih, get?_record, Write.last?, Option.or_assoc]
    by_cases hw : w.1 = key <;> simp [hw]

theorem recordAll_append (c : ChangeSet) (ws vs : List Write) :
    c.recordAll (ws ++ vs) = (c.recordAll ws).recordAll vs := List.foldl_append

private theorem nodup_fst_toList (c : ChangeSet) : (c.toList.map Prod.fst).Nodup := by
  rw [toList, Std.ExtTreeMap.map_fst_toList_eq_keys]
  exact c.entries.nodup_keys

theorem last?_toList (c : ChangeSet) (key : StoreKey) : Write.last? c.toList key = c.get? key := by
  cases h : c.get? key with
  | none =>
    rw [← Option.not_isSome_iff_eq_none, Write.last?_isSome, toList, Std.ExtTreeMap.map_fst_toList_eq_keys,
      Std.ExtTreeMap.mem_keys, Std.ExtTreeMap.mem_iff_isSome_getElem?]
    simp only [get?] at h
    simp [h]
  | some wish =>
    have hmem : (key, wish) ∈ c.toList := Std.ExtTreeMap.mem_toList_iff_getElem?_eq_some.2 h
    exact Write.last?_of_nodup (nodup_fst_toList c) hmem

/-- The later of two merged sets decides wherever it has a wish. -/
theorem get?_merge (a b : ChangeSet) (key : StoreKey) : (a.merge b).get? key = (b.get? key).or (a.get? key) := by
  have hinsert : ∀ (ws : List Write) (c : ChangeSet), ⟨c.entries.insertMany ws⟩ = c.recordAll ws := by
    intro ws
    induction ws with
    | nil => intro c; simp [recordAll]
    | cons w ws ih =>
      intro c
      have hstep : c.recordAll (w :: ws) = (c.record w).recordAll ws := rfl
      rw [hstep, ← ih, record_eq_insert, Std.ExtTreeMap.insertMany_cons]
  rw [merge, hinsert, get?_recordAll, last?_toList]

/-- A change set that records writes has one entry for each key written or deleted. -/
theorem size_recordAll (ws : List Write) : (empty.recordAll ws).size = (Write.keys ws).length := by
  have hmem : ∀ key, key ∈ (empty.recordAll ws).entries.keys ↔ key ∈ Write.keys ws := by
    intro key
    have hget := get?_recordAll empty ws key
    rw [get?_empty, Option.or_none, get?] at hget
    rw [Std.ExtTreeMap.mem_keys, Std.ExtTreeMap.mem_iff_isSome_getElem?, hget, Write.last?_isSome, Write.keys,
      List.mem_dedup]
  have hperm : (empty.recordAll ws).entries.keys.Perm (Write.keys ws) :=
    (List.perm_ext_iff_of_nodup Std.ExtTreeMap.nodup_keys (List.nodup_dedup _)).2 hmem
  rw [size, ← Std.ExtTreeMap.length_keys, hperm.length_eq]

theorem isEmpty_recordAll (ws : List Write) : (empty.recordAll ws).isEmpty = ws.isEmpty := by
  have hsize := size_recordAll ws
  rw [size] at hsize
  rw [isEmpty, Std.ExtTreeMap.isEmpty_eq_size_beq_zero, hsize, Bool.eq_iff_iff, beq_iff_eq, List.isEmpty_iff,
    Write.length_keys_eq_zero]

end ChangeSet

/-! ### Writes to a store -/

namespace Store

/-- Applies writes to the store, one after the other. -/
def applyAll (s : Store) (ws : List Write) : Store := { s with entries := ws.foldl applyChange s.entries }

theorem getElem?_applyChange (entries : Std.ExtTreeMap StoreKey Bytes) (w : Write) (key : StoreKey) :
    (applyChange entries w)[key]? = if w.1 = key then w.2 else entries[key]? := by
  unfold applyChange
  split
  · rename_i value hw
    simp [Std.ExtTreeMap.getElem?_insert, hw]
  · rename_i hw
    simp [Std.ExtTreeMap.getElem?_erase, hw]

/-- After writes, an entry is as the last write to it asks, or as it was. -/
theorem getElem?_applyAll (s : Store) (ws : List Write) (key : StoreKey) :
    (s.applyAll ws).entries[key]? = (Write.last? ws key).getD s.entries[key]? := by
  have hfold : ∀ entries : Std.ExtTreeMap StoreKey Bytes,
      (ws.foldl applyChange entries)[key]? = (Write.last? ws key).getD entries[key]? := by
    induction ws with
    | nil => intro entries; rfl
    | cons w ws ih =>
      intro entries
      rw [List.foldl_cons, ih, getElem?_applyChange, Write.last?]
      by_cases hw : w.1 = key <;> cases Write.last? ws key <;> simp [hw]
  exact hfold s.entries

/-- One store is another after writes: the last write to a key decides what is there, and entries that are not
written stay. -/
structure HasWritten (before : Store) (ws : List Write) (after : Store) : Prop where
  put : ∀ key value, Write.last? ws key = some (some value) → after.entries[key]? = some value
  deleted : ∀ key, Write.last? ws key = some none → after.entries[key]? = none
  untouched : ∀ key, Write.last? ws key = none → after.entries[key]? = before.entries[key]?
  closed : after.closed = before.closed

theorem hasWritten_applyAll (s : Store) (ws : List Write) : s.HasWritten ws (s.applyAll ws) where
  put key value h := by rw [getElem?_applyAll, h, Option.getD_some]
  deleted key h := by rw [getElem?_applyAll, h, Option.getD_some]
  untouched key h := by rw [getElem?_applyAll, h, Option.getD_none]
  closed := rfl

theorem applyAll_append (s : Store) (ws vs : List Write) :
    s.applyAll (ws ++ vs) = (s.applyAll ws).applyAll vs := by
  simp [applyAll, List.foldl_append]

/-- Two lists of writes with the same last write to every key leave the same store. -/
theorem applyAll_congr (s : Store) {ws vs : List Write} (h : ∀ key, Write.last? ws key = Write.last? vs key) :
    s.applyAll ws = s.applyAll vs := by
  have hentries : (s.applyAll ws).entries = (s.applyAll vs).entries := by
    apply Std.ExtTreeMap.ext_getElem?
    intro key
    rw [getElem?_applyAll, getElem?_applyAll, h]
  exact congrArg (Store.mk · s.closed) hentries

theorem commit_eq (s : Store) (c : ChangeSet) :
    s.commit c = if s.closed then .error .closed else .ok (s.applyAll c.toList) := rfl

theorem commit_of_open {s : Store} (hs : s.closed = false) (c : ChangeSet) :
    s.commit c = .ok (s.applyAll c.toList) := by
  simp [commit_eq, hs]

theorem applyAll_toList_recordAll (s : Store) (ws : List Write) :
    s.applyAll (ChangeSet.empty.recordAll ws).toList = s.applyAll ws := by
  apply applyAll_congr
  intro key
  rw [ChangeSet.last?_toList, ChangeSet.get?_recordAll, ChangeSet.get?_empty, Option.or_none]

theorem applyAll_toList_merge (s : Store) (a b : ChangeSet) :
    s.applyAll (a.merge b).toList = (s.applyAll a.toList).applyAll b.toList := by
  rw [← applyAll_append]
  apply applyAll_congr
  intro key
  rw [ChangeSet.last?_toList, ChangeSet.get?_merge, Write.last?_append, ChangeSet.last?_toList,
    ChangeSet.last?_toList]

end Store
end LedgerVM
