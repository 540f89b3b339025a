import LedgerVM.Item.Dictionary
import Mathlib.Data.List.Induction
import Mathlib.Data.List.Nodup

/-!
# The history of a map

What a map holds is told by the edits it went through since it was made.  A key is live if the last edit under its
encoding set a value (`MapHistory.last?`).  Live keys stand in the order in which they were inserted: a key is inserted
where it is set without being live, and counts unless it is removed later (`MapHistory.keys`).  The dictionary that the
edits make of an empty one has just these keys and values (`MapHistory.keys_replay`, `MapHistory.values_replay`,
`MapHistory.find?_replay`).
-/

namespace LedgerVM

namespace Dictionary

variable {d : Dictionary} {key other : MapKey} {value : Item}

/-- No two entries have keys of one encoding. -/
def Distinct (d : Dictionary) : Prop := (d.map fun entry => entry.1.encoding).Nodup

theorem distinct_cons {entry : MapKey × Item} :
    Distinct (entry :: d) ↔ (∀ other ∈ d, other.1.encoding ≠ entry.1.encoding) ∧ d.Distinct := by
  rw [Distinct, List.map_cons, List.nodup_cons, List.mem_map]
  simp only [not_exists, not_and]
  rfl

theorem find?_eq_none (hd : ∀ entry ∈ d, entry.1.encoding ≠ key.encoding) : d.find? key = none := by
  induction d with
  | nil => rfl
  | cons entry d ih =>
    obtain ⟨hentry, hrest⟩ := List.forall_mem_cons.1 hd
    rw [find?_cons, if_neg hentry, ih hrest]

theorem Distinct.find?_of_mem (hd : d.Distinct) {entry : MapKey × Item} (hentry : entry ∈ d) :
    d.find? entry.1 = some entry.2 := by
  induction d with
  | nil => cases hentry
  | cons first d ih =>
    obtain ⟨hfirst, hrest⟩ := distinct_cons.1 hd
    rw [find?_cons]
    rcases List.mem_cons.1 hentry with rfl | hentry
    · rw [if_pos rfl]
    · rw [if_neg fun hsame => hfirst entry hentry hsame.symm, ih hrest hentry]

/-! ### Insertion and removal -/

theorem map_fst_insert (d : Dictionary) (key : MapKey) (value : Item) :
    (d.insert key value).map Prod.fst = d.map Prod.fst ++ if d.contains key then [] else [key] := by
  induction d with
  | nil => rfl
  | cons entry d ih =>
    by_cases h : entry.1.encoding = key.encoding
    · simp [insert, contains, h]
    · have hrest : contains (entry :: d) key = contains d key := by simp [contains, h]
      rw [hrest]
      simp only [insert, beq_iff_eq, h, if_false, List.map_cons, ih, List.cons_append]

theorem erase_eq_filter (hd : d.Distinct) : d.erase key = d.filter fun entry => entry.1.encoding ≠ key.encoding := by
  induction d with
  | nil => rfl
  | cons entry d ih =>
    obtain ⟨hentry, hrest⟩ := distinct_cons.1 hd
    by_cases h : entry.1.encoding = key.encoding
    · -- the entry was the only one under that encoding
      have hothers : d.filter (fun entry => entry.1.encoding ≠ key.encoding) = d :=
        List.filter_eq_self.2 fun other hother => decide_eq_true (h ▸ hentry other hother)
      rw [erase, List.eraseP_cons_of_pos (by simpa using h), List.filter_cons_of_neg (by simpa using h), hothers]
    · rw [erase, List.eraseP_cons_of_neg (by simpa using h), List.filter_cons_of_pos (by simpa using h), ← ih hrest]
      rfl

theorem Distinct.insert (hd : d.Distinct) (key : MapKey) (value : Item) : (d.insert key value).Distinct := by
  have hkeys : (d.insert key value).map (fun entry => entry.1.encoding) =
      ((d.insert key value).map Prod.fst).map MapKey.encoding := by
    rw [List.map_map]
    rfl
  rw [Distinct, hkeys, map_fst_insert, List.map_append, List.map_map]
  by_cases hlive : d.contains key = true
  · rw [if_pos hlive, List.map_nil, List.append_nil]
    exact hd
  · rw [if_neg hlive]
    refine List.Nodup.append hd (List.nodup_singleton _) fun encoding hold hnew => hlive ?_
    obtain ⟨entry, hentry, rfl⟩ := List.mem_map.1 hold
    exact List.any_eq_true.2 ⟨entry, hentry, by simpa using hnew⟩

theorem Distinct.erase (hd : d.Distinct) (key : MapKey) : (d.erase key).Distinct :=
  List.Nodup.sublist ((List.eraseP_sublist).map _) hd

theorem find?_erase (hd : d.Distinct) :
    (d.erase key).find? other = if key.encoding = other.encoding then none else d.find? other := by
  rw [erase_eq_filter hd]
  by_cases hkey : key.encoding = other.encoding
  · rw [if_pos hkey]
    refine find?_eq_none fun entry hentry => ?_
    have hne := of_decide_eq_true (List.mem_filter.1 hentry).2
    rwa [← hkey]
  · rw [if_neg hkey]
    clear hd
    induction d with
    | nil => rfl
    | cons entry d ih =>
      by_cases h : entry.1.encoding = key.encoding
      · have hother : ¬entry.1.encoding = other.encoding := fun ho => hkey (h.symm.trans ho)
        rw [List.filter_cons_of_neg (by simpa using h), ih, find?_cons, if_neg hother]
      · rw [List.filter_cons_of_pos (by simpa using h), find?_cons, find?_cons, ih]

end Dictionary

/-! ### Edits -/

/-- A change of a map. -/
inductive MapEdit where
  | set (key : MapKey) (value : Item)
  | remove (key : MapKey)

namespace MapEdit

def key : MapEdit → MapKey
  | set key _ | remove key => key

/-- The value that is there after the edit. -/
def value? : MapEdit → Option Item
  | set _ value => some value
  | remove _ => none

def removes (encoding : Bytes) : MapEdit → Bool
  | set _ _ => false
  | remove key => key.encoding == encoding

def apply (d : Dictionary) : MapEdit → Dictionary
  | set key value => d.insert key value
  | remove key => d.erase key

end MapEdit

/-- The edits of a map since it was made, first one first. -/
abbrev MapHistory := List MapEdit

namespace MapHistory

/-- The value last set under an encoding, if there is one that was not removed since. -/
def last? (edits : MapHistory) (encoding : Bytes) : Option Item :=
  (edits.reverse.find? fun edit => edit.key.encoding == encoding).bind MapEdit.value?

/-- The key that the edit at a position inserts, if it does and no later edit removes it. -/
def inserted? (edits : MapHistory) (i : Nat) : Option MapKey :=
  match edits[i]? with
  | some (.set key _) =>
    if (last? (edits.take i) key.encoding).isNone && !(edits.drop (i + 1)).any (MapEdit.removes key.encoding) then
      some key
    else none
  | _ => none

/-- The live keys in the order of their insertion. -/
def keys (edits : MapHistory) : List MapKey := (List.range edits.length).filterMap edits.inserted?

/-- What the edits make of an empty dictionary. -/
def replay (edits : MapHistory) : Dictionary := edits.foldl MapEdit.apply []

variable {edits : MapHistory}

/-! ### One more edit -/

theorem replay_snoc (edits : MapHistory) (edit : MapEdit) : replay (edits ++ [edit]) = edit.apply edits.replay := by
  rw [replay, List.foldl_append]
  rfl

theorem last?_snoc (edits : MapHistory) (edit : MapEdit) (encoding : Bytes) :
    last? (edits ++ [edit]) encoding =
      if edit.key.encoding = encoding then edit.value? else edits.last? encoding := by
  rw [last?, List.reverse_append, List.reverse_singleton, List.singleton_append, List.find?_cons]
  by_cases h : edit.key.encoding = encoding
  · rw [if_pos h, beq_iff_eq.2 h]
    rfl
  · rw [if_neg h, beq_eq_false_iff_ne.2 h]
    rfl

theorem inserted?_snoc_of_lt (edit : MapEdit) {i : Nat} (hi : i < edits.length) :
    inserted? (edits ++ [edit]) i = (edits.inserted? i).filter fun key => !edit.removes key.encoding := by
  rw [inserted?, inserted?, List.getElem?_append_left hi, List.take_append_of_le_length (Nat.le_of_lt hi),
    List.drop_append_of_le_length hi]
  rcases edits[i]? with _ | ⟨key, value⟩ | key
  · rfl
  · dsimp only
    rw [List.any_append, List.any_cons, List.any_nil, Bool.or_false, Bool.not_or, ← Bool.and_assoc]
    cases (last? (edits.take i) key.encoding).isNone && !(edits.drop (i + 1)).any (MapEdit.removes key.encoding) with
    | true =>
      rw [if_pos rfl, Option.filter_some]
      cases edit.removes key.encoding <;> rfl
    | false => rfl
  · rfl

theorem inserted?_snoc_self (edits : MapHistory) (edit : MapEdit) :
    inserted? (edits ++ [edit]) edits.length =
      match edit with
      | .set key _ => if (edits.last? key.encoding).isNone then some key else none
      | .remove _ => none := by
  have hdrop : (edits ++ [edit]).drop (edits.length + 1) = [] := List.drop_eq_nil_of_le (by simp)
  rw [inserted?, List.getElem?_concat_length, List.take_left, hdrop]
  cases edit <;> simp

theorem keys_snoc (edits : MapHistory) (edit : MapEdit) :
    keys (edits ++ [edit]) =
      edits.keys.filter (fun key => !edit.removes key.encoding) ++
        match edit with
        | .set key _ => if (edits.last? key.encoding).isNone then [key] else []
        | .remove _ => [] := by
  rw [keys, List.length_append, List.length_singleton, List.range_succ, List.filterMap_append, keys,
    List.filter_filterMap]
  congr 1
  · exact List.filterMap_congr fun i hi => inserted?_snoc_of_lt edit (List.mem_range.1 hi)
  · rw [List.filterMap_cons, inserted?_snoc_self, List.filterMap_nil]
    cases edit with
    | set key value =>
      dsimp only
      cases (edits.last? key.encoding).isNone <;> rfl
    | remove key => rfl

/-! ### What is left of a history -/

theorem distinct_replay (edits : MapHistory) : edits.replay.Distinct := by
  induction edits using List.reverseRecOn with
  | nil => exact List.nodup_nil
  | append_singleton edits edit ih =>
    rw [replay_snoc]
    cases edit with
    | set key value => exact ih.insert key value
    | remove key => exact ih.erase key

/-- Under a key there is the value last set under its encoding since the last removal. -/
theorem find?_replay (edits : MapHistory) (key : MapKey) : edits.replay.find? key = edits.last? key.encoding := by
  induction edits using List.reverseRecOn with
  | nil => rfl
  | append_singleton edits edit ih =>
    rw [replay_snoc, last?_snoc, ← ih]
    cases edit with
    | set other value => exact Dictionary.find?_insert _ other key value
    | remove other => exact Dictionary.find?_erase (distinct_replay edits)

/-- The keys are the live ones, each as it was inserted, in the order of insertion. -/
theorem keys_replay (edits : MapHistory) : edits.replay.map Prod.fst = edits.keys := by
  induction edits using List.reverseRecOn with
  | nil => rfl
  | append_singleton edits edit ih =>
    rw [replay_snoc, keys_snoc, ← ih]
    cases edit with
    | set key value =>
      have hall : ((replay edits).map Prod.fst).filter (fun other => !(MapEdit.set key value).removes other.encoding) =
          (replay edits).map Prod.fst := List.filter_eq_self.2 fun _ _ => rfl
      rw [hall]
      show ((replay edits).insert key value).map Prod.fst = _
      rw [Dictionary.map_fst_insert, Dictionary.contains_eq_isSome_find?, find?_replay]
      dsimp only
      cases last? edits key.encoding <;> rfl
    | remove key =>
      show ((replay edits).erase key).map Prod.fst = _
      rw [Dictionary.erase_eq_filter (distinct_replay edits), List.append_nil, List.filter_map]
      congr 1
      refine List.filter_congr fun entry _ => ?_
      have hsame : (key.encoding == entry.1.encoding) = decide (entry.1.encoding = key.encoding) := by
        rw [beq_eq_decide]
        exact decide_eq_decide.2 eq_comm
      simp [MapEdit.removes, hsame]

/-- The values are those last set under the live keys, in the same order. -/
theorem values_replay (edits : MapHistory) :
    edits.replay.values.map some = edits.keys.map fun key => edits.last? key.encoding := by
  rw [← keys_replay, Dictionary.values, List.map_map, List.map_map]
  refine List.map_congr_left fun entry hentry => ?_
  show some entry.2 = edits.last? entry.1.encoding
  rw [← find?_replay, edits.distinct_replay.find?_of_mem hentry]

theorem length_replay (edits : MapHistory) : edits.replay.length = edits.keys.length := by
  rw [← keys_replay, List.length_map]

end MapHistory
end LedgerVM
