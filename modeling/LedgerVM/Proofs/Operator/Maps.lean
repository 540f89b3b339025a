import LedgerVM.Proofs.Item.History
import LedgerVM.Proofs.Operator.Heap

/-!
# Operators on maps

Two operators change a map, each under one key (`CollectionOperator.edit?`), and no other operator does
(`CollectionOperator.map_of_run`).  Five operators read a map.  What they find of a map with a history is what the
history says (`Heap.Records`), for they all read the one dictionary that the edits made (`Heap.records_of_map`).
-/

namespace LedgerVM

namespace Operation

variable {w v : Workbench} {found : Collection}

theorem popCollection_eq_ok (h : popCollection w = .ok found v) :
    ∃ item rest, w.stack = item :: rest ∧ v = ⟨rest, w.heap⟩ ∧
      (((∀ target, item ≠ .map target) ∧ ∃ ref, found = .list ref (w.heap.list ref)) ∨
        ∃ ref, item = .map ref ∧ found = .map ref (w.heap.map ref)) := by
  obtain ⟨item, p, hpop, h⟩ := Action.bind_eq_ok.1 h
  obtain ⟨rest, hstack, rfl⟩ := pop_eq_ok.1 hpop
  refine ⟨item, rest, hstack, ?_⟩
  cases item with
  | array ref | struct ref =>
    cases h
    exact ⟨rfl, .inl ⟨nofun, ref, rfl⟩⟩
  | map ref =>
    cases h
    exact ⟨rfl, .inr ⟨ref, rfl, rfl⟩⟩
  | _ => cases h

/-- Duplicating several items copies them one after the other. -/
theorem mapM_duplicate_copies (h : Heap) (items : List Item) : ∀ w copies v, h.Spreads w.heap →
    items.mapM duplicate w = .ok copies v →
    h.Spreads v.heap ∧ w.heap.KeptIn v.heap ∧ v.stack = w.stack ∧ List.Forall₂ (h.CopyOf v.heap) items copies := by
  induction items with
  | nil =>
    intro w copies v hw hrun
    cases hrun
    exact ⟨hw, .refl w.heap, rfl, .nil⟩
  | cons item items ih =>
    intro w copies v hw hrun
    rw [List.mapM_cons] at hrun
    obtain ⟨copy, p, hfirst, hrun⟩ := Action.bind_eq_ok.1 hrun
    obtain ⟨others, q, hrest, hrun⟩ := Action.bind_eq_ok.1 hrun
    cases hrun
    obtain ⟨k, hk, rfl⟩ := duplicate_eq_ok hfirst
    obtain ⟨hspreads, hkept, hcopy⟩ := (Heap.copyLaw_copyOf h).of_duplicate hw trivial hk
    obtain ⟨hlast, hlater, hstack, hcopies⟩ := ih _ others v hspreads hrest
    exact ⟨hlast, hkept.trans hlater, hstack, .cons (hcopy.mono hspreads hlater) hcopies⟩

/-- Duplicating several items ends where structs do not contain themselves. -/
theorem mapM_duplicate_ends {b : Bounds} (hb : b.acyclic) (items : List Item) : ∀ w : Workbench, b.HoldsHeap w.heap →
    (∀ item ∈ items, b.Holds w.heap item) → ∃ copies v, items.mapM duplicate w = .ok copies v := by
  induction items with
  | nil => exact fun w _ _ => ⟨[], w, rfl⟩
  | cons item items ih =>
    intro w hheap hitems
    obtain ⟨hitem, hothers⟩ := List.forall_mem_cons.1 hitems
    obtain ⟨copy, k, hk⟩ := hheap.duplicate_ends hb hitem
    obtain ⟨hcopied, -, -⟩ := hheap.duplicate hitem hk
    obtain ⟨copies, v, hrest⟩ := ih { w with heap := k } hcopied.holds fun other hother =>
      (hothers other hother).mono hcopied.grows
    have hfirst : duplicate item w = .ok copy { w with heap := k } := by
      unfold duplicate
      rw [hk]
    refine ⟨copy :: copies, v, ?_⟩
    rw [List.mapM_cons]
    exact Action.bind_eq_ok.2 ⟨copy, _, hfirst, Action.bind_eq_ok.2 ⟨copies, v, hrest, rfl⟩⟩

end Operation

/-! ### Edits -/

namespace CollectionOperator

variable {limits : Limits} {op : CollectionOperator} {w v : Workbench} {ref : Nat}

/-- The edit that the operator makes of a map if it succeeds on a workbench. -/
def edit? (op : CollectionOperator) (ref : Nat) (w : Workbench) : Option MapEdit :=
  match op, w.stack with
  | setItem, value :: key :: .map target :: _ =>
    match MapKey.ofItem key, w.heap.duplicate value with
    | .ok key, .ok (copy, _) => if target = ref then some (.set key copy) else none
    | _, _ => none
  | remove, key :: .map target :: _ =>
    match MapKey.ofItem key with
    | .ok key => if target = ref then some (.remove key) else none
    | .error _ => none
  | _, _ => none

/-- What becomes of a map under an operator: its edit is made, and the limit on entries is kept. -/
structure Edits (limits : Limits) (op : CollectionOperator) (ref : Nat) (w v : Workbench) : Prop where
  made : ref < v.heap.maps.size
  entries : v.heap.map ref = (op.edit? ref w).toList.foldl MapEdit.apply (w.heap.map ref)
  room : (w.heap.map ref).length ≤ limits.arraySize → (v.heap.map ref).length ≤ limits.arraySize

theorem Edits.of_same (href : ref < w.heap.maps.size) (hgrows : w.heap.Grows v.heap)
    (hsame : v.heap.map ref = w.heap.map ref) (hnone : op.edit? ref w = none) : Edits limits op ref w v where
  made := href.trans_le hgrows.maps
  entries := by rw [hsame, hnone]; rfl
  room := by rw [hsame]; exact id

/-- Setting an item edits a list, or sets an entry of a map that has the key or room for it. -/
theorem setItem_cases {stack : List Item} {heap : Heap} (hrun : setItem.run limits ⟨stack, heap⟩ = .ok () v) :
    ∃ value key target rest copy k, stack = value :: key :: target :: rest ∧ heap.duplicate value = .ok (copy, k) ∧
      (((∀ cell, target ≠ .map cell) ∧ ∃ cell items, v.heap = k.setList cell items) ∨
        ∃ cell mapKey, target = .map cell ∧ MapKey.ofItem key = .ok mapKey ∧
          ((k.map cell).contains mapKey = false → (k.map cell).length < limits.arraySize) ∧
          v.heap = k.setMap cell ((k.map cell).insert mapKey copy)) := by
  obtain ⟨value, _, hvalue, hrun⟩ := Action.bind_eq_ok.1 hrun
  obtain ⟨stack, rfl, rfl⟩ := Operation.pop_eq_ok.1 hvalue
  obtain ⟨copy, _, hcopy, hrun⟩ := Action.bind_eq_ok.1 hrun
  obtain ⟨k, hk, rfl⟩ := Operation.duplicate_eq_ok hcopy
  obtain ⟨key, _, hkey, hrun⟩ := Action.bind_eq_ok.1 hrun
  obtain ⟨stack, rfl, rfl⟩ := Operation.pop_eq_ok.1 hkey
  obtain ⟨found, _, hfound, hrun⟩ := Action.bind_eq_ok.1 hrun
  obtain ⟨target, rest, rfl, rfl, hcell⟩ := Operation.popCollection_eq_ok hfound
  refine ⟨value, key, target, rest, copy, k, rfl, hk, ?_⟩
  rcases hcell with ⟨hlist, cell, rfl⟩ | ⟨cell, rfl, rfl⟩
  · obtain ⟨index, _, hindex, hrun⟩ := Action.bind_eq_ok.1 hrun
    obtain ⟨-, rfl⟩ := Action.ofExcept_eq_ok.1 hindex
    cases hrun
    exact .inl ⟨hlist, cell, _, rfl⟩
  · obtain ⟨mapKey, _, hcoerced, hrun⟩ := Action.bind_eq_ok.1 hrun
    obtain ⟨hmapKey, rfl⟩ := Action.ofExcept_eq_ok.1 hcoerced
    dsimp only at hrun
    split at hrun
    · cases hrun
    · rename_i hroom
      cases hrun
      refine .inr ⟨cell, mapKey, rfl, hmapKey, fun hnew => ?_, rfl⟩
      simpa [hnew] using hroom

/-- Removing an item edits a list or takes an entry out of a map. -/
theorem remove_cases {stack : List Item} {heap : Heap} (hrun : remove.run limits ⟨stack, heap⟩ = .ok () v) :
    ∃ key target rest, stack = key :: target :: rest ∧
      (((∀ cell, target ≠ .map cell) ∧ ∃ cell items, v.heap = heap.setList cell items) ∨
        ∃ cell mapKey, target = .map cell ∧ MapKey.ofItem key = .ok mapKey ∧
          v.heap = heap.setMap cell ((heap.map cell).erase mapKey)) := by
  obtain ⟨key, _, hkey, hrun⟩ := Action.bind_eq_ok.1 hrun
  obtain ⟨stack, rfl, rfl⟩ := Operation.pop_eq_ok.1 hkey
  obtain ⟨found, _, hfound, hrun⟩ := Action.bind_eq_ok.1 hrun
  obtain ⟨target, rest, rfl, rfl, hcell⟩ := Operation.popCollection_eq_ok hfound
  refine ⟨key, target, rest, rfl, ?_⟩
  rcases hcell with ⟨hlist, cell, rfl⟩ | ⟨cell, rfl, rfl⟩
  · obtain ⟨index, _, hindex, hrun⟩ := Action.bind_eq_ok.1 hrun
    obtain ⟨-, rfl⟩ := Action.ofExcept_eq_ok.1 hindex
    cases hrun
    exact .inl ⟨hlist, cell, _, rfl⟩
  · obtain ⟨mapKey, _, hcoerced, hrun⟩ := Action.bind_eq_ok.1 hrun
    obtain ⟨hmapKey, rfl⟩ := Action.ofExcept_eq_ok.1 hcoerced
    cases hrun
    exact .inr ⟨cell, mapKey, rfl, hmapKey, rfl⟩

/-- Appending and reversing edit a list. -/
theorem setList_of_append_or_reverse (hop : op = append ∨ op = reverse) (hrun : op.run limits w = .ok () v) :
    ∃ k cell items, w.heap.KeptIn k ∧ v.heap = k.setList cell items := by
  have hpopped {found : Nat × List Item} {p q : Workbench} (h : Operation.popList p = .ok found q) :
      q.heap = p.heap := by
    obtain ⟨item, _, hitem, h⟩ := Action.bind_eq_ok.1 h
    obtain ⟨rest, -, rfl⟩ := Operation.pop_eq_ok.1 hitem
    obtain ⟨ref, _, href, h⟩ := Action.bind_eq_ok.1 h
    obtain ⟨-, rfl⟩ := Action.ofExcept_eq_ok.1 href
    cases h
    rfl
  rcases hop with rfl | rfl
  · obtain ⟨item, _, hitem, hrun⟩ := Action.bind_eq_ok.1 hrun
    obtain ⟨rest, -, rfl⟩ := Operation.pop_eq_ok.1 hitem
    obtain ⟨copy, _, hcopy, hrun⟩ := Action.bind_eq_ok.1 hrun
    obtain ⟨k, hk, rfl⟩ := Operation.duplicate_eq_ok hcopy
    obtain ⟨⟨cell, items⟩, p, hlist, hrun⟩ := Action.bind_eq_ok.1 hrun
    have hp : p.heap = k := hpopped hlist
    dsimp only at hrun
    split at hrun
    · cases hrun
    · cases hrun
      exact ⟨k, cell, _, (Heap.duplicate_copyOf hk).1.toKeptIn, by rw [hp]⟩
  · obtain ⟨⟨cell, items⟩, p, hlist, hrun⟩ := Action.bind_eq_ok.1 hrun
    have hp : p.heap = w.heap := hpopped hlist
    cases hrun
    exact ⟨w.heap, cell, _, .refl w.heap, by rw [hp]⟩

/-- A map of a heap that was added to and of which one map was replaced. -/
private theorem Edits.of_setMap {k : Heap} {cell : Nat} {entries : Dictionary} {edit : MapEdit}
    (href : ref < w.heap.maps.size) (hkept : w.heap.KeptIn k) (hv : v.heap = k.setMap cell entries)
    (hedit : op.edit? ref w = if cell = ref then some edit else none)
    (hentries : cell = ref → entries = edit.apply (w.heap.map ref))
    (hroom : cell = ref → (w.heap.map ref).length ≤ limits.arraySize → entries.length ≤ limits.arraySize) :
    Edits limits op ref w v := by
  have hin : ref < k.maps.size := href.trans_le hkept.maps
  by_cases hcell : cell = ref
  · subst hcell
    refine ⟨by simpa [hv, Heap.setMap] using hin, ?_, ?_⟩
    · rw [hedit, if_pos rfl, hv]
      exact (k.map_setMap_self entries hin).trans (hentries rfl)
    · rw [hv, k.map_setMap_self entries hin]
      exact hroom rfl
  · refine .of_same href ?_ ?_ (hedit.trans (if_neg hcell))
    · rw [hv]
      exact hkept.toGrows.trans (k.grows_setMap cell entries)
    · rw [hv]
      exact (k.map_setMap_ne entries hcell).trans (hkept.map ref href)

/-- Every operator that succeeds makes its own edit of a map, and none if it is not one of two. -/
theorem map_of_run (hrun : op.run limits w = .ok () v) (href : ref < w.heap.maps.size) :
    Edits limits op ref w v := by
  have hlist {k : Heap} {cell : Nat} {items : List Item} (hkept : w.heap.KeptIn k)
      (hv : v.heap = k.setList cell items) (hnone : op.edit? ref w = none) : Edits limits op ref w v := by
    refine .of_same href ?_ ?_ hnone
    · rw [hv]
      exact hkept.toGrows.trans (k.grows_setList cell items)
    · rw [hv]
      exact hkept.map ref href
  obtain ⟨stack, heap⟩ := w
  cases op with
  | setItem =>
    obtain ⟨value, key, target, rest, copy, k, rfl, hk, hcases⟩ := setItem_cases hrun
    have hkept : heap.KeptIn k := (Heap.duplicate_copyOf hk).1.toKeptIn
    rcases hcases with ⟨htarget, cell, items, hv⟩ | ⟨cell, mapKey, rfl, hmapKey, hroom, hv⟩
    · refine hlist hkept hv ?_
      cases target with
      | map cell => exact absurd rfl (htarget cell)
      | _ => rfl
    · have hedit : setItem.edit? ref ⟨value :: key :: .map cell :: rest, heap⟩ =
          if cell = ref then some (.set mapKey copy) else none := by
        simp only [edit?, hmapKey, hk]
      refine .of_setMap href hkept hv hedit (fun hcell => ?_) fun hcell hle => ?_
      · subst hcell
        rw [hkept.map cell href]
        rfl
      · subst hcell
        rw [hkept.map cell href] at hroom ⊢
        rw [Dictionary.length_insert]
        split
        · exact hle
        · rename_i hnew
          exact hroom (Bool.eq_false_of_not_eq_true hnew)
  | remove =>
    obtain ⟨key, target, rest, rfl, hcases⟩ := remove_cases hrun
    rcases hcases with ⟨htarget, cell, items, hv⟩ | ⟨cell, mapKey, rfl, hmapKey, hv⟩
    · refine hlist (.refl heap) hv ?_
      cases target with
      | map cell => exact absurd rfl (htarget cell)
      | _ => rfl
    · have hedit : remove.edit? ref ⟨key :: .map cell :: rest, heap⟩ =
          if cell = ref then some (.remove mapKey) else none := by
        simp only [edit?, hmapKey]
      refine .of_setMap href (.refl heap) hv hedit (fun hcell => ?_) fun hcell hle => ?_
      · subst hcell
        rfl
      · subst hcell
        exact List.length_eraseP_le.trans hle
  | append =>
    obtain ⟨k, cell, items, hkept, hv⟩ := setList_of_append_or_reverse (.inl rfl) hrun
    exact hlist hkept hv rfl
  | reverse =>
    obtain ⟨k, cell, items, hkept, hv⟩ := setList_of_append_or_reverse (.inr rfl) hrun
    exact hlist hkept hv rfl
  | _ =>
    have hkept := run_adds limits rfl _ () v hrun
    exact .of_same href hkept.toGrows (hkept.map ref href) rfl

end CollectionOperator

/-! ### Reading a map -/

/-- What operators find of a map that went through these edits. -/
structure Heap.Records (limits : Limits) (h : Heap) (ref : Nat) (edits : MapHistory) : Prop where
  /-- No two entries have keys of one encoding. -/
  distinct : (h.map ref).Distinct
  /-- There are no more live keys than entries may be. -/
  size : edits.keys.length ≤ limits.arraySize
  hasKey : ∀ item key rest, MapKey.ofItem item = .ok key →
    CollectionOperator.hasKey.run limits ⟨item :: .map ref :: rest, h⟩ =
      .ok () ⟨.boolean (edits.last? key.encoding).isSome :: rest, h⟩
  pickItem : ∀ item key rest, MapKey.ofItem item = .ok key →
    CollectionOperator.pickItem.run limits ⟨item :: .map ref :: rest, h⟩ =
      match edits.last? key.encoding with
      | some value => .ok () ⟨value :: rest, h⟩
      | none => .error .keyNotFound ⟨rest, h⟩
  /-- A new array holds the items of the live keys. -/
  keys : ∀ rest, CollectionOperator.keys.run limits ⟨.map ref :: rest, h⟩ =
    .ok () ⟨.array h.lists.size :: rest, (h.newList (edits.keys.map MapKey.item)).2⟩
  /-- A new array holds copies of the values last set under the live keys. -/
  values : ∀ rest v, CollectionOperator.values.run limits ⟨.map ref :: rest, h⟩ = .ok () v →
    ∃ values copies k, values.map some = edits.keys.map (fun key => edits.last? key.encoding) ∧
      h.KeptIn k ∧ List.Forall₂ (h.CopyOf k) values copies ∧
      v = ⟨.array k.lists.size :: rest, (k.newList copies).2⟩
  values_end : ∀ rest, h.Resolves [.map ref] → h.Acyclic [.map ref] →
    ∃ v, CollectionOperator.values.run limits ⟨.map ref :: rest, h⟩ = .ok () v
  arraySize : ∀ rest, edits.keys.length < 2 ^ 63 →
    CollectionOperator.arraySize.run limits ⟨.map ref :: rest, h⟩ = .ok () ⟨.integer edits.keys.length :: rest, h⟩
  /-- A new key for which there is no room is refused. -/
  full : ∀ value copy item key rest k, MapKey.ofItem item = .ok key → h.duplicate value = .ok (copy, k) →
    edits.last? key.encoding = none → limits.arraySize ≤ edits.keys.length →
    CollectionOperator.setItem.run limits ⟨value :: item :: .map ref :: rest, h⟩ =
      .error (.arrayTooLarge (edits.keys.length + 1) limits.arraySize) ⟨rest, k⟩
  /-- Whatever is refused changes nothing on the heap. -/
  refused : ∀ value item rest fault v,
    CollectionOperator.setItem.run limits ⟨value :: item :: .map ref :: rest, h⟩ = .error fault v → h.KeptIn v.heap

section Records

variable {limits : Limits} {h k : Heap} {ref : Nat} {edits : MapHistory} {value copy item : Item} {rest : List Item}

theorem wrapInt64_of_lt {n : Nat} (hn : n < 2 ^ 63) : wrapInt64 n = n := by
  have hsize : UInt64.size = 2 ^ 64 := rfl
  have hlow : -((UInt64.size : Int) / 2) ≤ n := by omega
  have hhigh : (n : Int) < (UInt64.size + 1) / 2 := by
    rw [hsize]
    omega
  exact Int.bmod_eq_of_le hlow hhigh

private theorem ofExcept_ofItem {key : MapKey} (hkey : MapKey.ofItem item = .ok key) (w : Workbench) :
    (Action.ofExcept (MapKey.ofItem item) : Operation MapKey) w = .ok key w :=
  Action.ofExcept_eq_ok.2 ⟨hkey, rfl⟩

/-- Once the value has been copied, an entry is set unless the key is new and there is no room for it. -/
private theorem setItem_copied (hk : h.duplicate value = .ok (copy, k)) :
    CollectionOperator.setItem.run limits ⟨value :: item :: .map ref :: rest, h⟩ =
      (Action.ofExcept (MapKey.ofItem item) >>= fun key =>
        if !(k.map ref).contains key && limits.arraySize ≤ (k.map ref).length then
          throw (.arrayTooLarge ((k.map ref).length + 1) limits.arraySize)
        else Operation.modifyHeap (·.setMap ref ((k.map ref).insert key copy))) ⟨rest, k⟩ := by
  have hcopy : Operation.duplicate value ⟨item :: .map ref :: rest, h⟩ = .ok copy ⟨item :: .map ref :: rest, k⟩ := by
    unfold Operation.duplicate
    rw [hk]
  show (Operation.duplicate value >>= _) (⟨item :: .map ref :: rest, h⟩ : Workbench) = _
  rw [Action.bind_of_ok hcopy]
  show (Action.ofExcept (MapKey.ofItem item) >>= _) (⟨rest, k⟩ : Workbench) = _
  rw [Action.bind_apply, Action.bind_apply]
  cases MapKey.ofItem item with
  | error fault => rfl
  | ok key =>
    simp only [Action.ofExcept]
    split <;> rfl

private theorem setItem_refused {fault : Fault} {v : Workbench}
    (hrun : CollectionOperator.setItem.run limits ⟨value :: item :: .map ref :: rest, h⟩ = .error fault v) :
    h.KeptIn v.heap := by
  cases hk : h.duplicate value with
  | ok result =>
    obtain ⟨copy, k⟩ := result
    have hkept : h.KeptIn k := (Heap.duplicate_copyOf hk).1.toKeptIn
    rw [setItem_copied hk, Action.bind_eq_error] at hrun
    rcases hrun with hkey | ⟨key, w, hkey, hrun⟩
    · obtain ⟨-, rfl⟩ := Action.ofExcept_eq_error.1 hkey
      exact hkept
    · obtain ⟨-, rfl⟩ := Action.ofExcept_eq_ok.1 hkey
      split at hrun <;> cases hrun
      exact hkept
  | error other =>
    have hcopy : Operation.duplicate value ⟨item :: .map ref :: rest, h⟩ =
        .error other ⟨item :: .map ref :: rest, h⟩ := by
      unfold Operation.duplicate
      rw [hk]
    have hsame : CollectionOperator.setItem.run limits ⟨value :: item :: .map ref :: rest, h⟩ =
        .error other ⟨item :: .map ref :: rest, h⟩ := by
      show (Operation.duplicate value >>= _) (⟨item :: .map ref :: rest, h⟩ : Workbench) = _
      exact Action.bind_of_error hcopy
    rw [hsame] at hrun
    cases hrun
    exact .refl h

/-- A map that is what its edits made says what they say. -/
theorem Heap.records_of_map (href : ref < h.maps.size) (hmap : h.map ref = edits.replay)
    (hsize : (h.map ref).length ≤ limits.arraySize) : h.Records limits ref edits := by
  have hlength : (h.map ref).length = edits.keys.length := by rw [hmap, MapHistory.length_replay]
  have hfind (key : MapKey) : (h.map ref).find? key = edits.last? key.encoding := by
    rw [hmap, MapHistory.find?_replay]
  refine
    { distinct := hmap ▸ edits.distinct_replay
      size := hlength ▸ hsize
      hasKey := fun item key rest hkey => ?_
      pickItem := fun item key rest hkey => ?_
      keys := fun rest => ?_
      values := fun rest v hrun => ?_
      values_end := fun rest hresolves hacyclic => ?_
      arraySize := fun rest hsmall => ?_
      full := fun value copy item key rest k hkey hk hnew hfull => ?_
      refused := fun value item rest fault v hrun => setItem_refused hrun }
  · show (Action.ofExcept (MapKey.ofItem item) >>= fun key => Operation.pushBool ((h.map ref).contains key))
      ⟨rest, h⟩ = _
    rw [Action.bind_of_ok (ofExcept_ofItem hkey _), Dictionary.contains_eq_isSome_find?, hfind]
    rfl
  · show (Action.ofExcept (MapKey.ofItem item) >>= fun key =>
      match (h.map ref).find? key with
      | some value => Operation.push value
      | none => throw .keyNotFound) ⟨rest, h⟩ = _
    rw [Action.bind_of_ok (ofExcept_ofItem hkey _), hfind]
    cases edits.last? key.encoding <;> rfl
  · have hkeys : Dictionary.keys (h.map ref) = edits.keys.map MapKey.item := by
      rw [hmap, ← MapHistory.keys_replay, List.map_map]
      rfl
    rw [← hkeys]
    rfl
  · obtain ⟨copies, ⟨stack, k⟩, hcopies, hrun⟩ :
        ∃ copies p, (h.map ref).values.mapM Operation.duplicate ⟨rest, h⟩ = .ok copies p ∧
          Operation.pushArray copies p = .ok () v := Action.bind_eq_ok.1 hrun
    obtain ⟨-, hkept, hstack, hall⟩ := Operation.mapM_duplicate_copies h _ _ copies _ (.refl h) hcopies
    cases hrun
    cases hstack
    exact ⟨(h.map ref).values, copies, k, by rw [hmap, MapHistory.values_replay], hkept, hall, rfl⟩
  · have hgiven : (Bounds.loose True).HoldsGiven h [.map ref] := Bounds.holdsGiven_loose hresolves fun _ => hacyclic
    have hvalues : ∀ value ∈ (h.map ref).values, ((Bounds.loose True).given h [.map ref]).Holds h value := by
      intro value hvalue
      obtain ⟨entry, hentry, rfl⟩ := List.mem_map.1 hvalue
      refine hgiven.holds (.inside (.root (List.mem_singleton.2 rfl)) rfl ?_)
      exact Dictionary.mem_items.2 ⟨entry, hentry, .inr rfl⟩
    obtain ⟨copies, p, hcopies⟩ :=
      Operation.mapM_duplicate_ends trivial (h.map ref).values ⟨rest, h⟩ (hgiven.holdsHeap trivial) hvalues
    refine ⟨⟨.array p.heap.lists.size :: p.stack, (p.heap.newList copies).2⟩, ?_⟩
    show ((h.map ref).values.mapM Operation.duplicate >>= Operation.pushArray) ⟨rest, h⟩ = _
    rw [Action.bind_of_ok hcopies]
    rfl
  · show Operation.pushNumber (wrapInt64 (h.map ref).length) ⟨rest, h⟩ = _
    rw [hlength, wrapInt64_of_lt hsmall]
    rfl
  · have hkept : k.map ref = h.map ref := (duplicate_copyOf hk).1.map ref href
    have hdead : (k.map ref).contains key = false := by
      rw [hkept, Dictionary.contains_eq_isSome_find?, hfind, hnew]
      rfl
    rw [setItem_copied hk, Action.bind_of_ok (ofExcept_ofItem hkey _), hdead, if_pos, hkept, hlength]
    · rfl
    · rw [hkept, hlength]
      simpa using hfull

end Records
end LedgerVM
