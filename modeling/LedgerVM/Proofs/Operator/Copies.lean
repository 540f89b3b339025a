import LedgerVM.Operator.Collection
import LedgerVM.Proofs.Item.Copy
import LedgerVM.Proofs.Machine.Nesting

/-!
# Copies of structs are values of their own

What is done to the structs of a copy does not show anywhere else.  The structs that the copy leads to were made after
everything else (`Heap.Fenced`), an operator that edits one of them in place puts nothing into it but what it held and
structs newer still (`CollectionOperator.setList_of_run`), and so both stays true however often it is edited
(`Heap.copies_are_independent`).
-/

namespace LedgerVM

/-- The place on the stack of the collection that an operator edits in place, if it is one that does. -/
def CollectionOperator.edited? : CollectionOperator → Option Nat
  | setItem => some 2
  | append | remove => some 1
  | reverse => some 0
  | _ => none

theorem Operation.duplicate_eq_ok {item copy : Item} {w v : Workbench} (h : Operation.duplicate item w = .ok copy v) :
    ∃ k, w.heap.duplicate item = .ok (copy, k) ∧ v = { w with heap := k } := by
  unfold Operation.duplicate at h
  split at h
  · rename_i k hk
    cases h
    exact ⟨k, hk, rfl⟩
  · cases h

/-! ### Editing a struct in place -/

namespace CollectionOperator

variable {limits : Limits} {ref : Nat} {item key : Item} {rest stack : List Item} {heap : Heap} {v : Workbench}

theorem setItem_struct (hrun : setItem.run limits ⟨item :: key :: .struct ref :: rest, heap⟩ = .ok () v) :
    ∃ copy k index, heap.duplicate item = .ok (copy, k) ∧ v.heap = k.setList ref ((k.list ref).set index copy) := by
  obtain ⟨_, w, hitem, hrun⟩ := Action.bind_eq_ok.1 hrun
  cases hitem
  obtain ⟨copy, w, hcopy, hrun⟩ := Action.bind_eq_ok.1 hrun
  obtain ⟨k, hk, rfl⟩ := Operation.duplicate_eq_ok hcopy
  obtain ⟨_, w, hkey, hrun⟩ := Action.bind_eq_ok.1 hrun
  cases hkey
  obtain ⟨_, w, htarget, hrun⟩ := Action.bind_eq_ok.1 hrun
  cases htarget
  obtain ⟨index, w, hindex, hrun⟩ := Action.bind_eq_ok.1 hrun
  obtain ⟨-, rfl⟩ := Action.ofExcept_eq_ok.1 hindex
  cases hrun
  exact ⟨copy, k, index, hk, rfl⟩

theorem append_struct (hrun : append.run limits ⟨item :: .struct ref :: rest, heap⟩ = .ok () v) :
    ∃ copy k, heap.duplicate item = .ok (copy, k) ∧ v.heap = k.setList ref (k.list ref ++ [copy]) := by
  obtain ⟨_, w, hitem, hrun⟩ := Action.bind_eq_ok.1 hrun
  cases hitem
  obtain ⟨copy, w, hcopy, hrun⟩ := Action.bind_eq_ok.1 hrun
  obtain ⟨k, hk, rfl⟩ := Operation.duplicate_eq_ok hcopy
  obtain ⟨_, w, htarget, hrun⟩ := Action.bind_eq_ok.1 hrun
  cases htarget
  dsimp only at hrun
  split at hrun
  · cases hrun
  · cases hrun
    exact ⟨copy, k, hk, rfl⟩

theorem reverse_struct (hrun : reverse.run limits ⟨.struct ref :: rest, heap⟩ = .ok () v) :
    v.heap = heap.setList ref (heap.list ref).reverse := by
  obtain ⟨_, w, htarget, hrun⟩ := Action.bind_eq_ok.1 hrun
  cases htarget
  cases hrun
  rfl

theorem remove_struct (hrun : remove.run limits ⟨key :: .struct ref :: rest, heap⟩ = .ok () v) :
    ∃ index, v.heap = heap.setList ref ((heap.list ref).eraseIdx index) := by
  obtain ⟨_, w, hkey, hrun⟩ := Action.bind_eq_ok.1 hrun
  cases hkey
  obtain ⟨_, w, htarget, hrun⟩ := Action.bind_eq_ok.1 hrun
  cases htarget
  obtain ⟨index, w, hindex, hrun⟩ := Action.bind_eq_ok.1 hrun
  obtain ⟨-, rfl⟩ := Action.ofExcept_eq_ok.1 hindex
  cases hrun
  exact ⟨index, rfl⟩

/-- An operator that edits a struct in place leaves what it held in it, and structs that were made meanwhile. -/
theorem setList_of_run {op : CollectionOperator} {place : Nat} (hop : op.edited? = some place)
    (htarget : stack[place]? = some (.struct ref)) (hrun : op.run limits ⟨stack, heap⟩ = .ok () v) :
    ∃ k items, heap.Spreads k ∧ v.heap = k.setList ref items ∧
      ∀ inner, .struct inner ∈ items →
        .struct inner ∈ k.list ref ∨ heap.lists.size ≤ inner ∧ inner < k.lists.size := by
  cases op with
  | setItem =>
    cases hop
    match stack, htarget with
    | value :: key :: _ :: rest, rfl =>
      obtain ⟨copy, k, index, hcopy, hheap⟩ := setItem_struct hrun
      obtain ⟨hspreads, hcopyOf⟩ := Heap.duplicate_copyOf hcopy
      refine ⟨k, _, hspreads, hheap, fun inner hinner => ?_⟩
      rcases List.mem_or_eq_of_mem_set hinner with hold | hnew
      · exact .inl hold
      · exact .inr (hcopyOf.fresh inner hnew.symm)
  | append =>
    cases hop
    match stack, htarget with
    | item :: _ :: rest, rfl =>
      obtain ⟨copy, k, hcopy, hheap⟩ := append_struct hrun
      obtain ⟨hspreads, hcopyOf⟩ := Heap.duplicate_copyOf hcopy
      refine ⟨k, _, hspreads, hheap, fun inner hinner => ?_⟩
      rcases List.mem_append.1 hinner with hold | hnew
      · exact .inl hold
      · exact .inr (hcopyOf.fresh inner (List.mem_singleton.1 hnew).symm)
  | reverse =>
    cases hop
    match stack, htarget with
    | _ :: rest, rfl =>
      exact ⟨heap, _, .refl heap, reverse_struct hrun, fun inner hinner => .inl (List.mem_reverse.1 hinner)⟩
  | remove =>
    cases hop
    match stack, htarget with
    | key :: _ :: rest, rfl =>
      obtain ⟨index, hheap⟩ := remove_struct hrun
      exact ⟨heap, _, .refl heap, hheap, fun inner hinner => .inl (List.mem_of_mem_eraseIdx hinner)⟩
  | _ => cases hop

end CollectionOperator

/-! ### The fence around a copy -/

namespace Heap

variable {h k l : Heap} {x y : Item} {ref : Nat}

/-- Everything on the one heap is on the other as it was, and the structs that the item leads to there were made
later. -/
structure Fenced (h : Heap) (y : Item) (l : Heap) : Prop extends h.KeptIn l where
  leads : ∀ ref, l.Leads y ref → h.lists.size ≤ ref ∧ ref < l.lists.size

theorem CopyOf.fenced (hk : h.Spreads k) (hcopy : h.CopyOf k x y) : h.Fenced y k where
  toKeptIn := hk.toKeptIn
  leads _ := hk.leads hcopy.fresh

/-- A fence stays where the heap is added to. -/
theorem Fenced.grow (hl : h.Fenced y l) (hkept : l.KeptIn k) : h.Fenced y k where
  toKeptIn := hl.toKeptIn.trans hkept
  leads ref hleads := by
    obtain ⟨path, hpath⟩ := hleads
    rw [follow_congr fun ref hleads => hkept.list ref (hl.leads ref hleads).2] at hpath
    obtain ⟨hlow, hhigh⟩ := hl.leads ref ⟨path, hpath⟩
    exact ⟨hlow, hhigh.trans_le hkept.lists⟩

section Edit

variable {items : List Item} (hl : h.Fenced y l) (hk : l.Spreads k) (href : l.Leads y ref)
  (hitems : ∀ inner, .struct inner ∈ items →
    .struct inner ∈ k.list ref ∨ l.lists.size ≤ inner ∧ inner < k.lists.size)
include hl hk href hitems

/-- A struct behind the fence that is given what it held and structs that were made meanwhile does not lead out. -/
theorem Fenced.leads_setList {other : Nat} (hleads : (k.setList ref items).Leads y other) :
    l.Leads y other ∨ l.lists.size ≤ other ∧ other < k.lists.size := by
  refine hleads.of_closed (P := fun other => l.Leads y other ∨ l.lists.size ≤ other ∧ other < k.lists.size) ?_ ?_
  · intro outer houter inner hinner
    rw [Contains, list_setList] at hinner
    have hheld : .struct inner ∈ k.list outer ∨ l.lists.size ≤ inner ∧ inner < k.lists.size := by
      split at hinner
      · rename_i hsame
        exact hsame.1 ▸ hitems inner hinner
      · exact .inl hinner
    -- what a struct behind the fence held was behind it, and new structs hold new ones
    rcases hheld with hold | hnew
    · rcases houter with houter | ⟨hout, -⟩
      · rw [hk.list outer (hl.leads outer houter).2] at hold
        exact .inl (houter.contains hold)
      · exact .inr (hk.fresh outer hout inner hold)
    · exact .inr hnew
  · rintro top rfl
    exact .inl (.refl l top)

/-- A fence stays where a struct behind it is edited. -/
theorem Fenced.setList : h.Fenced y (k.setList ref items) where
  toGrows := (hl.toGrows.trans hk.toGrows).trans (k.grows_setList ref items)
  list other hother := by
    obtain ⟨hlow, -⟩ := hl.leads ref href
    rw [list_setList_ne k items (by omega), hk.list other (hother.trans_le hl.lists), hl.list other hother]
  map other hother := (hk.map other (hother.trans_le hl.maps)).trans (hl.map other hother)
  leads other hleads := by
    have hsize : (k.setList ref items).lists.size = k.lists.size := by simp [Heap.setList]
    have hgrows := hl.lists
    have hspread := hk.lists
    rw [hsize]
    rcases hl.leads_setList hk href hitems hleads with hold | hnew
    · have hother := hl.leads other hold
      omega
    · omega

end Edit

/-- What a heap becomes while structs that the item leads to are edited in place, one after the other, and the heap is
added to in between. -/
inductive Edited (y : Item) : Heap → Heap → Prop
  | refl (k : Heap) : Edited y k k
  | edit {k l : Heap} {op : CollectionOperator} {limits : Limits} {place ref : Nat} {stack : List Item} {v : Workbench}
      (hl : Edited y k l) (hop : op.edited? = some place) (htarget : stack[place]? = some (.struct ref))
      (hleads : l.Leads y ref) (hrun : op.run limits ⟨stack, l⟩ = .ok () v) : Edited y k v.heap
  | grow {k l l' : Heap} (hl : Edited y k l) (hkept : l.KeptIn l') : Edited y k l'

theorem Fenced.edited (hk : h.Fenced y k) (hl : Edited y k l) : h.Fenced y l := by
  induction hl with
  | refl => exact hk
  | @edit l op limits place ref stack v _ hop htarget hleads hrun ih =>
    obtain ⟨k', items, hspreads, hheap, hitems⟩ := CollectionOperator.setList_of_run hop htarget hrun
    rw [hheap]
    exact ih.setList hspreads hleads hitems
  | grow _ hkept ih => exact ih.grow hkept

/-- Let no struct that an item leads to contain itself.  Then there is a copy of the item, equal to it, which along
every path has a new struct where the item has a struct, and otherwise the same item.  Nothing that was on the heap
changes, neither then nor while the structs that the copy leads to are edited: no item from before leads to any of them,
what it leads to stays the same, and so does what it is equal to. -/
theorem copies_are_independent (hresolves : h.Resolves [x]) (hacyclic : h.Acyclic [x]) :
    ∃ y k, h.duplicate x = .ok (y, k) ∧ k.equal x y = .ok true ∧ k.equal y x = .ok true ∧
      (∀ path, Option.Rel (Item.CopiedAs h.lists.size) (h.follow x path) (k.follow y path)) ∧
      ∀ l, Edited y k l →
        h.KeptIn l ∧
        (∀ ref, l.Leads y ref → h.lists.size ≤ ref ∧
          ∀ items, h.Resolves items → ¬l.ReachesCell items (.list ref)) ∧
        (∀ items, h.Resolves items → ∀ item, l.Reaches items item ↔ h.Reaches items item) ∧
        ∀ a b answer, h.Resolves [a] → h.Resolves [b] → h.equal a b = .ok answer → l.equal a b = .ok answer := by
  obtain ⟨y, k, hrun, hspreads, hcopy, hequal, hequal'⟩ := exists_copy hresolves hacyclic
  refine ⟨y, k, hrun, hequal, hequal', hcopy.follow fun _ => hresolves.leads, fun l hl => ?_⟩
  have hfenced : h.Fenced y l := (hcopy.fenced hspreads).edited hl
  refine ⟨hfenced.toKeptIn, fun ref hleads => ?_, fun items hitems item => ?_, fun a b answer ha hb hanswer => ?_⟩
  · obtain ⟨hlow, -⟩ := hfenced.leads ref hleads
    exact ⟨hlow, fun items hitems => hfenced.toKeptIn.not_reachesCell hitems hlow⟩
  · exact hfenced.toKeptIn.reaches_iff hitems
  · exact hfenced.toKeptIn.equal ha hb hanswer

/-- A struct with a struct and an array in it is copied, and the copy is reversed.  The copy was equal to the struct,
and the struct is what it was. -/
theorem reversed_copy_is_independent :
    let heap : Heap := { lists := #[[.struct 1, .array 2], [.integer 7], []] }
    ∃ y k v, heap.duplicate (.struct 0) = .ok (y, k) ∧ k.equal (.struct 0) y = .ok true ∧
      CollectionOperator.reverse.run Setting.blank.limits ⟨[y], k⟩ = .ok () v ∧ heap.KeptIn v.heap := by
  intro heap
  have hresolves : heap.Resolves [.struct 0] := resolves_of_forall (by decide) (by decide)
  have hacyclic : heap.Acyclic [.struct 0] := by
    refine acyclic_of_rank (fun ref => 1 - ref) fun inner outer hinner => ?_
    match outer with
    | 0 => simp_all [Contains, Heap.list, heap]
    | 1 | 2 | _ + 3 => simp [Contains, Heap.list, heap] at hinner
  obtain ⟨y, k, hrun, hequal, -, hpaths, hedited⟩ := copies_are_independent hresolves hacyclic
  have hroot := hpaths []
  rw [follow_nil, follow_nil] at hroot
  cases hroot with
  | some hroot =>
    cases hroot with
    | @struct _ copy _ =>
      have hreverse : CollectionOperator.reverse.run Setting.blank.limits ⟨[.struct copy], k⟩ =
          .ok () ⟨[], k.setList copy (k.list copy).reverse⟩ := rfl
      exact ⟨_, k, _, hrun, hequal, hreverse, (hedited _ (.edit (.refl k) rfl rfl (.refl k copy) hreverse)).1⟩
    | shared hitem => exact absurd rfl (hitem 0)

end Heap
end LedgerVM
