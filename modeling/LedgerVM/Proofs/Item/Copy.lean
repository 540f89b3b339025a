import LedgerVM.Proofs.Item.CopyInduction
import LedgerVM.Proofs.Service.Heap

/-!
# Copies of structs

A copy follows structs into the structs in them.  It leaves the heap as it was and adds new structs to it, in which
there are no structs but new ones (`Heap.Spreads`).

* `Heap.follow`: the item at the end of a path through structs, by which a copy is compared with its original.
* `Heap.CopyOf`: along every path a copy has a new struct where its original has a struct, and otherwise the same item.
* `Heap.exists_copy`: where structs do not contain themselves, every item has a copy, which is equal to it.
* `Heap.KeptIn.reaches_iff`, `Heap.KeptIn.equal`: on a heap that is only added to, what can be reached and what is equal
  stays so.
-/

namespace LedgerVM

namespace Heap

variable {h k l : Heap} {item copy : Item} {path : List Nat} {ref : Nat}

/-! ### Paths through structs -/

/-- The item at the end of a path of positions, each of them in a struct. -/
def follow (h : Heap) : Item → List Nat → Option Item
  | item, [] => some item
  | .struct ref, i :: path => (h.list ref)[i]?.bind fun item => h.follow item path
  | _, _ :: _ => none

/-- The item leads to the struct through structs alone. -/
def Leads (h : Heap) (item : Item) (ref : Nat) : Prop := ∃ path, h.follow item path = some (.struct ref)

@[simp] theorem follow_nil (h : Heap) (item : Item) : h.follow item [] = some item := by cases item <;> rfl

theorem follow_struct (h : Heap) (ref i : Nat) (path : List Nat) :
    h.follow (.struct ref) (i :: path) = (h.list ref)[i]?.bind fun item => h.follow item path := rfl

theorem follow_of_ne_struct (hitem : ∀ ref, item ≠ .struct ref) (i : Nat) (path : List Nat) :
    h.follow item (i :: path) = none := by
  cases item with
  | struct ref => exact absurd rfl (hitem ref)
  | _ => rfl

theorem follow_append (item : Item) (path rest : List Nat) :
    h.follow item (path ++ rest) = (h.follow item path).bind fun inner => h.follow inner rest := by
  induction path generalizing item with
  | nil =>
    rw [follow_nil]
    rfl
  | cons i path ih =>
    cases item with
    | struct ref => simp only [List.cons_append, follow_struct, Option.bind_assoc, ih]
    | _ => rfl

theorem reaches_of_follow {inner : Item} (hpath : h.follow item path = some inner) : h.Reaches [item] inner := by
  induction path generalizing item with
  | nil =>
    obtain rfl : item = inner := Option.some.inj ((h.follow_nil item).symm.trans hpath)
    exact .root (List.mem_singleton.2 rfl)
  | cons i path ih =>
    cases item with
    | struct ref =>
      obtain ⟨next, hnext, hpath⟩ := Option.bind_eq_some_iff.1 hpath
      have hinside : h.Reaches [.struct ref] next :=
        .inside (.root (List.mem_singleton.2 rfl)) rfl (List.mem_of_getElem? hnext)
      exact hinside.onward (ih hpath)
    | _ => cases hpath

theorem Leads.refl (h : Heap) (ref : Nat) : h.Leads (.struct ref) ref := ⟨[], rfl⟩

theorem Leads.inside {inner : Item} (hinner : inner ∈ h.list ref) {other : Nat} (hleads : h.Leads inner other) :
    h.Leads (.struct ref) other := by
  obtain ⟨path, hpath⟩ := hleads
  obtain ⟨i, hi⟩ := List.mem_iff_getElem?.1 hinner
  exact ⟨i :: path, by rw [follow_struct, hi, Option.bind_some, hpath]⟩

/-- What holds of the item, if it is a struct, and of the structs in every struct of which it holds, holds of every
struct that the item leads to. -/
theorem Leads.of_closed {P : Nat → Prop} (hclosed : ∀ outer, P outer → ∀ inner, h.Contains inner outer → P inner)
    (hitem : ∀ ref, item = .struct ref → P ref) (hleads : h.Leads item ref) : P ref := by
  obtain ⟨path, hpath⟩ := hleads
  induction path generalizing item with
  | nil => exact hitem ref (Option.some.inj hpath)
  | cons i path ih =>
    cases item with
    | struct outer =>
      obtain ⟨inner, hinner, hpath⟩ := Option.bind_eq_some_iff.1 hpath
      refine ih (fun other hother => ?_) hpath
      subst hother
      exact hclosed outer (hitem outer rfl) other (List.mem_of_getElem? hinner)
    | _ => cases hpath

theorem Leads.contains {outer inner : Nat} (hleads : h.Leads item outer) (hinner : h.Contains inner outer) :
    h.Leads item inner := by
  obtain ⟨path, hpath⟩ := hleads
  induction path generalizing item with
  | nil =>
    obtain rfl : item = .struct outer := Option.some.inj hpath
    exact .inside hinner (.refl h inner)
  | cons i path ih =>
    cases item with
    | struct ref =>
      obtain ⟨next, hnext, hpath⟩ := Option.bind_eq_some_iff.1 hpath
      exact .inside (List.mem_of_getElem? hnext) (ih hpath)
    | _ => cases hpath

theorem Leads.reaches (hleads : h.Leads item ref) : h.Reaches [item] (.struct ref) := by
  obtain ⟨path, hpath⟩ := hleads
  exact reaches_of_follow hpath

/-- Paths are the same where the structs on them have not changed. -/
theorem follow_congr (hsame : ∀ ref, h.Leads item ref → k.list ref = h.list ref) (path : List Nat) :
    k.follow item path = h.follow item path := by
  induction path generalizing item with
  | nil => rw [follow_nil, follow_nil]
  | cons i path ih =>
    cases item with
    | struct ref =>
      rw [follow_struct, follow_struct, hsame ref (.refl h ref)]
      cases hinner : (h.list ref)[i]? with
      | none => rfl
      | some inner => exact ih fun other hother => hsame other (.inside (List.mem_of_getElem? hinner) hother)
    | _ => rfl

/-! ### New structs -/

/-- The heap was added to, and the structs in new lists are new. -/
structure Spreads (h k : Heap) : Prop extends h.KeptIn k where
  fresh : ∀ outer, h.lists.size ≤ outer → ∀ inner, k.Contains inner outer →
    h.lists.size ≤ inner ∧ inner < k.lists.size

theorem Spreads.refl (h : Heap) : h.Spreads h where
  toKeptIn := .refl h
  fresh outer houter inner hinner := by
    rw [Contains, list_of_le houter] at hinner
    cases hinner

theorem Spreads.newList {items : List Item} (hk : h.Spreads k)
    (hitems : ∀ inner, .struct inner ∈ items → h.lists.size ≤ inner ∧ inner < k.lists.size) :
    h.Spreads (k.newList items).2 where
  toKeptIn := hk.toKeptIn.trans (k.keptIn_newList items)
  fresh outer houter inner hinner := by
    have hgrows := (k.grows_newList items).lists
    rw [Contains, list_newList] at hinner
    obtain ⟨hlow, hhigh⟩ : h.lists.size ≤ inner ∧ inner < k.lists.size := by
      split at hinner
      · exact hitems inner hinner
      · exact hk.fresh outer houter inner hinner
    exact ⟨hlow, hhigh.trans_le hgrows⟩

/-- A new struct leads to new structs only. -/
theorem Spreads.leads (hk : h.Spreads k) (hitem : ∀ ref, item = .struct ref → h.lists.size ≤ ref ∧ ref < k.lists.size)
    (hleads : k.Leads item ref) : h.lists.size ≤ ref ∧ ref < k.lists.size :=
  hleads.of_closed (P := fun ref => h.lists.size ≤ ref ∧ ref < k.lists.size)
    (fun outer houter inner hinner => hk.fresh outer houter.1 inner hinner) hitem

end Heap

/-! ### Copies -/

/-- A struct made from a mark on for a struct, and otherwise the same item. -/
inductive Item.CopiedAs (mark : Nat) : Item → Item → Prop
  | struct {ref copy : Nat} (hcopy : mark ≤ copy) : CopiedAs mark (.struct ref) (.struct copy)
  | shared {item : Item} (hitem : ∀ ref, item ≠ .struct ref) : CopiedAs mark item item

theorem Item.CopiedAs.weaken {mark : Nat} {x y : Item} (hxy : Item.CopiedAs mark x y) : Item.CopiedAs 0 x y := by
  cases hxy with
  | struct _ => exact .struct (Nat.zero_le _)
  | shared hitem => exact .shared hitem

namespace Heap

variable {h k l : Heap} {item copy : Item} {path : List Nat} {ref : Nat}

/-- A copy of an item as it is on the one heap, made on the way to the other: if it is a struct, it is new, and along
every path there is a new struct where there was one, and otherwise what there was. -/
structure CopyOf (h k : Heap) (item copy : Item) : Prop where
  fresh : ∀ ref, copy = .struct ref → h.lists.size ≤ ref ∧ ref < k.lists.size
  follow : (∀ ref, h.Leads item ref → ref < h.lists.size) →
    ∀ path, Option.Rel (Item.CopiedAs h.lists.size) (h.follow item path) (k.follow copy path)

theorem copyOf_self (hitem : ∀ ref, item ≠ .struct ref) : h.CopyOf k item item where
  fresh ref href := absurd href (hitem ref)
  follow _ path := by
    cases path with
    | nil => exact .some (.shared hitem)
    | cons i path =>
      rw [follow_of_ne_struct hitem, follow_of_ne_struct hitem]
      exact .none

theorem CopyOf.mono (hcopy : h.CopyOf k item copy) (hk : h.Spreads k) (kl : k.KeptIn l) : h.CopyOf l item copy where
  fresh ref href := ⟨(hcopy.fresh ref href).1, (hcopy.fresh ref href).2.trans_le kl.lists⟩
  follow hitem path := by
    rw [follow_congr fun ref hleads => kl.list ref (hk.leads hcopy.fresh hleads).2]
    exact hcopy.follow hitem path

private theorem rel_getElem? {α β : Type} {R : α → β → Prop} {xs : List α} {ys : List β} (h : List.Forall₂ R xs ys) :
    ∀ i : Nat, Option.Rel R xs[i]? ys[i]? := by
  induction h with
  | nil => exact fun _ => .none
  | cons hxy _ ih =>
    intro i
    cases i with
    | zero => exact .some hxy
    | succ i => exact ih i

/-- A new struct of copies of the elements is a copy of the struct. -/
theorem CopyOf.newList {items copies : List Item} (hk : h.Spreads k) (hitems : ref < h.lists.size → items = h.list ref)
    (hcopies : List.Forall₂ (h.CopyOf k) items copies) :
    h.Spreads (k.newList copies).2 ∧ h.CopyOf (k.newList copies).2 (.struct ref) (.struct k.lists.size) := by
  have hspreads : h.Spreads (k.newList copies).2 := by
    have hfresh := forall_of_forall₂ (hcopies.imp fun _ _ hcopy => hcopy.fresh)
    exact hk.newList fun inner hinner => hfresh _ hinner inner rfl
  refine ⟨hspreads, ⟨?_, fun hleads path => ?_⟩⟩
  · rintro _ ⟨⟩
    exact ⟨hk.lists, by simp [Heap.newList]⟩
  · have hin : ref < h.lists.size := hleads ref (.refl h ref)
    cases path with
    | nil => exact .some (.struct hk.lists)
    | cons i path =>
      have hcopy := rel_getElem? hcopies i
      rw [hitems hin] at hcopy
      rw [follow_struct, follow_struct, list_newList, if_pos rfl]
      generalize copies[i]? = found at hcopy ⊢
      cases hinner : (h.list ref)[i]? with
      | none =>
        rw [hinner] at hcopy
        cases hcopy
        exact .none
      | some inner =>
        rw [hinner] at hcopy
        cases hcopy with
        | some hcopy =>
          refine (hcopy.mono hk (k.keptIn_newList copies)).follow (fun other hother => ?_) path
          exact hleads other (.inside (List.mem_of_getElem? hinner) hother)

/-- Copying adds to the heap, and what it makes are copies. -/
theorem copyLaw_copyOf (h : Heap) : CopyLaw h.Spreads KeptIn (fun _ _ => True) h.CopyOf where
  refl := .refl
  trans := .trans
  pre_mono _ := id
  post_mono hk kl hcopy := hcopy.mono hk kl
  shared hitem _ := copyOf_self hitem
  inside _ _ _ _ := trivial
  made hk _ hl _ hcopies := by
    obtain ⟨hspreads, hcopy⟩ := CopyOf.newList hl (fun hin => hk.list _ hin) hcopies
    exact ⟨hspreads, Heap.keptIn_newList _ _, hcopy⟩

theorem duplicate_copyOf (hrun : h.duplicate item = .ok (copy, k)) : h.Spreads k ∧ h.CopyOf k item copy := by
  obtain ⟨hspreads, -, hcopy⟩ := (copyLaw_copyOf h).of_duplicate (.refl h) trivial hrun
  exact ⟨hspreads, hcopy⟩

/-! ### What is on a heap that is only added to -/

theorem KeptIn.contents (hkept : h.KeptIn k) {cell : CellId} (hcell : h.Has cell) :
    k.contents cell = h.contents cell := by
  cases cell with
  | list ref => exact hkept.list ref hcell
  | map ref => exact congrArg Dictionary.items (hkept.map ref hcell)

/-- What can be reached from items that lead nowhere else stays what it was. -/
theorem KeptIn.reaches_iff {items : List Item} (hkept : h.KeptIn k) (hresolves : h.Resolves items) :
    k.Reaches items item ↔ h.Reaches items item := by
  constructor
  · intro hitem
    induction hitem with
    | root hitem => exact .root hitem
    | @inside outer other cell _ hcell hother ih =>
      have hcontents := hkept.contents (hresolves cell ⟨outer, ih, hcell⟩)
      exact .inside ih hcell (hcontents ▸ hother)
  · intro hitem
    induction hitem with
    | root hitem => exact .root hitem
    | @inside outer other cell houter hcell hother ih =>
      have hcontents := hkept.contents (hresolves cell ⟨outer, houter, hcell⟩)
      exact .inside ih hcell (hcontents.symm ▸ hother)

theorem KeptIn.resolves {items : List Item} (hkept : h.KeptIn k) (hresolves : h.Resolves items) : k.Resolves items := by
  rintro cell ⟨item, hitem, hcell⟩
  exact hkept.has (hresolves cell ⟨item, (hkept.reaches_iff hresolves).1 hitem, hcell⟩)

theorem KeptIn.acyclic {items : List Item} (hkept : h.KeptIn k) (hresolves : h.Resolves items)
    (hacyclic : h.Acyclic items) : k.Acyclic items := by
  intro ref href
  have hreach : h.Reaches items (.struct ref) := (hkept.reaches_iff hresolves).1 href
  have hacc : Acc h.Contains ref := hacyclic.acc hresolves ⟨_, hreach, rfl⟩
  refine not_transGen_of_acc (acc_of_contains (S := fun outer => h.Reaches items (.struct outer)) ?_ hacc hreach)
  intro outer houter inner hinner
  rw [Contains, hkept.list outer (hresolves (.list outer) ⟨_, houter, rfl⟩)] at hinner
  exact ⟨hinner, .inside houter rfl hinner⟩

/-- New structs cannot be reached from items that lead nowhere else. -/
theorem KeptIn.not_reachesCell {items : List Item} (hkept : h.KeptIn k) (hresolves : h.Resolves items)
    (href : h.lists.size ≤ ref) : ¬k.ReachesCell items (.list ref) := by
  rintro ⟨item, hitem, hcell⟩
  have hin : ref < h.lists.size := hresolves _ ⟨item, (hkept.reaches_iff hresolves).1 hitem, hcell⟩
  omega

theorem Resolves.leads (hresolves : h.Resolves [item]) (hleads : h.Leads item ref) : ref < h.lists.size :=
  hresolves (.list ref) ⟨_, hleads.reaches, rfl⟩

/-! ### Equality -/

section All

variable {α : Type} {f g : α → Option Bool} {xs : List α} {answer : Bool}

private theorem allM_cons_eq_some {x : α} (h : (x :: xs).allM f = some answer) :
    f x = some true ∧ xs.allM f = some answer ∨ f x = some false ∧ answer = false := by
  rw [List.allM] at h
  obtain ⟨first, hfirst, hrest⟩ := Option.bind_eq_some_iff.1 h
  cases first with
  | true => exact .inl ⟨hfirst, hrest⟩
  | false => exact .inr ⟨hfirst, (Option.some.inj hrest).symm⟩

/-- A check that holds of every member wherever it ends holds of all of them. -/
private theorem allM_true (hf : ∀ x ∈ xs, ∀ answer, f x = some answer → answer = true)
    (h : xs.allM f = some answer) : answer = true := by
  rcases Bounds.allM_cases f xs with ⟨hall, -⟩ | ⟨hall, x, hx, hno⟩ | ⟨hall, -⟩
  · rw [hall] at h
    cases h
  · cases hf x hx false hno
  · rw [hall] at h
    exact (Option.some.inj h).symm

/-- Another check that answers the same wherever the one ends answers the same of all. -/
private theorem allM_mono (hfg : ∀ x ∈ xs, ∀ answer, f x = some answer → g x = some answer)
    (h : xs.allM f = some answer) : xs.allM g = some answer := by
  induction xs with
  | nil => exact h
  | cons x xs ih =>
    rw [List.allM]
    rcases allM_cons_eq_some h with ⟨hfirst, hrest⟩ | ⟨hfirst, rfl⟩
    · rw [hfg x List.mem_cons_self true hfirst]
      exact ih (fun y hy => hfg y (List.mem_cons_of_mem x hy)) hrest
    · rw [hfg x List.mem_cons_self false hfirst]
      rfl

end All

section Equal

variable {x y a b : Item} {depth : Nat} {answer : Bool}

theorem equalWithin_struct_zero (h : Heap) (r s : Nat) :
    h.equalWithin 0 (.struct r) (.struct s) = if r = s then some true else none := rfl

theorem equalWithin_struct_succ (h : Heap) (depth r s : Nat) :
    h.equalWithin (depth + 1) (.struct r) (.struct s) =
      if r = s then some true
      else if (h.list r).length = (h.list s).length then
        ((h.list r).zip (h.list s)).allM fun (x, y) => h.equalWithin depth x y
      else some false := rfl

theorem equalWithin_of_not_structs (h : Heap) (depth : Nat) (hab : ∀ r s, a = .struct r → b ≠ .struct s) :
    h.equalWithin depth a b = some (a.sameAs b) := by
  cases depth <;> cases a <;> cases b <;> first | rfl | exact absurd rfl (hab _ _ rfl)

theorem sameAs_self (hitem : ∀ ref, item ≠ .struct ref) : item.sameAs item = true := by
  cases item with
  | struct ref => exact absurd rfl (hitem ref)
  | boolean value => cases value <;> rfl
  | _ => simp [Item.sameAs, Item.encoding?, Handle.same]

/-- Along every path the two items have structs in the same places, and otherwise the same items. -/
def Alike (h : Heap) (x y : Item) : Prop := ∀ path, Option.Rel (Item.CopiedAs 0) (h.follow x path) (h.follow y path)

theorem Alike.symm (hxy : h.Alike x y) : h.Alike y x := by
  intro path
  have hpath := hxy path
  generalize h.follow x path = first at hpath ⊢
  generalize h.follow y path = second at hpath ⊢
  cases hpath with
  | none => exact .none
  | some hcopied =>
    cases hcopied with
    | struct _ => exact .some (.struct (Nat.zero_le _))
    | shared hitem => exact .some (.shared hitem)

/-- The items themselves are structs both, or the same. -/
theorem Alike.root (hxy : h.Alike x y) : Item.CopiedAs 0 x y := by
  have hroot := hxy []
  rw [follow_nil, follow_nil] at hroot
  cases hroot with
  | some hroot => exact hroot

theorem length_eq_of_rel {α : Type} {R : α → α → Prop} {xs ys : List α}
    (h : ∀ i : Nat, Option.Rel R xs[i]? ys[i]?) : xs.length = ys.length := by
  rcases Nat.lt_trichotomy xs.length ys.length with hlt | heq | hlt
  · have hend := h xs.length
    rw [List.getElem?_eq_none (Nat.le_refl _), List.getElem?_eq_getElem hlt] at hend
    cases hend
  · exact heq
  · have hend := h ys.length
    rw [List.getElem?_eq_none (Nat.le_refl _), List.getElem?_eq_getElem hlt] at hend
    cases hend

/-- Items that are alike are equal wherever comparing them ends. -/
theorem Alike.equalWithin (hxy : h.Alike x y) (hrun : h.equalWithin depth x y = some answer) : answer = true := by
  induction depth generalizing x y answer with
  | zero =>
    cases hxy.root with
    | struct _ =>
      rw [equalWithin_struct_zero] at hrun
      split at hrun <;> cases hrun
      rfl
    | shared hitem =>
      rw [equalWithin_of_not_structs h 0 fun r s hr _ => hitem r hr, sameAs_self hitem] at hrun
      exact (Option.some.inj hrun).symm
  | succ depth ih =>
    cases hxy.root with
    | @struct r s _ =>
      rw [equalWithin_struct_succ] at hrun
      split at hrun
      · exact (Option.some.inj hrun).symm
      · have hlength : (h.list r).length = (h.list s).length := by
          refine length_eq_of_rel (R := Item.CopiedAs 0) fun i => ?_
          simpa [follow_struct] using hxy [i]
        rw [if_pos hlength] at hrun
        refine allM_true (fun (first, second) hmem answer hanswer => ?_) hrun
        obtain ⟨i, hi⟩ := List.mem_iff_getElem?.1 hmem
        obtain ⟨hfirst, hsecond⟩ := List.getElem?_zip_eq_some.1 hi
        refine ih (fun path => ?_) hanswer
        have hpath := hxy (i :: path)
        rwa [follow_struct, follow_struct, hfirst, hsecond] at hpath
    | shared hitem =>
      rw [equalWithin_of_not_structs h _ fun r s hr _ => hitem r hr, sameAs_self hitem] at hrun
      exact (Option.some.inj hrun).symm

/-- Comparing goes the same way on a heap that was only added to, and ends there if it did. -/
theorem KeptIn.equalWithin (hkept : h.KeptIn k) (depth : Nat) : ∀ (a b : Item) (more : Nat) (answer : Bool),
    (∀ ref, h.Leads a ref → ref < h.lists.size) → (∀ ref, h.Leads b ref → ref < h.lists.size) → depth ≤ more →
    h.equalWithin depth a b = some answer → k.equalWithin more a b = some answer := by
  induction depth with
  | zero =>
    intro a b more answer ha hb hmore hrun
    by_cases hab : ∀ r s, a = .struct r → b ≠ .struct s
    · rw [equalWithin_of_not_structs h 0 hab] at hrun
      rw [equalWithin_of_not_structs k more hab, hrun]
    · push Not at hab
      obtain ⟨r, s, rfl, rfl⟩ := hab
      rw [equalWithin_struct_zero] at hrun
      split at hrun
      · rename_i hsame
        cases more with
        | zero => rw [equalWithin_struct_zero, if_pos hsame, hrun]
        | succ more => rw [equalWithin_struct_succ, if_pos hsame, hrun]
      · cases hrun
  | succ depth ih =>
    intro a b more answer ha hb hmore hrun
    by_cases hab : ∀ r s, a = .struct r → b ≠ .struct s
    · rw [equalWithin_of_not_structs h _ hab] at hrun
      rw [equalWithin_of_not_structs k more hab, hrun]
    · push Not at hab
      obtain ⟨r, s, rfl, rfl⟩ := hab
      obtain ⟨more, rfl⟩ : ∃ n, more = n + 1 := ⟨more - 1, by omega⟩
      rw [equalWithin_struct_succ] at hrun ⊢
      rw [hkept.list r (ha r (.refl h r)), hkept.list s (hb s (.refl h s))]
      split at hrun
      · rename_i hsame
        rw [if_pos hsame, hrun]
      · rename_i hne
        rw [if_neg hne]
        split at hrun
        · rename_i hlength
          rw [if_pos hlength]
          refine allM_mono (fun (first, second) hmem answer hanswer => ?_) hrun
          obtain ⟨hfirst, hsecond⟩ := List.of_mem_zip hmem
          exact ih first second more answer (fun ref hleads => ha ref (.inside hfirst hleads))
            (fun ref hleads => hb ref (.inside hsecond hleads)) (Nat.le_of_succ_le_succ hmore) hanswer
        · rename_i hlength
          rw [if_neg hlength, hrun]

/-- Items that lead nowhere else stay equal, or not equal, on a heap that is only added to. -/
theorem KeptIn.equal (hkept : h.KeptIn k) (ha : h.Resolves [a]) (hb : h.Resolves [b])
    (hrun : h.equal a b = .ok answer) : k.equal a b = .ok answer := by
  unfold Heap.equal at hrun ⊢
  split at hrun
  · rename_i found hfound
    cases hrun
    have hmore : h.lists.size * h.lists.size ≤ k.lists.size * k.lists.size := Nat.mul_le_mul hkept.lists hkept.lists
    rw [hkept.equalWithin _ a b _ _ (fun _ => ha.leads) (fun _ => hb.leads) hmore hfound]
  · cases hrun

end Equal

/-! ### A copy beside the original -/

/-- A copy is alike to its original. -/
theorem CopyOf.alike (hk : h.Spreads k) (hcopy : h.CopyOf k item copy) (hresolves : h.Resolves [item]) :
    k.Alike item copy := by
  intro path
  rw [follow_congr fun ref hleads => hk.list ref (hresolves.leads hleads)]
  have hpath := hcopy.follow (fun _ => hresolves.leads) path
  generalize h.follow item path = first at hpath ⊢
  generalize k.follow copy path = second at hpath ⊢
  cases hpath with
  | none => exact .none
  | some hcopied => exact .some hcopied.weaken

/-- Where structs do not contain themselves, there is a copy of every item, equal to it. -/
theorem exists_copy (hresolves : h.Resolves [item]) (hacyclic : h.Acyclic [item]) :
    ∃ copy k, h.duplicate item = .ok (copy, k) ∧ h.Spreads k ∧ h.CopyOf k item copy ∧
      k.equal item copy = .ok true ∧ k.equal copy item = .ok true := by
  have hgiven : (Bounds.loose True).HoldsGiven h [item] := Bounds.holdsGiven_loose hresolves fun _ => hacyclic
  have hheap := hgiven.holdsHeap trivial
  have hitem := hgiven.holds (.root (List.mem_singleton.2 rfl))
  obtain ⟨copy, k, hrun⟩ := hheap.duplicate_ends trivial hitem
  obtain ⟨hcopied, hcopy, -⟩ := hheap.duplicate hitem hrun
  obtain ⟨hspreads, hcopyOf⟩ := duplicate_copyOf hrun
  have halike := hcopyOf.alike hspreads hresolves
  -- comparing ends on the heap with the copy, and copies being alike it cannot end in no
  have hequal {x y : Item} (hx : ((Bounds.loose True).given h [item]).Holds k x) (hxy : k.Alike x y) :
      k.equal x y = .ok true := by
    obtain ⟨answer, hanswer⟩ := hcopied.holds.equal_ends trivial hx y
    rw [hanswer]
    unfold Heap.equal at hanswer
    split at hanswer
    · rename_i found hfound
      cases hanswer
      rw [hxy.equalWithin hfound]
    · cases hanswer
  exact ⟨copy, k, hrun, hspreads, hcopyOf, hequal (hitem.mono hcopied.grows) halike, hequal hcopy halike.symm⟩

end Heap

end LedgerVM
