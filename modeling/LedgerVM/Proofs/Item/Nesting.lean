import LedgerVM.Proofs.Item.Reach
import Mathlib.Data.Fintype.Card
import Mathlib.Data.Fintype.EquivFin
import Mathlib.Logic.Relation
import Mathlib.Order.WellFounded

/-!
# Structs in structs

Copying and comparing follow structs into the structs in them, and arrays and maps no further.  They end if no struct
contains itself through structs alone (`Heap.Acyclic`).  A new list is in no other one, so making it closes no cycle;
and storing a copy of a struct closes none, for the copy leads to structs of its own only (`Heap.Sealed`).
-/

namespace LedgerVM

/-- The item is a struct only if it is one of those made from `mark` on. -/
def Item.Above (mark : Nat) (item : Item) : Prop := ∀ ref, item = .struct ref → mark ≤ ref

namespace Heap

/-- A struct is an element of a list. -/
def Contains (h : Heap) (inner outer : Nat) : Prop := Item.struct inner ∈ h.list outer

/-- No struct that can be reached contains itself through structs alone. -/
def Acyclic (h : Heap) (items : List Item) : Prop :=
  ∀ ref, h.Reaches items (.struct ref) → ¬Relation.TransGen h.Contains ref ref

/-- The lists made from `mark` on have only such structs in them. -/
def Sealed (h : Heap) (mark : Nat) : Prop := ∀ outer, mark ≤ outer → ∀ item ∈ h.list outer, item.Above mark

/-- One struct in another, from the item on. -/
inductive Descends (h : Heap) : List Nat → Item → Prop
  | here (ref : Nat) : Descends h [ref] (.struct ref)
  | inside {ref : Nat} {path : List Nat} {inner : Item} (hinner : inner ∈ h.list ref) (hpath : Descends h path inner) :
      Descends h (ref :: path) (.struct ref)

variable {h k : Heap} {items : List Item} {ref : Nat}

/-- There is nothing in lists that are yet to be made. -/
theorem sealed_size (h : Heap) : h.Sealed h.lists.size := by
  intro outer houter item hitem
  rw [list_of_le houter] at hitem
  cases hitem

theorem Sealed.newList {mark : Nat} (hsealed : h.Sealed mark) (hitems : ∀ item ∈ items, item.Above mark) :
    (h.newList items).2.Sealed mark := by
  intro outer houter item hitem
  rw [list_newList] at hitem
  split at hitem
  · exact hitems item hitem
  · exact hsealed outer houter item hitem

theorem Acyclic.mono {others : List Item} (hacyclic : h.Acyclic items) (hsub : ∀ item ∈ others, item ∈ items) :
    h.Acyclic others := fun ref href => hacyclic ref (href.mono hsub)

theorem not_transGen_of_acc (hacc : Acc h.Contains ref) : ¬Relation.TransGen h.Contains ref ref := by
  have hends := hacc.transGen
  clear hacc
  induction hends with
  | intro outer _ ih => exact fun hcycle => ih outer hcycle hcycle

/-- Where a list holds nothing that it did not hold, nor do the lists in it, nesting ends as it did. -/
theorem acc_of_contains {S : Nat → Prop}
    (hsame : ∀ outer, S outer → ∀ inner, k.Contains inner outer → h.Contains inner outer ∧ S inner)
    (hacc : Acc h.Contains ref) (href : S ref) : Acc k.Contains ref := by
  induction hacc with
  | intro outer _ ih =>
    refine .intro outer fun inner hinner => ?_
    obtain ⟨hold, hS⟩ := hsame outer href inner hinner
    exact ih inner hold hS

/-- What is stored into a list besides its own elements may be structs made from `mark` on, of which the list is not
one. -/
theorem acc_setList {target mark : Nat} (hsealed : h.Sealed mark) (htarget : target < mark)
    (hitems : ∀ inner, .struct inner ∈ items → h.Contains inner target ∨ mark ≤ inner ∧ Acc h.Contains inner)
    (hacc : Acc h.Contains ref) : Acc (h.setList target items).Contains ref := by
  have habove {inner : Nat} (hmark : mark ≤ inner) (hacc : Acc h.Contains inner) :
      Acc (h.setList target items).Contains inner := by
    refine acc_of_contains (S := (mark ≤ ·)) (fun outer houter inner hinner => ?_) hacc hmark
    unfold Contains at hinner ⊢
    rw [h.list_setList_ne items (by omega)] at hinner
    exact ⟨hinner, hsealed outer houter _ hinner inner rfl⟩
  induction hacc with
  | intro outer _ ih =>
    refine .intro outer fun inner hinner => ?_
    unfold Contains at hinner
    rw [h.list_setList] at hinner
    split at hinner
    · rename_i hsame
      obtain ⟨rfl, -⟩ := hsame
      rcases hitems inner hinner with hold | ⟨hmark, hnew⟩
      · exact ih inner hold
      · exact habove hmark hnew
    · exact ih inner hinner

/-- No struct contains itself if structs in a list rank below it. -/
theorem acyclic_of_rank (rank : Nat → Nat)
    (hrank : ∀ inner outer, h.Contains inner outer → rank inner < rank outer) : h.Acyclic items := by
  intro ref _ hcycle
  have hbelow {inner outer : Nat} (hpath : Relation.TransGen h.Contains inner outer) : rank inner < rank outer := by
    induction hpath with
    | single hinner => exact hrank _ _ hinner
    | tail _ hinner ih => exact ih.trans (hrank _ _ hinner)
  exact Nat.lt_irrefl _ (hbelow hcycle)

/-! ### Paths of structs -/

theorem Descends.transGen {path : List Nat} {item : Item} (hpath : h.Descends path item) :
    ∃ ref rest, path = ref :: rest ∧ item = .struct ref ∧ ∀ inner ∈ rest, Relation.TransGen h.Contains inner ref := by
  induction hpath with
  | here ref => exact ⟨ref, [], rfl, rfl, by simp⟩
  | @inside ref path inner hinner _ ih =>
    obtain ⟨first, rest, rfl, rfl, hbelow⟩ := ih
    refine ⟨ref, first :: rest, rfl, rfl, fun other hother => ?_⟩
    rcases List.mem_cons.1 hother with rfl | hother
    · exact .single hinner
    · exact .tail (hbelow other hother) hinner

/-- A path of structs that is not longer than there are lists, if no list is on it twice. -/
theorem Descends.length_le {path : List Nat} {item : Item} {P : Item → Prop}
    (hP : ∀ ref, P (.struct ref) → ref < h.lists.size ∧ Acc h.Contains ref ∧ ∀ inner ∈ h.list ref, P inner)
    (hpath : h.Descends path item) (hitem : P item) : path.length ≤ h.lists.size := by
  have hgood : path.Nodup ∧ ∀ ref ∈ path, ref < h.lists.size := by
    induction hpath with
    | here ref =>
      refine ⟨List.nodup_singleton ref, fun other hother => ?_⟩
      rw [List.mem_singleton.1 hother]
      exact (hP ref hitem).1
    | @inside ref path inner hinner hpath ih =>
      obtain ⟨hin, hacc, hinside⟩ := hP ref hitem
      obtain ⟨hnodup, hall⟩ := ih (hinside inner hinner)
      obtain ⟨first, rest, hpaths, hfirst, hbelow⟩ := (Descends.inside hinner hpath).transGen
      cases hfirst
      cases hpaths
      constructor
      · refine List.nodup_cons.2 ⟨fun hagain => ?_, hnodup⟩
        exact not_transGen_of_acc hacc (hbelow ref hagain)
      · intro other hother
        rcases List.mem_cons.1 hother with rfl | hother
        · exact hin
        · exact hall other hother
  calc path.length
      = path.toFinset.card := (List.toFinset_card_of_nodup hgood.1).symm
    _ ≤ (Finset.range h.lists.size).card := by
        refine Finset.card_le_card fun other hother => ?_
        exact Finset.mem_range.2 (hgood.2 other (List.mem_toFinset.1 hother))
    _ = h.lists.size := Finset.card_range _

/-! ### From acyclic to well-founded -/

/-- There are finitely many lists, so where none that can be reached contains itself, nesting ends. -/
theorem Acyclic.acc (hacyclic : h.Acyclic items) (hresolves : h.Resolves items)
    (href : h.ReachesCell items (.list ref)) : Acc h.Contains ref := by
  -- on the structs that can be reached, the order of nesting is one of finitely many elements
  let Struct := { inner : Fin h.lists.size // h.Reaches items (.struct inner) }
  let below (inner outer : Struct) : Prop := Relation.TransGen h.Contains inner.1 outer.1
  have : IsTrans Struct below := ⟨fun a b c hab hbc => Relation.TransGen.trans hab hbc⟩
  have : Std.Irrefl below := ⟨fun a hcycle => hacyclic a.1 a.2 hcycle⟩
  have hwf : WellFounded below := Finite.wellFounded_of_trans_of_irrefl below
  have hstruct (outer : Struct) : Acc h.Contains outer.1 := by
    induction outer using hwf.induction with
    | _ outer ih =>
      refine .intro _ fun inner hinner => ?_
      have hreach : h.Reaches items (.struct inner) := .inside outer.2 rfl hinner
      exact ih ⟨⟨inner, hresolves _ ⟨_, hreach, rfl⟩⟩, hreach⟩ (.single hinner)
  refine .intro ref fun inner hinner => ?_
  obtain ⟨item, hitem, hcell⟩ := href
  have hreach : h.Reaches items (.struct inner) := .inside hitem hcell hinner
  exact hstruct ⟨⟨inner, hresolves _ ⟨_, hreach, rfl⟩⟩, hreach⟩

end Heap
end LedgerVM
