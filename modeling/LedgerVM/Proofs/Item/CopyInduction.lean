import LedgerVM.Item.Copy
import Mathlib.Data.List.Forall2

/-!
# Induction along copying

Copying walks through the structs of an item, depth first, and makes a new list for each of them once the copies of its
elements are there.  What holds of every copy is shown by what holds of one new list of copies (`CopyLaw`).
-/

namespace LedgerVM.Heap

variable {I : Heap → Prop} {R : Heap → Heap → Prop} {pre : Heap → Item → Prop} {post : Heap → Item → Item → Prop}
  {h k : Heap} {item copy : Item}

/-- Copying an item of which `pre` holds keeps to `I` and leads along `R`, and `post` holds of the item and the copy.
That this is so follows from the cases in which no struct is copied, or the elements of a struct have been. -/
structure CopyLaw (I : Heap → Prop) (R : Heap → Heap → Prop) (pre : Heap → Item → Prop)
    (post : Heap → Item → Item → Prop) : Prop where
  refl : ∀ h, R h h
  trans : ∀ {h k l}, R h k → R k l → R h l
  pre_mono : ∀ {h k item}, R h k → pre h item → pre k item
  post_mono : ∀ {h k item copy}, I h → R h k → post h item copy → post k item copy
  shared : ∀ {h item}, (∀ ref, item ≠ .struct ref) → pre h item → post h item item
  inside : ∀ {h ref}, I h → pre h (.struct ref) → ∀ item ∈ h.list ref, pre h item
  made : ∀ {h k ref copies}, I h → pre h (.struct ref) → I k → R h k → List.Forall₂ (post k) (h.list ref) copies →
    I (k.newList copies).2 ∧ R k (k.newList copies).2 ∧ post (k.newList copies).2 (.struct ref) (.struct k.lists.size)

theorem forall_of_forall₂ {α β : Type} {P : β → Prop} {xs : List α} {ys : List β}
    (h : List.Forall₂ (fun _ y => P y) xs ys) : ∀ y ∈ ys, P y := by
  induction h with
  | nil => simp
  | cons hy _ ih => exact List.forall_mem_cons.2 ⟨hy, ih⟩

namespace CopyLaw

variable (hlaw : CopyLaw I R pre post)
include hlaw

private theorem of_mapM {f : Item → StateT Heap Option Item}
    (hf : ∀ item h copy k, I h → pre h item → f item h = some (copy, k) → I k ∧ R h k ∧ post k item copy) :
    ∀ (items : List Item) (h : Heap) (copies : List Item) (k : Heap), I h → (∀ item ∈ items, pre h item) →
      items.mapM f h = some (copies, k) → I k ∧ R h k ∧ List.Forall₂ (post k) items copies := by
  intro items
  induction items with
  | nil =>
    intro h copies k hI _ hrun
    cases hrun
    exact ⟨hI, hlaw.refl h, .nil⟩
  | cons item items ih =>
    intro h copies k hI hitems hrun
    rw [List.mapM_cons] at hrun
    obtain ⟨⟨copy, h₁⟩, hfirst, hrun⟩ := Option.bind_eq_some_iff.1 hrun
    obtain ⟨⟨rest, k'⟩, hrest, hrun⟩ := Option.bind_eq_some_iff.1 hrun
    cases hrun
    obtain ⟨hitem, hothers⟩ := List.forall_mem_cons.1 hitems
    obtain ⟨hI₁, hR₁, hcopy⟩ := hf item h copy h₁ hI hitem hfirst
    obtain ⟨hIk, hRk, hcopies⟩ := ih h₁ rest k hI₁ (fun other hother => hlaw.pre_mono hR₁ (hothers other hother)) hrest
    exact ⟨hIk, hlaw.trans hR₁ hRk, .cons (hlaw.post_mono hI₁ hRk hcopy) hcopies⟩

theorem of_copyWithin (depth : Nat) : ∀ item h copy k, I h → pre h item → copyWithin depth item h = some (copy, k) →
    I k ∧ R h k ∧ post k item copy := by
  induction depth with
  | zero =>
    intro item h copy k hI hitem hrun
    cases item with
    | struct ref => cases hrun
    | _ =>
      cases hrun
      exact ⟨hI, hlaw.refl h, hlaw.shared nofun hitem⟩
  | succ depth ih =>
    intro item h copy k hI hitem hrun
    cases item with
    | struct ref =>
      obtain ⟨⟨copies, k'⟩, hcopies, hrun⟩ := Option.bind_eq_some_iff.1 hrun
      cases hrun
      obtain ⟨hI', hR', hall⟩ := hlaw.of_mapM ih _ h copies k' hI (hlaw.inside hI hitem) hcopies
      obtain ⟨hInew, hRnew, hnew⟩ := hlaw.made hI hitem hI' hR' hall
      exact ⟨hInew, hlaw.trans hR' hRnew, hnew⟩
    | _ =>
      cases hrun
      exact ⟨hI, hlaw.refl h, hlaw.shared nofun hitem⟩

theorem of_duplicate (hI : I h) (hitem : pre h item) (hrun : h.duplicate item = .ok (copy, k)) :
    I k ∧ R h k ∧ post k item copy := by
  unfold duplicate at hrun
  split at hrun
  · rename_i result hresult
    cases hrun
    exact hlaw.of_copyWithin h.lists.size item h copy k hI hitem hresult
  · cases hrun

end CopyLaw
end LedgerVM.Heap
