import LedgerVM.Proofs.Item.Copy
import LedgerVM.Proofs.Item.Tally
import Mathlib.Algebra.BigOperators.Ring.Finset

/-!
# How large copies are

The count of items takes a struct once, however often it is referred to.  A copy has the struct once for every path on
which it is found.  So a copy may count for more than its original, but not for more than as many times as there are
ways to one and the same collection.

* `Heap.Way`, `Heap.AliasedWithin`: in how many ways an item leads to a collection.
* `Heap.AliasedWithin.struct`: a struct has the ways of all of its elements, so they multiply from level to level.
* `Heap.CopyOf.countItems_le`: how much a copy counts for.
-/

namespace LedgerVM

namespace Heap

variable {h k l : Heap} {item copy other : Item} {cell source : CellId} {way : Option (List Nat)}

/-! ### Ways to a collection -/

/-- The item has the other one in common with its copies: structs lead to something that is not a struct, and this leads
to the other item. -/
def Shares (h : Heap) (item other : Item) : Prop :=
  ∃ path inner, h.follow item path = some inner ∧ (∀ ref, inner ≠ .struct ref) ∧ h.Reaches [inner] other

/-- The ways in which an item leads to a collection.  Each path through structs is one, and a copy has a struct of its
own for it.  All that go through arrays and maps are one together, for what is there is shared with copies. -/
inductive Way (h : Heap) (item : Item) : CellId → Option (List Nat) → Prop
  | path {path : List Nat} {ref : Nat} (hpath : h.follow item path = some (.struct ref)) :
      Way h item (.list ref) (some path)
  | shared {other : Item} {cell : CellId} (hother : h.Shares item other) (hcell : other.cell? = some cell) :
      Way h item cell none

/-- There are at most so many ways from the item to each collection. -/
def AliasedWithin (h : Heap) (ways : Nat) (item : Item) : Prop :=
  ∀ cell (found : Finset (Option (List Nat))), (∀ way ∈ found, h.Way item cell way) → found.card ≤ ways

theorem Shares.reaches (hother : h.Shares item other) : h.Reaches [item] other := by
  obtain ⟨path, inner, hpath, -, hother⟩ := hother
  exact (reaches_of_follow hpath).onward hother

theorem Shares.inside {last : Item} (hother : h.Shares item other) (hcell : other.cell? = some cell)
    (hlast : last ∈ h.contents cell) : h.Shares item last := by
  obtain ⟨path, inner, hpath, hinner, hother⟩ := hother
  exact ⟨path, inner, hpath, hinner, .inside hother hcell hlast⟩

theorem Way.reachesCell (hway : h.Way item cell way) : h.ReachesCell [item] cell := by
  cases hway with
  | path hpath => exact ⟨_, reaches_of_follow hpath, rfl⟩
  | shared hother hcell => exact ⟨_, hother.reaches, hcell⟩

/-- An item that is not a collection leads to none. -/
theorem not_way_of_leaf (hitem : item.cell? = none) : ¬h.Way item cell way := by
  intro hway
  obtain ⟨other, hother, hcell⟩ := hway.reachesCell
  have hleaf : other.cell? = none := by
    clear hcell
    induction hother with
    | root hother => rw [List.mem_singleton.1 hother, hitem]
    | inside _ hcell _ ih => cases ih.symm.trans hcell
  cases hleaf.symm.trans hcell

theorem aliasedWithin_of_leaf (hitem : item.cell? = none) : h.AliasedWithin 0 item := by
  intro cell found hfound
  refine (Finset.card_eq_zero.2 (Finset.eq_empty_of_forall_notMem fun way hway => ?_)).le
  exact not_way_of_leaf hitem (hfound way hway)

/-- A way from a struct is to end there, or to go on from one of its elements. -/
theorem Way.of_struct {ref : Nat} (hway : h.Way (.struct ref) cell way) :
    cell = .list ref ∧ way = some [] ∨
      ∃ i item next, (h.list ref)[i]? = some item ∧ h.Way item cell next ∧ way = next.map (i :: ·) := by
  cases hway with
  | @path path other hpath =>
    cases path with
    | nil =>
      cases hpath
      exact .inl ⟨rfl, rfl⟩
    | cons i path =>
      obtain ⟨item, hitem, hpath⟩ := Option.bind_eq_some_iff.1 hpath
      exact .inr ⟨i, item, some path, hitem, .path hpath, rfl⟩
  | shared hother hcell =>
    obtain ⟨path, inner, hpath, hinner, hother⟩ := hother
    cases path with
    | nil => exact absurd (Option.some.inj hpath).symm (hinner ref)
    | cons i path =>
      obtain ⟨item, hitem, hpath⟩ := Option.bind_eq_some_iff.1 hpath
      exact .inr ⟨i, item, none, hitem, .shared ⟨path, inner, hpath, hinner, hother⟩ hcell, rfl⟩

/-- In a struct to which its elements do not lead back, the ways are those of all elements taken together. -/
theorem AliasedWithin.struct {ways ref : Nat} (hback : ∀ item ∈ h.list ref, ∀ way, ¬h.Way item (.list ref) way)
    (hitems : ∀ item ∈ h.list ref, h.AliasedWithin ways item) :
    h.AliasedWithin (max 1 ((h.list ref).length * ways)) (.struct ref) := by
  classical
  intro cell found hfound
  by_cases hcell : cell = .list ref
  · have hsub : found ⊆ {some []} := fun way hway => by
      rcases (hfound way hway).of_struct with ⟨-, hhere⟩ | ⟨i, item, next, hitem, hnext, -⟩
      · exact Finset.mem_singleton.2 hhere
      · exact absurd (hcell ▸ hnext) (hback item (List.mem_of_getElem? hitem) next)
    exact ((Finset.card_le_card hsub).trans_eq (Finset.card_singleton _)).trans (Nat.le_max_left _ _)
  · -- sort the ways by the element that they go through first
    let through (i : Nat) : Finset (Option (List Nat)) :=
      {next ∈ found.image (Option.map List.tail) | ∃ item, (h.list ref)[i]? = some item ∧ h.Way item cell next}
    have hsub : found ⊆ (Finset.range (h.list ref).length).biUnion fun i =>
        (through i).image (Option.map (i :: ·)) := fun way hway => by
      rcases (hfound way hway).of_struct with ⟨hhere, -⟩ | ⟨i, item, next, hitem, hnext, rfl⟩
      · exact absurd hhere hcell
      · have htail : next = (next.map (i :: ·)).map List.tail := by cases next <;> rfl
        refine Finset.mem_biUnion.2 ⟨i, Finset.mem_range.2 (List.getElem?_eq_some_iff.1 hitem).1, ?_⟩
        refine Finset.mem_image_of_mem _ (Finset.mem_filter.2 ⟨?_, item, hitem, hnext⟩)
        rw [htail]
        exact Finset.mem_image_of_mem _ hway
    have hthrough : ∀ i ∈ Finset.range (h.list ref).length, ((through i).image (Option.map (i :: ·))).card ≤ ways := by
      intro i hi
      have hitem := List.getElem?_eq_getElem (Finset.mem_range.1 hi)
      refine Finset.card_image_le.trans (hitems _ (List.mem_of_getElem? hitem) cell _ fun next hnext => ?_)
      obtain ⟨-, item, hsame, hnext⟩ := Finset.mem_filter.1 hnext
      cases hitem.symm.trans hsame
      exact hnext
    calc found.card
        ≤ ((Finset.range (h.list ref).length).biUnion fun i => (through i).image (Option.map (i :: ·))).card :=
          Finset.card_le_card hsub
      _ ≤ (Finset.range (h.list ref).length).card * ways := Finset.card_biUnion_le_card_mul _ _ _ hthrough
      _ = (h.list ref).length * ways := by rw [Finset.card_range]
      _ ≤ max 1 ((h.list ref).length * ways) := Nat.le_max_right _ _

/-- A struct in which there are no collections is the only collection, and there is one way to it. -/
theorem aliasedWithin_of_leaves {ref : Nat} (hleaves : ∀ item ∈ h.list ref, item.cell? = none) :
    h.AliasedWithin 1 (.struct ref) := by
  have hends := AliasedWithin.struct (fun item hitem _ => not_way_of_leaf (hleaves item hitem))
    fun item hitem => aliasedWithin_of_leaf (hleaves item hitem)
  rwa [Nat.mul_zero] at hends

/-! ### Where the collections of a copy come from -/

/-- The item is a struct made for the copy, where the original has one on the same path, or in common with the
original. -/
def CopiedOrShared (h l : Heap) (item copy other : Item) : Prop :=
  (∃ path ref made, h.follow item path = some (.struct ref) ∧ l.follow copy path = some (.struct made) ∧
    other = .struct made) ∨ h.Shares item other

/-- A collection that a copy leads to, the one of the original that it comes from, and the way to that one. -/
inductive Stems (h l : Heap) (item copy : Item) : CellId → CellId → Option (List Nat) → Prop
  | copied {path : List Nat} {ref made : Nat} (hitem : h.follow item path = some (.struct ref))
      (hcopy : l.follow copy path = some (.struct made)) : Stems h l item copy (.list made) (.list ref) (some path)
  | shared {other : Item} {cell : CellId} (hother : h.Shares item other) (hcell : other.cell? = some cell) :
      Stems h l item copy cell cell none

theorem Stems.toWay (hcell : h.Stems l item copy cell source way) : h.Way item source way := by
  cases hcell with
  | copied hitem _ => exact .path hitem
  | shared hother hcell => exact .shared hother hcell

/-- A way leads to one collection in the copy. -/
theorem Stems.unique {cell' : CellId} (hcell : h.Stems l item copy cell source way)
    (hcell' : h.Stems l item copy cell' source way) : cell = cell' := by
  cases hcell with
  | copied _ hcopy =>
    cases hcell' with
    | copied _ hcopy' =>
      cases hcopy.symm.trans hcopy'
      rfl
  | shared _ _ =>
    cases hcell'
    rfl

section Copied

variable (hl : h.Spreads l) (hcopy : h.CopyOf l item copy) (hresolves : h.Resolves [item])
include hcopy hresolves

theorem CopyOf.at_end {path : List Nat} (hpath : l.follow copy path = some other) :
    h.CopiedOrShared l item copy other := by
  have hrel := hcopy.follow (fun _ => hresolves.leads) path
  rw [hpath] at hrel
  generalize hitem : h.follow item path = first at hrel
  cases hrel with
  | some hcopied =>
    cases hcopied with
    | @struct ref made _ => exact .inl ⟨path, ref, made, hitem, hpath, rfl⟩
    | shared hother => exact .inr ⟨path, other, hitem, hother, .root (List.mem_singleton.2 rfl)⟩

include hl

theorem CopyOf.of_reaches (hother : l.Reaches [copy] other) : h.CopiedOrShared l item copy other := by
  induction hother with
  | root hother =>
    rw [List.mem_singleton.1 hother]
    exact hcopy.at_end hresolves (l.follow_nil copy)
  | @inside outer last cell _ hcell hlast ih =>
    rcases ih with ⟨path, ref, made, -, hpath, rfl⟩ | hshared
    · -- one step further on the path
      cases hcell
      obtain ⟨i, hi⟩ := List.mem_iff_getElem?.1 hlast
      have hnext : l.follow copy (path ++ [i]) = some last := by
        rw [follow_append, hpath, Option.bind_some, follow_struct, ← contents, hi, Option.bind_some, follow_nil]
      exact hcopy.at_end hresolves hnext
    · rw [hl.contents (hresolves cell ⟨outer, hshared.reaches, hcell⟩)] at hlast
      exact .inr (hshared.inside hcell hlast)

theorem CopyOf.stems (hcell : l.ReachesCell [copy] cell) : ∃ source way, h.Stems l item copy cell source way := by
  obtain ⟨other, hother, hcell⟩ := hcell
  rcases hcopy.of_reaches hl hresolves hother with ⟨path, ref, made, hitem, hpath, rfl⟩ | hshared
  · cases hcell
    exact ⟨.list ref, some path, .copied hitem hpath⟩
  · exact ⟨cell, none, .shared hshared hcell⟩

/-- A collection in a copy holds as much as the one that it comes from. -/
theorem Stems.weight_eq (hcell : h.Stems l item copy cell source way) : l.weight cell = h.weight source := by
  cases hcell with
  | @copied path ref made hitem hmade =>
    refine (length_eq_of_rel (R := Item.CopiedAs h.lists.size) fun i => ?_).symm
    have hnext := hcopy.follow (fun _ => hresolves.leads) (path ++ [i])
    simpa [follow_append, hitem, hmade, follow_struct] using hnext
  | shared hother hcell =>
    have hhas : h.Has cell := hresolves cell ⟨_, hother.reaches, hcell⟩
    rw [← length_contents, ← length_contents, hl.contents hhas]

theorem CopyOf.resolves : l.Resolves [copy] := by
  intro cell hcell
  obtain ⟨source, way, hstems⟩ := hcopy.stems hl hresolves hcell
  cases hstems with
  | copied _ hmade => exact (hl.leads hcopy.fresh ⟨_, hmade⟩).2
  | shared hother hcell => exact hl.has (hresolves cell ⟨_, hother.reaches, hcell⟩)

end Copied

/-! ### The count of a copy -/

/-- A sum that is split among the members of another one, each of which gets its own value at most so many times. -/
private theorem sum_le_of_card_fiber {α β : Type} [DecidableEq β] {s : Finset α} {t : Finset β} {f : α → β}
    {v : α → Nat} {w : β → Nat} {times : Nat} (hmaps : ∀ a ∈ s, f a ∈ t) (hvalue : ∀ a ∈ s, v a = w (f a))
    (hfiber : ∀ b ∈ t, {a ∈ s | f a = b}.card ≤ times) : ∑ a ∈ s, v a ≤ times * ∑ b ∈ t, w b :=
  calc ∑ a ∈ s, v a
      = ∑ b ∈ t, ∑ a ∈ s with f a = b, v a := (Finset.sum_fiberwise_of_maps_to hmaps v).symm
    _ = ∑ b ∈ t, {a ∈ s | f a = b}.card * w b := by
        refine Finset.sum_congr rfl fun b _ => Finset.sum_const_nat fun a ha => ?_
        obtain ⟨hin, rfl⟩ := Finset.mem_filter.1 ha
        exact hvalue a hin
    _ ≤ ∑ b ∈ t, times * w b := Finset.sum_le_sum fun b hb => Nat.mul_le_mul_right _ (hfiber b hb)
    _ = times * ∑ b ∈ t, w b := (Finset.mul_sum t w times).symm

/-- Collections that come from one and the same do so in different ways, so they are no more than there are ways. -/
theorem AliasedWithin.card_stems_le {ways : Nat} {cells : Finset CellId} {source : CellId → CellId}
    {way : CellId → Option (List Nat)} (haliased : h.AliasedWithin ways item)
    (hstems : ∀ cell ∈ cells, h.Stems l item copy cell (source cell) (way cell)) (other : CellId) :
    {cell ∈ cells | source cell = other}.card ≤ ways := by
  have hinjective : Set.InjOn way ({cell ∈ cells | source cell = other} : Finset CellId) := by
    intro cell hcell cell' hcell' hway
    obtain ⟨hin, hsource⟩ := Finset.mem_filter.1 hcell
    obtain ⟨hin', hsource'⟩ := Finset.mem_filter.1 hcell'
    have hstems' := hstems cell' hin'
    rw [hsource', ← hsource, ← hway] at hstems'
    exact (hstems cell hin).unique hstems'
  rw [← Finset.card_image_of_injOn hinjective]
  refine haliased other _ fun found hfound => ?_
  obtain ⟨cell, hcell, rfl⟩ := Finset.mem_image.1 hfound
  obtain ⟨hin, rfl⟩ := Finset.mem_filter.1 hcell
  exact (hstems cell hin).toWay

/-- A copy counts for at most as many times its original as there are ways from that to one collection. -/
theorem CopyOf.countItems_le {ways : Nat} (hl : h.Spreads l) (hcopy : h.CopyOf l item copy)
    (hresolves : h.Resolves [item]) (hsome : 0 < ways) (haliased : h.AliasedWithin ways item) :
    l.countItems [copy] ≤ ways * h.countItems [item] := by
  have hmade : l.Resolves [copy] := hcopy.resolves hl hresolves
  have hexists : ∀ cell, ∃ source way, cell ∈ l.reached [copy] → h.Stems l item copy cell source way := by
    intro cell
    by_cases hcell : cell ∈ l.reached [copy]
    · obtain ⟨source, way, hstems⟩ := hcopy.stems hl hresolves ((mem_reached hmade).1 hcell)
      exact ⟨source, way, fun _ => hstems⟩
    · exact ⟨cell, none, fun hin => absurd hin hcell⟩
  choose source way hstems using hexists
  have hsum : ∑ cell ∈ l.reached [copy], l.weight cell ≤ ways * ∑ cell ∈ h.reached [item], h.weight cell := by
    refine sum_le_of_card_fiber (f := source) (fun cell hcell => ?_) (fun cell hcell => ?_) fun other _ => ?_
    · exact (mem_reached hresolves).2 (hstems cell hcell).toWay.reachesCell
    · exact (hstems cell hcell).weight_eq hl hcopy hresolves
    · exact haliased.card_stems_le hstems other
  rw [countItems_eq hmade, countItems_eq hresolves, total, total, Nat.mul_add]
  exact Nat.add_le_add (Nat.le_mul_of_pos_left _ hsome) hsum

/-! ### Heaps that are only added to -/

/-- The count of items stays what it was. -/
theorem KeptIn.countItems_eq {items : List Item} (hkept : h.KeptIn k) (hresolves : h.Resolves items) :
    k.countItems items = h.countItems items := by
  have hk : k.Resolves items := hkept.resolves hresolves
  have hreached : k.reached items = h.reached items := by
    ext cell
    simp only [mem_reached hk, mem_reached hresolves, ReachesCell, hkept.reaches_iff hresolves]
  have hweight : ∀ cell ∈ h.reached items, k.weight cell = h.weight cell := fun cell hcell => by
    rw [← length_contents, ← length_contents, hkept.contents (hresolves cell ((mem_reached hresolves).1 hcell))]
  rw [Heap.countItems_eq hk, Heap.countItems_eq hresolves, total, total, hreached, Finset.sum_congr rfl hweight]

theorem KeptIn.follow (hkept : h.KeptIn k) (hresolves : h.Resolves [item]) (path : List Nat) :
    k.follow item path = h.follow item path :=
  follow_congr (fun ref hleads => hkept.list ref (hresolves.leads hleads)) path

/-- There are no more ways than there were. -/
theorem KeptIn.of_way (hkept : h.KeptIn k) (hresolves : h.Resolves [item]) (hway : k.Way item cell way) :
    h.Way item cell way := by
  cases hway with
  | path hpath => exact .path ((hkept.follow hresolves _).symm.trans hpath)
  | shared hother hcell =>
    obtain ⟨path, inner, hpath, hinner, hother⟩ := hother
    rw [hkept.follow hresolves] at hpath
    have hinside : h.Resolves [inner] := hresolves.onward (reaches_of_follow hpath)
    exact .shared ⟨path, inner, hpath, hinner, (hkept.reaches_iff hinside).1 hother⟩ hcell

/-- Where structs do not contain themselves, there is a copy of every item on every heap that was added to, and this is
how much it counts for at most. -/
theorem KeptIn.exists_copy_le {ways : Nat} (hkept : h.KeptIn k) (hresolves : h.Resolves [item])
    (hacyclic : h.Acyclic [item]) (hsome : 0 < ways) (haliased : h.AliasedWithin ways item) :
    ∃ copy l, k.duplicate item = .ok (copy, l) ∧ l.countItems [copy] ≤ ways * h.countItems [item] := by
  have hk : k.Resolves [item] := hkept.resolves hresolves
  obtain ⟨copy, l, hrun, hspreads, hcopy, -, -⟩ := exists_copy hk (hkept.acyclic hresolves hacyclic)
  have hways : k.AliasedWithin ways item := fun cell found hfound =>
    haliased cell found fun way hway => hkept.of_way hresolves (hfound way hway)
  refine ⟨copy, l, hrun, ?_⟩
  rw [← hkept.countItems_eq hresolves]
  exact hcopy.countItems_le hspreads hk hsome hways

end Heap
end LedgerVM
