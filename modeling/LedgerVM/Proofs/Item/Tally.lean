import LedgerVM.Item.Tally
import LedgerVM.Proofs.Item.Reach
import Mathlib.Algebra.Order.BigOperators.Group.Finset
import Mathlib.Data.Multiset.Basic
import Mathlib.Logic.Relation

/-!
# The count of items

Counting items goes through a graph with a list of things to do.  Whichever item is counted next and whichever
collection is opened next, the count comes out as the number of items to start with and the contents of every
collection that they lead to, each once (`Tally.Walk.count_eq`).  This is the case of `Tally.addAll`, also where the
items come in batches, for it never runs out of fuel (`Tally.addAll_batches`).
-/

namespace LedgerVM

theorem CellId.number_injective : Function.Injective CellId.number := by
  intro a b hab
  cases a <;> cases b <;> simp only [CellId.number] at hab <;> first | omega | (congr 1; omega)

namespace Heap

/-- What a collection counts for: its elements, or the keys and the values of its entries. -/
def weight (h : Heap) : CellId → Nat
  | .list ref => (h.list ref).length
  | .map ref => 2 * (h.map ref).length

theorem length_contents (h : Heap) (cell : CellId) : (h.contents cell).length = h.weight cell := by
  cases cell with
  | list ref => rfl
  | map ref =>
    rw [contents, weight, Dictionary.items, List.length_flatMap]
    simp [Nat.mul_comm]

open scoped Classical in
/-- The collections that items lead to. -/
noncomputable def reached (h : Heap) (items : List Item) : Finset CellId :=
  {cell ∈ h.allCells | h.ReachesCell items cell}

/-- The number of items, with the contents of every collection that they lead to, each counted once. -/
noncomputable def total (h : Heap) (items : List Item) : Nat := items.length + ∑ cell ∈ h.reached items, h.weight cell

variable {h : Heap} {items : List Item} {cell : CellId}

theorem mem_reached (hresolves : h.Resolves items) : cell ∈ h.reached items ↔ h.ReachesCell items cell := by
  simp only [reached, Finset.mem_filter, mem_allCells]
  exact ⟨And.right, fun hcell => ⟨hresolves cell hcell, hcell⟩⟩

theorem card_reached_le (h : Heap) (items : List Item) : (h.reached items).card ≤ h.cells := by
  refine (Finset.card_le_card fun cell hcell => ?_).trans h.card_allCells_le
  simp only [reached, Finset.mem_filter] at hcell
  exact hcell.1

end Heap

namespace Tally

variable {h : Heap} {roots : List Item} {todo : Multiset Item} {t u : Tally} {visited : Finset CellId}

/-! ### Walks -/

/-- One step of counting, with the items yet to be counted: any of them is counted, or any pending collection is
opened. -/
inductive Move (h : Heap) : Multiset Item × Tally → Multiset Item × Tally → Prop
  | count (item : Item) (todo : Multiset Item) (t : Tally) : Move h (item ::ₘ todo, t) (todo, t.add item)
  | look (todo : Multiset Item) {t : Tally} {before after : List CellId} {cell : CellId}
      (hpending : t.pending = before ++ cell :: after) :
      Move h (todo, t) (h.contents cell + todo, { t with pending := before ++ after })

/-- So many steps of counting, one after the other. -/
inductive Walk (h : Heap) : Nat → Multiset Item × Tally → Multiset Item × Tally → Prop
  | nil (s : Multiset Item × Tally) : Walk h 0 s s
  | snoc {n : Nat} {s s₁ s₂ : Multiset Item × Tally} (hwalk : Walk h n s s₁) (hmove : Move h s₁ s₂) :
      Walk h (n + 1) s s₂

/-! ### The books of a walk -/

/-- The item is yet to be counted, or its collection is noted. -/
def Noted (todo : Multiset Item) (t : Tally) (visited : Finset CellId) (item : Item) : Prop :=
  item ∈ todo ∨ ∀ cell, item.cell? = some cell → cell ∈ visited ∨ cell ∈ t.pending

/-- What a count in progress says when these collections were opened and these items are yet to be counted. -/
structure Sound (h : Heap) (roots : List Item) (todo : Multiset Item) (t : Tally) (visited : Finset CellId) : Prop where
  seen : ∀ cell, t.seen.contains cell.number = true ↔ cell ∈ visited ∨ cell ∈ t.pending
  apart : ∀ cell ∈ t.pending, cell ∉ visited
  nodup : t.pending.Nodup
  reached : ∀ cell, cell ∈ visited ∨ cell ∈ t.pending → h.ReachesCell roots cell
  left : ∀ item ∈ todo, h.Reaches roots item
  given : ∀ item ∈ roots, Noted todo t visited item
  inside : ∀ cell ∈ visited, ∀ item ∈ h.contents cell, Noted todo t visited item
  count : t.count + todo.card = roots.length + ∑ cell ∈ visited, h.weight cell

theorem sound_empty (h : Heap) (roots : List Item) : Sound h roots roots empty ∅ where
  seen cell := by simp [empty]
  apart cell hcell := by simp [empty] at hcell
  nodup := List.nodup_nil
  reached cell hcell := by simp [empty] at hcell
  left item hitem := .root (Multiset.mem_coe.1 hitem)
  given item hitem := .inl (Multiset.mem_coe.2 hitem)
  inside cell hcell := by simp at hcell
  count := by simp [empty]

/-- What was noted stays so if no pending collection gets lost, and an item that is counted now is noted. -/
theorem Noted.counted {item other : Item} (hother : Noted (item ::ₘ todo) t visited other)
    (hpending : t.pending ⊆ u.pending)
    (hitem : ∀ cell, item.cell? = some cell → cell ∈ visited ∨ cell ∈ u.pending) : Noted todo u visited other := by
  rcases hother with hother | hother
  · rcases Multiset.mem_cons.1 hother with rfl | hother
    · exact .inr hitem
    · exact .inl hother
  · exact .inr fun cell hcell => (hother cell hcell).imp_right (hpending ·)

namespace Sound

/-- An item that refers to no collection, or to one that was noted before, is only counted. -/
theorem addNoted {item : Item} (hs : Sound h roots (item ::ₘ todo) t visited)
    (hitem : ∀ cell, item.cell? = some cell → cell ∈ visited ∨ cell ∈ t.pending) :
    Sound h roots todo { t with count := t.count + 1 } visited where
  seen := hs.seen
  apart := hs.apart
  nodup := hs.nodup
  reached := hs.reached
  left other hother := hs.left other (Multiset.mem_cons_of_mem hother)
  given other hother := (hs.given other hother).counted (List.Subset.refl _) hitem
  inside cell hcell other hother := (hs.inside cell hcell other hother).counted (List.Subset.refl _) hitem
  count := by
    have hcount := hs.count
    rw [Multiset.card_cons] at hcount
    simp only
    omega

/-- An item that refers to a collection which was not noted before makes it pending. -/
theorem addNew {item : Item} {cell : CellId} (hs : Sound h roots (item ::ₘ todo) t visited)
    (hcell : item.cell? = some cell) (hnew : ¬(cell ∈ visited ∨ cell ∈ t.pending)) :
    Sound h roots todo { seen := t.seen.insert cell.number, pending := cell :: t.pending, count := t.count + 1 }
      visited := by
  have hitem : ∀ found, item.cell? = some found → found ∈ visited ∨ found ∈ cell :: t.pending := by
    intro found hfound
    rw [hcell] at hfound
    cases hfound
    exact .inr List.mem_cons_self
  refine
    { seen := fun other => ?_
      apart := fun other hother => ?_
      nodup := List.nodup_cons.2 ⟨fun hpending => hnew (.inr hpending), hs.nodup⟩
      reached := fun other hother => ?_
      left := fun other hother => hs.left other (Multiset.mem_cons_of_mem hother)
      given := fun other hother => (hs.given other hother).counted (List.subset_cons_self _ _) hitem
      inside := fun found hfound other hother =>
        (hs.inside found hfound other hother).counted (List.subset_cons_self _ _) hitem
      count := ?_ }
  · have hnumber : compare cell.number other.number = .eq ↔ other = cell := by
      rw [Nat.compare_eq_eq, CellId.number_injective.eq_iff, eq_comm]
    rw [Std.TreeSet.contains_insert, Bool.or_eq_true, hs.seen other, beq_iff_eq, hnumber, List.mem_cons]
    tauto
  · rcases List.mem_cons.1 hother with rfl | hother
    · exact fun hvisited => hnew (.inl hvisited)
    · exact hs.apart other hother
  · rcases hother with hvisited | hpending
    · exact hs.reached other (.inl hvisited)
    · rcases List.mem_cons.1 hpending with rfl | hpending
      · exact ⟨item, hs.left item (Multiset.mem_cons_self item todo), hcell⟩
      · exact hs.reached other (.inr hpending)
  · have hcount := hs.count
    rw [Multiset.card_cons] at hcount
    simp only
    omega

theorem add {item : Item} (hs : Sound h roots (item ::ₘ todo) t visited) : Sound h roots todo (t.add item) visited := by
  unfold Tally.add
  cases hcell : item.cell? with
  | none => exact hs.addNoted fun cell hsome => by simp [hcell] at hsome
  | some cell =>
    dsimp only
    split
    · rename_i hseen
      refine hs.addNoted fun found hfound => ?_
      rw [hcell] at hfound
      cases hfound
      exact (hs.seen cell).1 hseen
    · rename_i hunseen
      exact hs.addNew hcell fun hold => hunseen ((hs.seen cell).2 hold)

/-- Opening a pending collection puts its contents among what is to be counted. -/
theorem look {before after : List CellId} {cell : CellId} (hs : Sound h roots todo t visited)
    (hpending : t.pending = before ++ cell :: after) :
    Sound h roots (h.contents cell + todo) { t with pending := before ++ after } (insert cell visited) := by
  have hperm : t.pending.Perm (cell :: (before ++ after)) := by
    rw [hpending]
    exact List.perm_middle
  have hmem (other : CellId) : other ∈ t.pending ↔ other = cell ∨ other ∈ before ++ after := by
    rw [hperm.mem_iff, List.mem_cons]
  have hnodup := hperm.nodup_iff.1 hs.nodup
  have hcell : cell ∉ visited := hs.apart cell ((hmem cell).2 (.inl rfl))
  have hnoted {other : Item} (hother : Noted todo t visited other) :
      Noted (h.contents cell + todo) { t with pending := before ++ after } (insert cell visited) other := by
    rcases hother with hother | hother
    · exact .inl (Multiset.mem_add.2 (.inr hother))
    · refine .inr fun found hfound => ?_
      rcases hother found hfound with hvisited | hold
      · exact .inl (Finset.mem_insert_of_mem hvisited)
      · rcases (hmem found).1 hold with rfl | hold
        · exact .inl (Finset.mem_insert_self found visited)
        · exact .inr hold
  refine
    { seen := fun other => ?_
      apart := fun other hother => ?_
      nodup := (List.nodup_cons.1 hnodup).2
      reached := fun other hother => ?_
      left := fun item hitem => ?_
      given := fun item hitem => hnoted (hs.given item hitem)
      inside := fun other hother item hitem => ?_
      count := ?_ }
  · rw [hs.seen other, hmem other, Finset.mem_insert]
    tauto
  · rw [Finset.mem_insert, not_or]
    refine ⟨?_, hs.apart other ((hmem other).2 (.inr hother))⟩
    rintro rfl
    exact (List.nodup_cons.1 hnodup).1 hother
  · refine hs.reached other ?_
    rw [hmem other]
    rw [Finset.mem_insert] at hother
    tauto
  · rcases Multiset.mem_add.1 hitem with hitem | hitem
    · obtain ⟨outer, houter, hleads⟩ := hs.reached cell (.inr ((hmem cell).2 (.inl rfl)))
      exact .inside houter hleads (Multiset.mem_coe.1 hitem)
    · exact hs.left item hitem
  · rcases Finset.mem_insert.1 hother with rfl | hother
    · exact .inl (Multiset.mem_add.2 (.inl (Multiset.mem_coe.2 hitem)))
    · exact hnoted (hs.inside other hother item hitem)
  · have hcount := hs.count
    rw [Multiset.card_add, Multiset.coe_card, h.length_contents, Finset.sum_insert hcell]
    simp only
    omega

/-- With nothing left to do, exactly the collections that the items lead to were opened. -/
theorem visited_iff (hs : Sound h roots 0 t visited) (hpending : t.pending = []) (cell : CellId) :
    cell ∈ visited ↔ h.ReachesCell roots cell := by
  have hnoted {item : Item} (hitem : Noted 0 t visited item) {found : CellId} (hfound : item.cell? = some found) :
      found ∈ visited := by
    rcases hitem with hitem | hitem
    · exact absurd hitem (Multiset.notMem_zero item)
    · rcases hitem found hfound with hvisited | hold
      · exact hvisited
      · rw [hpending] at hold
        cases hold
  constructor
  · exact fun hcell => hs.reached cell (.inl hcell)
  · rintro ⟨item, hitem, hcell⟩
    refine hnoted ?_ hcell
    clear hcell
    -- along the way on which the item is reached
    induction hitem with
    | root hitem => exact hs.given _ hitem
    | inside _ hleads hother ih => exact hs.inside _ (hnoted ih hleads) _ hother

theorem visited_subset (hs : Sound h roots todo t visited) (hresolves : h.Resolves roots) :
    visited ⊆ h.reached roots := fun cell hcell => (Heap.mem_reached hresolves).2 (hs.reached cell (.inl hcell))

theorem count_eq (hs : Sound h roots 0 t visited) (hpending : t.pending = []) (hresolves : h.Resolves roots) :
    t.count = h.total roots := by
  have hvisited : visited = h.reached roots := by
    ext cell
    rw [hs.visited_iff hpending, Heap.mem_reached hresolves]
  have hcount := hs.count
  rw [Multiset.card_zero, hvisited] at hcount
  exact hcount

end Sound

/-! ### Every order of counting -/

/-- Along a walk the steps made are the items counted and the collections opened. -/
theorem Walk.sound {n : Nat} (hwalk : Walk h n (roots, empty) (todo, t)) :
    ∃ visited, Sound h roots todo t visited ∧ n = t.count + visited.card := by
  generalize hstart : ((roots : Multiset Item), empty) = s at hwalk
  generalize hend : (todo, t) = e at hwalk
  induction hwalk generalizing todo t with
  | nil s =>
    obtain ⟨rfl, rfl⟩ := Prod.mk.inj (hend.trans hstart.symm)
    exact ⟨∅, sound_empty h roots, rfl⟩
  | snoc hwalk hmove ih =>
    cases hmove with
    | count item todo t =>
      cases hend
      obtain ⟨visited, hs, hn⟩ := ih hstart rfl
      have hone : (t.add item).count = t.count + 1 := by
        unfold add
        split
        · rfl
        · split <;> rfl
      exact ⟨visited, hs.add, by omega⟩
    | look todo hpending =>
      cases hend
      obtain ⟨visited, hs, hn⟩ := ih hstart rfl
      rename_i t before after cell
      have hcell : cell ∉ visited := hs.apart cell (by rw [hpending]; simp)
      refine ⟨insert cell visited, hs.look hpending, ?_⟩
      rw [Finset.card_insert_of_notMem hcell]
      simp only
      omega

/-- However the steps are ordered, there are no more than the items counted in the end and the collections. -/
theorem Walk.length_le {n : Nat} (hwalk : Walk h n (roots, empty) (todo, t)) (hresolves : h.Resolves roots) :
    n ≤ h.total roots + h.cells := by
  obtain ⟨visited, hs, hn⟩ := hwalk.sound
  have hsub := hs.visited_subset hresolves
  have hcells : visited.card ≤ h.cells := (Finset.card_le_card hsub).trans (h.card_reached_le roots)
  have hcount : t.count ≤ h.total roots := by
    have hsum : ∑ cell ∈ visited, h.weight cell ≤ ∑ cell ∈ h.reached roots, h.weight cell :=
      Finset.sum_le_sum_of_subset hsub
    have hbooks := hs.count
    unfold Heap.total
    omega
  omega

/-- However the steps are ordered, where no other can be made the count is the same. -/
theorem Walk.count_eq {n : Nat} {s : Multiset Item × Tally} (hwalk : Walk h n (roots, empty) s)
    (hends : ∀ next, ¬Move h s next) (hresolves : h.Resolves roots) : s.2.count = h.total roots := by
  obtain ⟨todo, t⟩ := s
  have htodo : todo = 0 := by
    refine Multiset.eq_zero_of_forall_notMem fun item hitem => ?_
    obtain ⟨rest, rfl⟩ := Multiset.exists_cons_of_mem hitem
    exact hends _ (.count item rest t)
  have hpending : t.pending = [] := by
    refine List.eq_nil_iff_forall_not_mem.2 fun cell hcell => ?_
    obtain ⟨before, after, hsplit⟩ := List.append_of_mem hcell
    exact hends _ (.look todo hsplit)
  subst htodo
  obtain ⟨visited, hs, -⟩ := hwalk.sound
  exact hs.count_eq hpending hresolves

/-! ### Counting in batches -/

theorem Sound.addItems {items : List Item} (hs : Sound h roots (items + todo) t visited) :
    Sound h roots todo (items.foldl Tally.add t) visited := by
  induction items generalizing t with
  | nil => simpa using hs
  | cons item items ih =>
    rw [← Multiset.cons_coe, Multiset.cons_add] at hs
    exact ih hs.add

/-- Draining opens pending collections until there are none, or as many as there is fuel for. -/
theorem Sound.drain (fuel : Nat) (hs : Sound h roots todo t visited) :
    ∃ opened, Sound h roots todo (Tally.drain h fuel t) opened ∧
      ((Tally.drain h fuel t).pending = [] ∨ opened.card = visited.card + fuel) := by
  induction fuel generalizing t visited with
  | zero => exact ⟨visited, hs, .inr rfl⟩
  | succ fuel ih =>
    unfold Tally.drain
    cases hpending : t.pending with
    | nil => exact ⟨visited, hs, .inl hpending⟩
    | cons cell rest =>
      have hcell : cell ∉ visited := hs.apart cell (by rw [hpending]; exact List.mem_cons_self)
      have hlooked := hs.look (show t.pending = [] ++ cell :: rest from hpending)
      have hopened := hlooked.addItems
      obtain ⟨opened, hsound, hends⟩ := ih hopened
      refine ⟨opened, hsound, hends.imp_right fun hcard => ?_⟩
      rw [hcard, Finset.card_insert_of_notMem hcell]
      omega

/-- There is fuel for every collection, so counting a batch leaves none pending. -/
theorem Sound.addAll {items : List Item} (hs : Sound h roots (items + todo) t visited) (hresolves : h.Resolves roots) :
    ∃ opened, Sound h roots todo (t.addAll h items) opened ∧ (t.addAll h items).pending = [] := by
  obtain ⟨opened, hsound, hends⟩ := hs.addItems.drain h.cells
  refine ⟨opened, hsound, ?_⟩
  rcases hends with hnone | hcard
  · exact hnone
  · refine List.eq_nil_iff_forall_not_mem.2 fun cell hcell => ?_
    have hnew := hsound.apart cell hcell
    have hsub : insert cell opened ⊆ h.reached roots := by
      refine Finset.insert_subset ?_ (hsound.visited_subset hresolves)
      exact (Heap.mem_reached hresolves).2 (hsound.reached cell (.inr hcell))
    have hmore := (Finset.card_le_card hsub).trans (h.card_reached_le roots)
    rw [Finset.card_insert_of_notMem hnew] at hmore
    omega

/-- Items counted in batches, in any order, count as many as all of them at once. -/
theorem addAll_batches {batches : List (List Item)} (hperm : batches.flatten.Perm roots)
    (hresolves : h.Resolves roots) :
    (batches.foldl (Tally.addAll h) empty).pending = [] ∧
      (batches.foldl (Tally.addAll h) empty).count = h.total roots := by
  -- with the batches that are left as what is yet to be counted
  have hfold : ∀ (left : List (List Item)) (t : Tally) (visited : Finset CellId),
      Sound h roots left.flatten t visited → t.pending = [] →
        ∃ opened, Sound h roots 0 (left.foldl (Tally.addAll h) t) opened ∧
          (left.foldl (Tally.addAll h) t).pending = [] := by
    intro left
    induction left with
    | nil => exact fun t visited hs hpending => ⟨visited, hs, hpending⟩
    | cons batch left ih =>
      intro t visited hs _
      rw [List.flatten_cons, ← Multiset.coe_add] at hs
      obtain ⟨opened, hsound, hpending⟩ := hs.addAll hresolves
      exact ih (t.addAll h batch) opened hsound hpending
  have hstart : Sound h roots batches.flatten empty ∅ := by
    rw [Multiset.coe_eq_coe.2 hperm]
    exact sound_empty h roots
  obtain ⟨opened, hsound, hpending⟩ := hfold batches empty ∅ hstart rfl
  exact ⟨hpending, hsound.count_eq hpending hresolves⟩

end Tally

/-- The number of items comes out as it should. -/
theorem Heap.countItems_eq {h : Heap} {items : List Item} (hresolves : h.Resolves items) :
    h.countItems items = h.total items := by
  have hbatch : [items].flatten.Perm items := by simp
  exact (Tally.addAll_batches hbatch hresolves).2

/-- An item that others lead to does not count for more than they do. -/
theorem Heap.Reaches.countItems_le {h : Heap} {items : List Item} {item : Item} (hitem : h.Reaches items item)
    (hresolves : h.Resolves items) : h.countItems [item] ≤ h.countItems items := by
  have hinside : h.Resolves [item] := hresolves.onward hitem
  have hreached : h.reached [item] ⊆ h.reached items := fun cell hcell => by
    obtain ⟨other, hother, hcell⟩ := (Heap.mem_reached hinside).1 hcell
    exact (Heap.mem_reached hresolves).2 ⟨other, hitem.onward hother, hcell⟩
  have hsome : 0 < items.length := by
    refine List.length_pos_iff.2 ?_
    rintro rfl
    exact Heap.not_reaches_nil hitem
  rw [Heap.countItems_eq hinside, Heap.countItems_eq hresolves]
  exact Nat.add_le_add hsome (Finset.sum_le_sum_of_subset hreached)

end LedgerVM
