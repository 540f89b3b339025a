import LedgerVM.Item.Rendering
import LedgerVM.Proofs.Item.Reach

/-!
# The JSON of items

The JSON of an item unfolds the graph of collections into a tree, which is cut where a collection comes up below itself
(`Heap.Unfolds`).  Every item has exactly one such tree, and rendering finds it with any amount of fuel that exceeds the
number of collections (`Heap.render_unfolds`, `Heap.Unfolds.unique`).
-/

namespace LedgerVM

/-! ### The tree -/

/-- The JSON of an item with this value. -/
def Item.json (item : Item) (value : Json) : Json := .object [("type", .string item.typeName), ("value", value)]

/-- The value in the JSON of an item without a collection. -/
def Item.scalar? : Item → Option Json
  | boolean value => some (.bool value)
  | integer value => some (.string (toString value))
  | byteArray bytes => some (.string bytes.toHex)
  | interface handle => some (.string handle.kind.name)
  | array _ | struct _ | map _ => none

/-- Keys and values in turn, put together as the entries of a map. -/
def Json.entries : List Json → List Json
  | key :: value :: rest => .object [("key", key), ("value", value)] :: entries rest
  | _ => []

/-- The value in the JSON of a collection, from the JSON of what it holds. -/
def CellId.assemble : CellId → List Json → Json
  | list _, parts => .array parts
  | map _, parts => .array (Json.entries parts)

/-- The JSON unfolds an item that stands below these collections.  What it unfolds is cut where a collection stands
below itself. -/
inductive Heap.Unfolds (h : Heap) : List CellId → Item → Json → Prop
  | scalar {above : List CellId} {item : Item} {value : Json} (hitem : item.scalar? = some value) :
    Unfolds h above item (item.json value)
  | cut {above : List CellId} {item : Item} {cell : CellId} (hcell : item.cell? = some cell) (hmet : cell ∈ above) :
    Unfolds h above item (item.json .null)
  | full {above : List CellId} {item : Item} {cell : CellId} {parts : List Json} (hcell : item.cell? = some cell)
    (hnew : cell ∉ above) (hlength : parts.length = (h.contents cell).length)
    (hparts : ∀ (i : Nat) inner part, (h.contents cell)[i]? = some inner → parts[i]? = some part →
      Unfolds h (cell :: above) inner part) :
    Unfolds h above item (item.json (cell.assemble parts))

theorem Item.scalar?_of_cell {item : Item} {cell : CellId} (hcell : item.cell? = some cell) : item.scalar? = none := by
  cases item <;> first | rfl | cases hcell

theorem Item.exists_scalar {item : Item} (hcell : item.cell? = none) : ∃ value, item.scalar? = some value := by
  cases item <;> first | exact ⟨_, rfl⟩ | cases hcell

theorem Json.entries_items (d : Dictionary) (f : Item → Json) :
    entries (d.items.map f) =
      d.map fun entry => .object [("key", f entry.1.item), ("value", f entry.2)] := by
  induction d with
  | nil => rfl
  | cons entry d ih =>
    rw [Dictionary.items_cons, List.map_cons, List.map_cons, entries, ih]
    rfl

namespace Heap

variable {h : Heap} {above : List CellId} {item : Item} {cell : CellId} {json other : Json}

theorem renderWithin_scalar {value : Json} (hitem : item.scalar? = some value) (fuel : Nat) :
    h.renderWithin fuel above item = item.json value := by
  cases item <;> cases hitem <;> cases fuel <;> rfl

theorem renderWithin_cut (hcell : item.cell? = some cell) (hmet : cell ∈ above) (fuel : Nat) :
    h.renderWithin fuel above item = item.json .null := by
  cases fuel with
  | zero => cases item <;> cases hcell <;> rfl
  | succ fuel => cases item <;> cases hcell <;> simp only [renderWithin, if_pos hmet] <;> rfl

theorem renderWithin_full (hcell : item.cell? = some cell) (hnew : cell ∉ above) (fuel : Nat) :
    h.renderWithin (fuel + 1) above item =
      item.json (cell.assemble ((h.contents cell).map (h.renderWithin fuel (cell :: above)))) := by
  cases item with
  | array ref | struct ref =>
    cases hcell
    rw [renderWithin, if_neg hnew]
    rfl
  | map ref =>
    cases hcell
    rw [renderWithin, if_neg hnew, CellId.assemble, contents, Json.entries_items]
    rfl
  | _ => cases hcell

/-- Collections of the heap that are all different are no more than there are. -/
theorem length_le_cells (hnodup : above.Nodup) (hmade : ∀ cell ∈ above, h.Has cell) : above.length ≤ h.cells := by
  rw [← List.toFinset_card_of_nodup hnodup]
  refine (Finset.card_le_card fun cell hcell => ?_).trans h.card_allCells_le
  exact mem_allCells.2 (hmade cell (List.mem_toFinset.1 hcell))

/-- With fuel for the collections that an item does not stand below, rendering unfolds it. -/
theorem renderWithin_unfolds (fuel : Nat) : ∀ above item, above.Nodup → (∀ cell ∈ above, h.Has cell) →
    h.cells < above.length + fuel → h.Unfolds above item (h.renderWithin fuel above item) := by
  induction fuel with
  | zero =>
    intro above item hnodup hmade hfuel
    have hle := length_le_cells hnodup hmade
    omega
  | succ fuel ih =>
    intro above item hnodup hmade hfuel
    cases hcell : item.cell? with
    | none =>
      obtain ⟨value, hvalue⟩ := Item.exists_scalar hcell
      rw [renderWithin_scalar hvalue]
      exact .scalar hvalue
    | some cell =>
      by_cases hmet : cell ∈ above
      · rw [renderWithin_cut hcell hmet]
        exact .cut hcell hmet
      · rw [renderWithin_full hcell hmet]
        refine .full hcell hmet (List.length_map _) fun i inner part hinner hpart => ?_
        rw [List.getElem?_map, hinner] at hpart
        cases hpart
        -- a collection that holds something was made
        have hhas : h.Has cell := Decidable.not_not.1 fun hnot => by
          rw [contents_of_not_has hnot] at hinner
          cases hinner
        refine ih (cell :: above) inner (hnodup.cons hmet) (List.forall_mem_cons.2 ⟨hhas, hmade⟩) ?_
        rw [List.length_cons]
        omega

theorem render_unfolds (h : Heap) (item : Item) : h.Unfolds [] item (h.render item) :=
  renderWithin_unfolds (h.cells + 1) [] item List.nodup_nil nofun (by simp)

/-- An item below these collections has no two trees. -/
theorem Unfolds.unique (hjson : h.Unfolds above item json) (hother : h.Unfolds above item other) : json = other := by
  induction hjson generalizing other with
  | scalar hitem =>
    cases hother with
    | scalar hsame => rw [Option.some.inj (hitem.symm.trans hsame)]
    | cut hcell => cases hitem.symm.trans (Item.scalar?_of_cell hcell)
    | full hcell => cases hitem.symm.trans (Item.scalar?_of_cell hcell)
  | cut hcell hmet =>
    cases hother with
    | scalar hitem => cases hitem.symm.trans (Item.scalar?_of_cell hcell)
    | cut => rfl
    | full hsame hnew =>
      cases hcell.symm.trans hsame
      exact absurd hmet hnew
  | @full above item cell parts hcell hnew hlength _ ih =>
    cases hother with
    | scalar hitem => cases hitem.symm.trans (Item.scalar?_of_cell hcell)
    | cut hsame hmet =>
      cases hcell.symm.trans hsame
      exact absurd hmet hnew
    | @full _ _ _ others hsame _ hothers hunfolds =>
      cases hcell.symm.trans hsame
      have hparts : parts = others := by
        refine List.ext_getElem (hlength.trans hothers.symm) fun i hi hj => ?_
        have hinner := List.getElem?_eq_getElem (hlength ▸ hi)
        exact ih i _ _ hinner (List.getElem?_eq_getElem hi) (hunfolds i _ _ hinner (List.getElem?_eq_getElem hj))
      rw [hparts]

end Heap

/-! ### Places in the tree -/

namespace Json

/-- The value of a field. -/
def field? (name : String) : Json → Option Json
  | object fields => fields.lookup name
  | _ => none

/-- The JSON of what a collection holds, in the JSON of the collection: elements, or each key before its value. -/
def held (j : Json) : List Json :=
  match j.field? "type", j.field? "value" with
  | some (string "Map"), some (array entries) =>
    entries.flatMap fun entry => (entry.field? "key").toList ++ (entry.field? "value").toList
  | _, some (array elements) => elements
  | _, _ => []

/-- What a path leads to, which says at each collection which of the things that it holds is next. -/
def at? : Json → List Nat → Option Json
  | j, [] => some j
  | j, i :: path => j.held[i]?.bind fun part => at? part path

end Json

/-- A path from an item that stands below these collections leads to another item, and to the collections that this one
stands below.  It does not go into a collection below itself. -/
inductive Heap.Occurs (h : Heap) : List CellId → Item → List Nat → List CellId → Item → Prop
  | here {above : List CellId} {item : Item} : Occurs h above item [] above item
  | inside {above last : List CellId} {item inner other : Item} {cell : CellId} {i : Nat} {path : List Nat}
    (hcell : item.cell? = some cell) (hnew : cell ∉ above) (hinner : (h.contents cell)[i]? = some inner)
    (hother : Occurs h (cell :: above) inner path last other) : Occurs h above item (i :: path) last other

namespace Json

theorem field?_type_json (item : Item) (value : Json) :
    (item.json value).field? "type" = some (string item.typeName) := by
  simp [Item.json, field?]

theorem field?_value_json (item : Item) (value : Json) : (item.json value).field? "value" = some value := by
  simp [Item.json, field?, List.lookup_cons]

/-- Entries hold the keys and values that they were put together from. -/
theorem held_entries (d : Dictionary) (parts : List Json) (hlength : parts.length = d.items.length) :
    ((entries parts).flatMap fun entry => (entry.field? "key").toList ++ (entry.field? "value").toList) = parts := by
  induction d generalizing parts with
  | nil =>
    rw [List.eq_nil_of_length_eq_zero hlength]
    rfl
  | cons entry d ih =>
    match parts, hlength with
    | key :: value :: rest, hlength =>
      have hrest := ih rest (by simpa [Dictionary.items_cons] using hlength)
      rw [entries, List.flatMap_cons, hrest]
      rfl

end Json

namespace Heap

variable {h : Heap} {above last : List CellId} {item other : Item} {cell : CellId} {json part : Json} {path : List Nat}

theorem held_full {parts : List Json} (hcell : item.cell? = some cell)
    (hlength : parts.length = (h.contents cell).length) : (item.json (cell.assemble parts)).held = parts := by
  cases item with
  | array ref | struct ref =>
    cases hcell
    rw [Json.held, Json.field?_type_json, Json.field?_value_json]
    rfl
  | map ref =>
    cases hcell
    rw [Json.held, Json.field?_type_json, Json.field?_value_json]
    exact Json.held_entries (h.map ref) parts hlength
  | _ => cases hcell

theorem held_scalar {value : Json} (hitem : item.scalar? = some value) : (item.json value).held = [] := by
  rw [Json.held, Json.field?_type_json, Json.field?_value_json]
  cases item <;> cases hitem <;> rfl

theorem held_cut (item : Item) : (item.json .null).held = [] := by
  rw [Json.held, Json.field?_type_json, Json.field?_value_json]
  cases item <;> rfl

/-- The paths through the JSON of an item are those from the item, and lead to the JSON of what these lead to. -/
theorem Unfolds.at?_iff (hjson : h.Unfolds above item json) :
    json.at? path = some part ↔ ∃ last other, h.Occurs above item path last other ∧ h.Unfolds last other part := by
  induction path generalizing above item json with
  | nil =>
    constructor
    · intro hpart
      cases hpart
      exact ⟨above, item, .here, hjson⟩
    · rintro ⟨last, other, hoccurs, hpart⟩
      cases hoccurs
      rw [hjson.unique hpart]
      rfl
  | cons i path ih =>
    rw [Json.at?, Option.bind_eq_some_iff]
    cases hjson with
    | scalar hitem =>
      rw [held_scalar hitem]
      constructor
      · simp
      · rintro ⟨last, other, hoccurs, -⟩
        cases hoccurs with
        | inside hcell => cases hitem.symm.trans (Item.scalar?_of_cell hcell)
    | cut hcell hmet =>
      rw [held_cut]
      constructor
      · simp
      · rintro ⟨last, other, hoccurs, -⟩
        cases hoccurs with
        | inside hsame hnew =>
          cases hcell.symm.trans hsame
          exact absurd hmet hnew
    | full hcell hnew hlength hparts =>
      rw [held_full hcell hlength]
      constructor
      · rintro ⟨first, hfirst, hpart⟩
        obtain ⟨hi, -⟩ := List.getElem?_eq_some_iff.1 hfirst
        have hinner := List.getElem?_eq_getElem (hlength ▸ hi)
        obtain ⟨last, other, hoccurs, hunfolds⟩ := (ih (hparts i _ first hinner hfirst)).1 hpart
        exact ⟨last, other, .inside hcell hnew hinner hoccurs, hunfolds⟩
      · rintro ⟨last, other, hoccurs, hunfolds⟩
        cases hoccurs with
        | inside hsame _ hinner hother =>
          cases hcell.symm.trans hsame
          obtain ⟨hi, -⟩ := List.getElem?_eq_some_iff.1 hinner
          have hfirst := List.getElem?_eq_getElem (hlength.symm ▸ hi)
          exact ⟨_, hfirst, (ih (hparts i _ _ hinner hfirst)).2 ⟨last, other, hother, hunfolds⟩⟩

/-- A path from an item with a tree leads to an item with a tree. -/
theorem Unfolds.exists_of_occurs (hjson : h.Unfolds above item json) (hoccurs : h.Occurs above item path last other) :
    ∃ part, h.Unfolds last other part := by
  induction hoccurs generalizing json with
  | here => exact ⟨json, hjson⟩
  | inside hcell hnew hinner _ ih =>
    cases hjson with
    | scalar hitem => cases hitem.symm.trans (Item.scalar?_of_cell hcell)
    | cut hsame hmet =>
      cases hcell.symm.trans hsame
      exact absurd hmet hnew
    | full hsame _ hlength hparts =>
      cases hcell.symm.trans hsame
      obtain ⟨hi, -⟩ := List.getElem?_eq_some_iff.1 hinner
      exact ih (hparts _ _ _ hinner (List.getElem?_eq_getElem (hlength.symm ▸ hi)))

/-- The JSON says of which type the item is. -/
theorem Unfolds.field?_type (hjson : h.Unfolds above item json) :
    json.field? "type" = some (.string item.typeName) := by
  cases hjson <;> exact Json.field?_type_json _ _

/-- The value is null where the item is a collection that stands below itself. -/
theorem Unfolds.null_iff (hjson : h.Unfolds above item json) :
    json.field? "value" = some .null ↔ ∃ cell ∈ above, item.cell? = some cell := by
  cases hjson with
  | scalar hitem =>
    rw [Json.field?_value_json]
    refine iff_of_false ?_ ?_
    · cases item <;> cases hitem <;> simp
    · rintro ⟨cell, -, hcell⟩
      cases hitem.symm.trans (Item.scalar?_of_cell hcell)
  | cut hcell hmet =>
    rw [Json.field?_value_json]
    exact iff_of_true rfl ⟨_, hmet, hcell⟩
  | @full _ _ cell parts hcell hnew =>
    rw [Json.field?_value_json]
    refine iff_of_false ?_ ?_
    · cases cell <;> simp [CellId.assemble]
    · rintro ⟨other, hmet, hother⟩
      cases hcell.symm.trans hother
      exact hnew hmet

/-- What is not cut is there in full. -/
theorem Unfolds.length_held (hjson : h.Unfolds above item json) (hcell : item.cell? = some cell) (hnew : cell ∉ above) :
    json.held.length = (h.contents cell).length := by
  cases hjson with
  | scalar hitem => cases hitem.symm.trans (Item.scalar?_of_cell hcell)
  | cut hsame hmet =>
    cases hcell.symm.trans hsame
    exact absurd hmet hnew
  | full hsame _ hlength =>
    cases hcell.symm.trans hsame
    rw [held_full hcell hlength, hlength]

/-- What an item leads to along a path can be reached from it, and so can the collections on the path, from which one
reaches the end of the path. -/
theorem Occurs.reaches (hoccurs : h.Occurs above item path last other) : h.Reaches [item] other ∧
    ∀ cell ∈ last, cell ∈ above ∨ h.ReachesCell [item] cell ∧ h.Reaches (h.contents cell) other := by
  induction hoccurs with
  | here => exact ⟨.root List.mem_cons_self, fun cell hcell => .inl hcell⟩
  | @inside above last item inner other cell i path hcell hnew hinner _ ih =>
    obtain ⟨hother, hcells⟩ := ih
    have hmem : inner ∈ h.contents cell := List.mem_of_getElem? hinner
    have hreach : h.Reaches [item] inner := .inside (.root List.mem_cons_self) hcell hmem
    refine ⟨hreach.onward hother, fun met hmet => ?_⟩
    rcases hcells met hmet with hmet | ⟨⟨found, hfound, hmet⟩, hend⟩
    · rcases List.mem_cons.1 hmet with rfl | hmet
      · refine .inr ⟨⟨item, .root List.mem_cons_self, hcell⟩, ?_⟩
        exact (Reaches.root hmem).onward hother
      · exact .inl hmet
    · exact .inr ⟨⟨found, hreach.onward hfound, hmet⟩, hend⟩

end Heap

/-- The value is part of another one. -/
inductive Json.Within (part : Json) : Json → Prop
  | self : Within part part
  | element {element : Json} {elements : List Json} (helement : element ∈ elements) (hpart : Within part element) :
    Within part (array elements)
  | field {value : Json} {name : String} {fields : List (String × Json)} (hfield : (name, value) ∈ fields)
    (hpart : Within part value) : Within part (object fields)

namespace Heap

variable {h : Heap} {above last : List CellId} {item other : Item} {json part value : Json} {path twin : List Nat}

theorem within_json (hpart : part.Within (item.json value)) :
    part = item.json value ∨ part = .string item.typeName ∨ part.Within value := by
  cases hpart with
  | self => exact .inl rfl
  | field hfield hpart =>
    simp only [List.mem_cons, Prod.mk.injEq, List.not_mem_nil, or_false] at hfield
    rcases hfield with ⟨-, rfl⟩ | ⟨-, rfl⟩
    · cases hpart
      exact .inr (.inl rfl)
    · exact .inr (.inr hpart)

theorem within_entries {parts : List Json} (hpart : part.Within (.array (Json.entries parts))) :
    (∃ elements, part = .array elements) ∨ (∃ fields, part = .object fields) ∨ ∃ inner ∈ parts, part.Within inner := by
  cases hpart with
  | self => exact .inl ⟨_, rfl⟩
  | @element entry _ hentry hpart =>
    refine .inr ?_
    induction parts using Json.entries.induct with
    | case1 key value rest ih =>
      rw [Json.entries] at hentry
      rcases List.mem_cons.1 hentry with rfl | hentry
      · cases hpart with
        | self => exact .inl ⟨_, rfl⟩
        | field hfield hpart =>
          simp only [List.mem_cons, Prod.mk.injEq, List.not_mem_nil, or_false] at hfield
          rcases hfield with ⟨-, rfl⟩ | ⟨-, rfl⟩
          · exact .inr ⟨_, by simp, hpart⟩
          · exact .inr ⟨_, by simp, hpart⟩
      · exact (ih hentry).imp_right fun ⟨inner, hinner, hpart⟩ => ⟨inner, by simp [hinner], hpart⟩
    | case2 parts hshort =>
      rw [Json.entries] at hentry
      · cases hentry
      · exact hshort

/-- Where nothing is cut there is no null. -/
theorem Unfolds.not_null (hjson : h.Unfolds above item json)
    (hfull : ∀ path last other cell, h.Occurs above item path last other → other.cell? = some cell → cell ∉ last) :
    ¬Json.null.Within json := by
  induction hjson with
  | @scalar above item value hitem =>
    intro hnull
    rcases within_json hnull with hsame | hsame | hvalue
    · cases hsame
    · cases hsame
    · clear hnull
      cases item <;> cases hitem <;> cases hvalue
  | cut hcell hmet => exact absurd hmet (hfull [] _ _ _ .here hcell)
  | @full above item cell parts hcell hnew hlength _ ih =>
    intro hnull
    have hparts : ∀ inner ∈ parts, ¬Json.null.Within inner := by
      intro inner hinner
      obtain ⟨i, hi, rfl⟩ := List.mem_iff_getElem.1 hinner
      have hitem := List.getElem?_eq_getElem (hlength ▸ hi)
      refine ih i _ _ hitem (List.getElem?_eq_getElem hi) fun path last other cell hoccurs hother => ?_
      exact hfull (i :: path) last other cell (.inside hcell hnew hitem hoccurs) hother
    rcases within_json hnull with hsame | hsame | hnull
    · cases hsame
    · cases hsame
    · cases cell with
      | list ref =>
        cases hnull with
        | element helement hnull => exact hparts _ helement hnull
      | map ref =>
        rcases within_entries hnull with ⟨_, hsame⟩ | ⟨_, hsame⟩ | ⟨inner, hinner, hnull⟩
        · cases hsame
        · cases hsame
        · exact hparts inner hinner hnull

/-! ### One list of collections -/

/-- Rendering with one list for the collections that are being rendered, which are put on it and taken off again. -/
def renderVisiting (h : Heap) : (fuel : Nat) → Item → StateM (List CellId) Json
  | 0, item => return item.json (item.scalar?.getD .null)
  | fuel + 1, item =>
    match item.cell? with
    | none => return item.json (item.scalar?.getD .null)
    | some cell => do
      if cell ∈ (← get) then return item.json .null
      modify (cell :: ·)
      let parts ← (h.contents cell).mapM (renderVisiting h fuel)
      modify List.tail
      return item.json (cell.assemble parts)

private theorem mapM_of_same {α β σ : Type} {f : α → StateM σ β} {g : α → β} {s : σ} (xs : List α)
    (hf : ∀ x ∈ xs, f x s = (g x, s)) : xs.mapM f s = (xs.map g, s) := by
  induction xs with
  | nil => rfl
  | cons x xs ih =>
    have hxs := ih fun y hy => hf y (List.mem_cons_of_mem x hy)
    rw [List.mapM_cons]
    show (let first := f x s; let rest := xs.mapM f first.2; (first.1 :: rest.1, rest.2)) = _
    simp only [hf x List.mem_cons_self, hxs, List.map_cons]

/-- The list is left as it was found, and it is the list of the collections that an item stands below. -/
theorem renderVisiting_eq (h : Heap) (fuel : Nat) : ∀ item visiting,
    h.renderVisiting fuel item visiting = (h.renderWithin fuel visiting item, visiting) := by
  induction fuel with
  | zero =>
    intro item visiting
    cases item <;> rfl
  | succ fuel ih =>
    intro item visiting
    rw [renderVisiting]
    cases hcell : item.cell? with
    | none =>
      obtain ⟨value, hvalue⟩ := Item.exists_scalar hcell
      rw [renderWithin_scalar hvalue, hvalue]
      rfl
    | some cell =>
      by_cases hmet : cell ∈ visiting
      · rw [renderWithin_cut hcell hmet]
        show (if cell ∈ visiting then _ else _ : StateM (List CellId) Json) visiting = _
        rw [if_pos hmet]
        rfl
      · rw [renderWithin_full hcell hmet]
        have hparts := mapM_of_same (h.contents cell) fun inner _ => ih inner (cell :: visiting)
        show (if cell ∈ visiting then _ else _ : StateM (List CellId) Json) visiting = _
        rw [if_neg hmet]
        show (let parts := (h.contents cell).mapM (h.renderVisiting fuel) (cell :: visiting)
          (item.json (cell.assemble parts.1), parts.2.tail)) = _
        simp only [hparts, List.tail_cons]

/-- No collection that the item leads to is inside itself. -/
def Loopless (h : Heap) (item : Item) : Prop :=
  ∀ cell, h.ReachesCell [item] cell → ¬h.ReachesCell (h.contents cell) cell

/-- The JSON of an item is its tree, and there is no other one.  More fuel does not change it, and one list of the
collections being rendered does for it.  Its places are those that paths from the item lead to.  At each of them stands
the tree of what the path leads to, which is cut if this is a collection that the path went through, and in full if it
is any other collection.  So an item is rendered in the same way wherever it is found below the same collections, and
nothing is null if no collection is inside itself. -/
theorem render_is_cut_unfolding (h : Heap) (item : Item) :
    (∀ json, h.Unfolds [] item json ↔ json = h.render item) ∧
    (∀ fuel, h.cells < fuel → h.renderWithin fuel [] item = h.render item ∧
      h.renderVisiting fuel item [] = (h.render item, [])) ∧
    (∀ path part, (h.render item).at? path = some part ↔
      ∃ last other, h.Occurs [] item path last other ∧ h.Unfolds last other part) ∧
    (∀ path last other, h.Occurs [] item path last other → ∃ part, (h.render item).at? path = some part ∧
      part.field? "type" = some (.string other.typeName) ∧
      (part.field? "value" = some .null ↔ ∃ cell ∈ last, other.cell? = some cell) ∧
      (∀ cell, other.cell? = some cell → cell ∉ last → part.held.length = (h.contents cell).length) ∧
      ∀ twin, h.Occurs [] item twin last other → (h.render item).at? twin = some part) ∧
    (h.Loopless item → ¬Json.null.Within (h.render item)) := by
  have hrender := h.render_unfolds item
  refine ⟨fun json => ⟨fun hjson => hjson.unique hrender, ?_⟩, fun fuel hfuel => ?_, fun path part => hrender.at?_iff,
    fun path last other hoccurs => ?_, fun hloopless => ?_⟩
  · rintro rfl
    exact hrender
  · have hsame := (renderWithin_unfolds fuel [] item List.nodup_nil nofun (by simpa using hfuel)).unique hrender
    exact ⟨hsame, by rw [renderVisiting_eq, hsame]⟩
  · obtain ⟨part, hpart⟩ := hrender.exists_of_occurs hoccurs
    refine ⟨part, hrender.at?_iff.2 ⟨last, other, hoccurs, hpart⟩, hpart.field?_type, hpart.null_iff,
      fun cell => hpart.length_held, fun twin htwin => hrender.at?_iff.2 ⟨last, other, htwin, hpart⟩⟩
  · refine hrender.not_null fun path last other cell hoccurs hcell hmet => ?_
    obtain ⟨-, hcells⟩ := hoccurs.reaches
    rcases hcells cell hmet with hnone | ⟨hreach, hback⟩
    · cases hnone
    · exact hloopless cell hreach ⟨other, hback, hcell⟩

/-- An array that holds itself, and twice another array with a seven in it. -/
def mirrored : Heap := { lists := #[[.array 0, .array 1, .array 1], [.integer 7]] }

/-- The first array is null inside itself, and the other one is there twice in full, with nothing that is null. -/
theorem mirrored_rendered : mirrored.render (.array 0) = (Item.array 0).json (.array
      [(Item.array 0).json .null, mirrored.render (.array 1), mirrored.render (.array 1)]) ∧
    mirrored.render (.array 1) = (Item.array 1).json (.array [(Item.integer 7).json (.string "7")]) ∧
    ¬Json.null.Within (mirrored.render (.array 1)) := by
  obtain ⟨-, -, -, -, hnull⟩ := mirrored.render_is_cut_unfolding (.array 1)
  have hseven {item : Item} (hitem : mirrored.Reaches [.integer 7] item) : item = .integer 7 := by
    induction hitem with
    | root hitem => exact List.mem_singleton.1 hitem
    | inside _ hcell _ ih =>
      subst ih
      cases hcell
  have harray {item : Item} (hitem : mirrored.Reaches [.array 1] item) : item = .array 1 ∨ item = .integer 7 := by
    induction hitem with
    | root hitem => exact .inl (List.mem_singleton.1 hitem)
    | inside _ hcell hother ih =>
      rcases ih with rfl | rfl <;> cases hcell
      exact .inr (List.mem_singleton.1 hother)
  refine ⟨rfl, rfl, hnull ?_⟩
  rintro cell ⟨item, hitem, hcell⟩ ⟨other, hother, hback⟩
  rcases harray hitem with rfl | rfl <;> cases hcell
  obtain rfl := hseven hother
  cases hback

end Heap
end LedgerVM
