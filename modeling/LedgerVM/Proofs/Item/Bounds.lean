import LedgerVM.Item.Coercion
import LedgerVM.Item.Equality
import LedgerVM.Proofs.Item.CopyInduction
import LedgerVM.Proofs.Item.Nesting

/-!
# Bounds of items

What holds of every item of a run is said by bounds: which collections may be referred to, which integers and byte
strings there may be, how long collections may be, and whether structs must not contain themselves.  An item is within
bounds on a heap (`Bounds.Holds`) also in that what it refers to was made; a heap is if its collections are
(`Bounds.HoldsHeap`).  Heaps only grow, and an item within bounds stays so.  Making, changing and copying collections
keeps a heap within bounds.
-/

namespace LedgerVM

/-- What the items of a run may be. -/
structure Bounds where
  cells : CellId → Prop
  integers : Int → Prop
  bytes : Bytes → Prop
  lengths : Nat → Prop
  /-- No struct contains itself through structs alone. -/
  acyclic : Prop

namespace Heap

/-- Nothing made on the one heap is missing from the other. -/
structure Grows (h k : Heap) : Prop where
  lists : h.lists.size ≤ k.lists.size
  maps : h.maps.size ≤ k.maps.size

theorem Grows.refl (h : Heap) : h.Grows h := ⟨Nat.le_refl _, Nat.le_refl _⟩

theorem Grows.trans {h k l : Heap} (hk : h.Grows k) (kl : k.Grows l) : h.Grows l :=
  ⟨Nat.le_trans hk.lists kl.lists, Nat.le_trans hk.maps kl.maps⟩

theorem grows_newList (h : Heap) (items : List Item) : h.Grows (h.newList items).2 :=
  ⟨by simp [newList], Nat.le_refl _⟩

theorem grows_newMap (h : Heap) (entries : Dictionary) : h.Grows (h.newMap entries).2 :=
  ⟨Nat.le_refl _, by simp [newMap]⟩

theorem grows_newHandle (h : Heap) (entity : Entity) : h.Grows (h.newHandle entity).2 :=
  ⟨Nat.le_refl _, Nat.le_refl _⟩

theorem grows_setList (h : Heap) (ref : Nat) (items : List Item) : h.Grows (h.setList ref items) :=
  ⟨by simp [setList], Nat.le_refl _⟩

theorem grows_setMap (h : Heap) (ref : Nat) (entries : Dictionary) : h.Grows (h.setMap ref entries) :=
  ⟨Nat.le_refl _, by simp [setMap]⟩

theorem Grows.has {h k : Heap} {cell : CellId} (hgrows : h.Grows k) (hcell : h.Has cell) : k.Has cell := by
  cases cell with
  | list ref => exact Nat.lt_of_lt_of_le hcell hgrows.lists
  | map ref => exact Nat.lt_of_lt_of_le hcell hgrows.maps

end Heap

/-- The byte strings of no fixed length that scripts can read of an entity. -/
def Entity.byteStrings : Entity → List Bytes
  | .block b => b.transactions.flatMap fun tx => tx.attributes.map (·.data)
  | .transaction tx => tx.attributes.map (·.data)
  | .txAttribute a => [a.data]
  | .account a => a.votes
  | .asset a => [a.owner]
  | .contract c => [c.script]
  | .validator v => [v.publicKey]
  | .header _ | .input _ | .output _ | .storageContext _ => []

namespace Bounds

variable {b : Bounds}

/-- What scripts can read of an entity is within bounds. -/
structure Covers (b : Bounds) (entity : Entity) : Prop where
  bytes : ∀ bytes ∈ entity.byteStrings, b.bytes bytes
  votes : ∀ account, entity = .account account → b.lengths account.votes.length

/-- The item is within bounds, and what it refers to was made. -/
def Holds (b : Bounds) (h : Heap) : Item → Prop
  | .boolean _ => True
  | .integer value => b.integers value
  | .byteArray bytes => b.bytes bytes
  | .array ref | .struct ref => b.cells (.list ref) ∧ ref < h.lists.size
  | .map ref => b.cells (.map ref) ∧ ref < h.maps.size
  | .interface handle => b.Covers handle.entity

/-- The collections that may be referred to are within bounds, and those that are yet to be made are among them. -/
structure HoldsHeap (b : Bounds) (h : Heap) : Prop where
  inside : ∀ cell, b.cells cell → ∀ item ∈ h.contents cell, b.Holds h item
  extent : ∀ cell, b.cells cell → b.lengths (h.extent cell)
  made : ∀ cell, ¬h.Has cell → b.cells cell
  nesting : b.acyclic → ∀ ref, b.cells (.list ref) → Acc h.Contains ref

section Covers

variable {block : Block} {tx : Transaction} {a : Attribute}

theorem Covers.transaction (hblock : b.Covers (.block block)) (htx : tx ∈ block.transactions) :
    b.Covers (.transaction tx) where
  bytes bytes hbytes := hblock.bytes bytes (List.mem_flatMap.2 ⟨tx, htx, hbytes⟩)
  votes := nofun

theorem Covers.attribute (htx : b.Covers (.transaction tx)) (ha : a ∈ tx.attributes) : b.Covers (.txAttribute a) where
  bytes bytes hbytes := by
    rw [List.mem_singleton.1 hbytes]
    exact htx.bytes a.data (List.mem_map_of_mem ha)
  votes := nofun

theorem covers_header (header : Header) : b.Covers (.header header) := ⟨nofun, nofun⟩

theorem covers_input (input : Input) : b.Covers (.input input) := ⟨nofun, nofun⟩

theorem covers_output (output : Output) : b.Covers (.output output) := ⟨nofun, nofun⟩

theorem covers_context (context : StorageContext) : b.Covers (.storageContext context) := ⟨nofun, nofun⟩

end Covers

section Holds

variable {h k : Heap} {item : Item}

theorem Holds.mono (hitem : b.Holds h item) (hgrows : h.Grows k) : b.Holds k item := by
  cases item with
  | array ref | struct ref => exact ⟨hitem.1, Nat.lt_of_lt_of_le hitem.2 hgrows.lists⟩
  | map ref => exact ⟨hitem.1, Nat.lt_of_lt_of_le hitem.2 hgrows.maps⟩
  | boolean _ => trivial
  | integer _ | byteArray _ | interface _ => exact hitem

theorem Holds.cell (hitem : b.Holds h item) {cell : CellId} (hcell : item.cell? = some cell) :
    b.cells cell ∧ h.Has cell := by
  cases item with
  | array ref | struct ref | map ref =>
    cases hcell
    exact hitem
  | boolean _ | integer _ | byteArray _ | interface _ => cases hcell

/-- What can be reached from items within bounds is within bounds. -/
theorem HoldsHeap.reaches (hh : b.HoldsHeap h) {items : List Item} (hitems : ∀ item ∈ items, b.Holds h item)
    (hitem : h.Reaches items item) : b.Holds h item := by
  induction hitem with
  | root hitem => exact hitems _ hitem
  | inside _ hcell hother ih => exact hh.inside _ (ih.cell hcell).1 _ hother

theorem HoldsHeap.resolves (hh : b.HoldsHeap h) {items : List Item} (hitems : ∀ item ∈ items, b.Holds h item) :
    h.Resolves items := by
  rintro cell ⟨item, hitem, hcell⟩
  exact ((hh.reaches hitems hitem).cell hcell).2

end Holds

/-! ### What a run is given -/

section Given

/-- The item by itself is within bounds, whatever it refers to. -/
def Passes (b : Bounds) : Item → Prop
  | .integer value => b.integers value
  | .byteArray bytes => b.bytes bytes
  | .interface handle => b.Covers handle.entity
  | .boolean _ | .array _ | .struct _ | .map _ => True

/-- What can be reached from the items is within bounds, and none of it leads nowhere. -/
structure HoldsGiven (b : Bounds) (h : Heap) (items : List Item) : Prop where
  resolves : h.Resolves items
  passes : ∀ item, h.Reaches items item → b.Passes item
  extent : ∀ cell, h.ReachesCell items cell → b.lengths (h.extent cell)
  nesting : b.acyclic → h.Acyclic items

/-- The bounds with the collections that the items lead to, and those that are yet to be made. -/
def given (b : Bounds) (h : Heap) (items : List Item) : Bounds :=
  { b with cells := fun cell => h.ReachesCell items cell ∨ ¬h.Has cell }

variable {h : Heap} {items : List Item}

theorem Covers.given {entity : Entity} (hentity : b.Covers entity) : (b.given h items).Covers entity :=
  ⟨hentity.bytes, hentity.votes⟩

theorem HoldsGiven.holds (hgiven : b.HoldsGiven h items) {item : Item} (hitem : h.Reaches items item) :
    (b.given h items).Holds h item := by
  cases item with
  | array ref | struct ref => exact ⟨.inl ⟨_, hitem, rfl⟩, hgiven.resolves (.list ref) ⟨_, hitem, rfl⟩⟩
  | map ref => exact ⟨.inl ⟨_, hitem, rfl⟩, hgiven.resolves (.map ref) ⟨_, hitem, rfl⟩⟩
  | boolean _ => trivial
  | integer _ | byteArray _ => exact hgiven.passes _ hitem
  | interface handle => exact Covers.given (hgiven.passes _ hitem)

theorem HoldsGiven.holdsHeap (hgiven : b.HoldsGiven h items) (hnone : b.lengths 0) :
    (b.given h items).HoldsHeap h where
  inside cell hcell item hitem := by
    rcases hcell with ⟨outer, houter, hcell⟩ | hnew
    · exact hgiven.holds (.inside houter hcell hitem)
    · rw [Heap.contents_of_not_has hnew] at hitem
      cases hitem
  extent cell hcell := by
    rcases hcell with hcell | hnew
    · exact hgiven.extent cell hcell
    · rw [Heap.extent_of_not_has hnew]
      exact hnone
  made cell hnew := .inr hnew
  nesting hb ref hcell := by
    rcases hcell with hcell | hnew
    · exact (hgiven.nesting hb).acc hgiven.resolves hcell
    · -- there is nothing in a list that is yet to be made
      refine .intro ref fun inner hinner => ?_
      rw [Heap.Contains, Heap.list_of_le (Nat.le_of_not_lt hnew)] at hinner
      cases hinner

end Given

/-- Anything may be, except that structs must not contain themselves if this is asked for. -/
def loose (acyclic : Prop) : Bounds where
  cells _ := True
  integers _ := True
  bytes _ := True
  lengths _ := True
  acyclic := acyclic

theorem covers_loose {acyclic : Prop} (entity : Entity) : (loose acyclic).Covers entity :=
  ⟨fun _ _ => trivial, fun _ _ => trivial⟩

theorem holdsGiven_loose {acyclic : Prop} {h : Heap} {items : List Item} (hresolves : h.Resolves items)
    (hnesting : acyclic → h.Acyclic items) : (loose acyclic).HoldsGiven h items where
  resolves := hresolves
  passes item _ := by
    cases item with
    | interface handle => exact covers_loose handle.entity
    | _ => trivial
  extent _ _ := trivial
  nesting := hnesting

/-! ### New and changed collections -/

namespace HoldsHeap

variable {h : Heap} (hh : b.HoldsHeap h)
include hh

theorem newList {items : List Item} (hitems : ∀ item ∈ items, b.Holds h item) (hlength : b.lengths items.length) :
    b.HoldsHeap (h.newList items).2 := by
  have hgrows := h.grows_newList items
  -- what is in a list of the new heap was within bounds on the old one
  have hold {ref : Nat} (href : b.cells (.list ref)) : ∀ item ∈ (h.newList items).2.list ref, b.Holds h item := by
    intro item hitem
    rw [Heap.list_newList] at hitem
    split at hitem
    · exact hitems item hitem
    · exact hh.inside (.list ref) href item hitem
  refine
    { inside := fun cell hcell item hitem => ?_
      extent := fun cell hcell => ?_
      made := fun cell hcell => hh.made cell fun hhas => hcell (hgrows.has hhas)
      nesting := fun hb ref href => ?_ }
  · refine Holds.mono ?_ hgrows
    cases cell with
    | list ref => exact hold hcell item hitem
    | map ref => exact hh.inside (.map ref) hcell item hitem
  · cases cell with
    | list ref =>
      rw [Heap.extent, Heap.list_newList]
      split
      · exact hlength
      · exact hh.extent (.list ref) hcell
    | map ref => exact hh.extent (.map ref) hcell
  · -- whatever is in a list is one of the old lists, which have not changed
    refine .intro ref fun inner hinner => ?_
    have hin : b.cells (.list inner) ∧ inner < h.lists.size := hold href _ hinner
    refine Heap.acc_of_contains (S := fun outer => b.cells (.list outer) ∧ outer < h.lists.size) ?_
      (hh.nesting hb inner hin.1) hin
    intro outer houter inner hinner
    refine ⟨?_, hold houter.1 _ hinner⟩
    unfold Heap.Contains at hinner ⊢
    rwa [Heap.list_newList, if_neg (by omega)] at hinner

theorem newMap (hnone : b.lengths 0) : b.HoldsHeap (h.newMap []).2 := by
  have hgrows := h.grows_newMap []
  refine
    { inside := fun cell hcell item hitem => Holds.mono ?_ hgrows
      extent := fun cell hcell => ?_
      made := fun cell hcell => hh.made cell fun hhas => hcell (hgrows.has hhas)
      nesting := hh.nesting }
  · cases cell with
    | list ref => exact hh.inside (.list ref) hcell item hitem
    | map ref =>
      rw [Heap.contents, Heap.map_newMap] at hitem
      split at hitem
      · simp [Dictionary.items] at hitem
      · exact hh.inside (.map ref) hcell item hitem
  · cases cell with
    | list ref => exact hh.extent (.list ref) hcell
    | map ref =>
      rw [Heap.extent, Heap.map_newMap]
      split
      · exact hnone
      · exact hh.extent (.map ref) hcell

theorem newHandle (entity : Entity) : b.HoldsHeap (h.newHandle entity).2 :=
  ⟨hh.inside, hh.extent, hh.made, hh.nesting⟩

/-- A list may be given items that it had, and others that are no structs or such as were made from a mark on behind
which nothing leads back to the list. -/
theorem setList {ref mark : Nat} {items : List Item} (hsealed : h.Sealed mark) (hmark : ref < mark)
    (hcell : b.cells (.list ref)) (hitems : ∀ item ∈ items, item ∈ h.list ref ∨ b.Holds h item ∧ item.Above mark)
    (hlength : b.lengths items.length) : b.HoldsHeap (h.setList ref items) := by
  have hgrows := h.grows_setList ref items
  refine
    { inside := fun cell hin item hitem => Holds.mono ?_ hgrows
      extent := fun cell hin => ?_
      made := fun cell hcell => hh.made cell fun hhas => hcell (hgrows.has hhas)
      nesting := fun hb other hother => ?_ }
  · cases cell with
    | list other =>
      rw [Heap.contents, Heap.list_setList] at hitem
      split at hitem
      · rcases hitems item hitem with hold | ⟨hnew, -⟩
        · exact hh.inside (.list ref) hcell item hold
        · exact hnew
      · exact hh.inside (.list other) hin item hitem
    | map other => exact hh.inside (.map other) hin item hitem
  · cases cell with
    | list other =>
      rw [Heap.extent, Heap.list_setList]
      split
      · exact hlength
      · exact hh.extent (.list other) hin
    | map other => exact hh.extent (.map other) hin
  · refine Heap.acc_setList hsealed hmark (fun inner hinner => ?_) (hh.nesting hb other hother)
    rcases hitems _ hinner with hold | ⟨hnew, habove⟩
    · exact .inl hold
    · exact .inr ⟨habove inner rfl, hh.nesting hb inner hnew.1⟩

/-- A list may be given items that it had. -/
theorem setList_of_subset {ref : Nat} {items : List Item} (hcell : b.cells (.list ref)) (hin : ref < h.lists.size)
    (hitems : ∀ item ∈ items, item ∈ h.list ref) (hlength : b.lengths items.length) :
    b.HoldsHeap (h.setList ref items) :=
  hh.setList h.sealed_size hin hcell (fun item hitem => .inl (hitems item hitem)) hlength

theorem setMap {ref : Nat} {entries : Dictionary} (hitems : ∀ item ∈ entries.items, b.Holds h item)
    (hlength : b.lengths entries.length) : b.HoldsHeap (h.setMap ref entries) := by
  have hgrows := h.grows_setMap ref entries
  refine
    { inside := fun cell hin item hitem => Holds.mono ?_ hgrows
      extent := fun cell hin => ?_
      made := fun cell hcell => hh.made cell fun hhas => hcell (hgrows.has hhas)
      nesting := hh.nesting }
  · cases cell with
    | list other => exact hh.inside (.list other) hin item hitem
    | map other =>
      rw [Heap.contents, Heap.map_setMap] at hitem
      split at hitem
      · exact hitems item hitem
      · exact hh.inside (.map other) hin item hitem
  · cases cell with
    | list other => exact hh.extent (.list other) hin
    | map other =>
      rw [Heap.extent, Heap.map_setMap]
      split
      · exact hlength
      · exact hh.extent (.map other) hin

end HoldsHeap

/-! ### Copies -/

section Copies

variable {h k l : Heap} {item copy : Item}

/-- A heap that was only added to. -/
structure Copied (b : Bounds) (h k : Heap) : Prop where
  grows : h.Grows k
  holds : b.HoldsHeap k
  same : ∀ ref < h.lists.size, k.list ref = h.list ref
  closed : ∀ mark ≤ h.lists.size, h.Sealed mark → k.Sealed mark

theorem Copied.refl (hh : b.HoldsHeap h) : b.Copied h h := ⟨.refl h, hh, fun _ _ => rfl, fun _ _ => id⟩

theorem Copied.trans (hk : b.Copied h k) (kl : b.Copied k l) : b.Copied h l where
  grows := hk.grows.trans kl.grows
  holds := kl.holds
  same ref href := (kl.same ref (Nat.lt_of_lt_of_le href hk.grows.lists)).trans (hk.same ref href)
  closed mark hmark hsealed :=
    kl.closed mark (Nat.le_trans hmark hk.grows.lists) (hk.closed mark hmark hsealed)

theorem Copied.newList {items : List Item} (hk : b.Copied h k) (hitems : ∀ item ∈ items, b.Holds k item)
    (habove : ∀ item ∈ items, item.Above h.lists.size) (hlength : b.lengths items.length) :
    b.Copied h (k.newList items).2 where
  grows := hk.grows.trans (k.grows_newList items)
  holds := hk.holds.newList hitems hlength
  same ref href := by
    have hlt := Nat.lt_of_lt_of_le href hk.grows.lists
    rw [Heap.list_newList, if_neg (by omega), hk.same ref href]
  closed mark hmark hsealed := by
    refine (hk.closed mark hmark hsealed).newList fun item hitem ref href => ?_
    exact Nat.le_trans hmark (habove item hitem ref href)

/-- Copying keeps a heap within bounds, and the structs it makes are new. -/
theorem copyLaw_copied (b : Bounds) (h : Heap) :
    Heap.CopyLaw (b.Copied h) Heap.Grows b.Holds fun k _ copy => b.Holds k copy ∧ copy.Above h.lists.size where
  refl := .refl
  trans := .trans
  pre_mono hgrows hitem := hitem.mono hgrows
  post_mono _ hgrows hcopy := ⟨hcopy.1.mono hgrows, hcopy.2⟩
  shared hitem hholds := ⟨hholds, fun ref href => absurd href (hitem ref)⟩
  inside hk hstruct := hk.holds.inside (.list _) hstruct.1
  made hk hstruct hl _ hcopies := by
    have hall := Heap.forall_of_forall₂ hcopies
    have hlength := hk.holds.extent (.list _) hstruct.1
    rw [Heap.extent, hcopies.length_eq] at hlength
    refine ⟨hl.newList (fun copy hcopy => (hall copy hcopy).1) (fun copy hcopy => (hall copy hcopy).2) hlength,
      Heap.grows_newList _ _, ⟨?_, ?_⟩, ?_⟩
    · exact hl.holds.made _ (Nat.lt_irrefl _)
    · simp [Heap.newList]
    · rintro new ⟨⟩
      exact hl.grows.lists

private theorem copied_copyWithin (depth : Nat) (hh : b.HoldsHeap h) (hitem : b.Holds h item)
    (hrun : Heap.copyWithin depth item h = some (copy, k)) :
    b.Copied h k ∧ b.Holds k copy ∧ copy.Above h.lists.size := by
  obtain ⟨hcopied, -, hcopy⟩ := (b.copyLaw_copied h).of_copyWithin depth item h copy k (.refl hh) hitem hrun
  exact ⟨hcopied, hcopy⟩

/-- A copy is within bounds, and if it is a struct, it leads to none of the structs that there were. -/
theorem HoldsHeap.duplicate (hh : b.HoldsHeap h) (hitem : b.Holds h item) (hrun : h.duplicate item = .ok (copy, k)) :
    b.Copied h k ∧ b.Holds k copy ∧ copy.Above h.lists.size := by
  obtain ⟨hcopied, -, hcopy⟩ := (b.copyLaw_copied h).of_duplicate (.refl hh) hitem hrun
  exact ⟨hcopied, hcopy⟩

end Copies

/-! ### Copying and comparing end -/

section Ends

variable {h k : Heap} {item : Item}

private theorem mapM_none {f : Item → StateT Heap Option Item} {items : List Item}
    (hf : ∀ item ∈ items, ∀ k copy l, b.Copied h k → f item k = some (copy, l) → b.Copied h l) (hk : b.Copied h k)
    (hrun : items.mapM f k = none) : ∃ item ∈ items, ∃ l, b.Copied h l ∧ f item l = none := by
  induction items generalizing k with
  | nil => cases hrun
  | cons item items ih =>
    rw [List.mapM_cons] at hrun
    cases hfirst : f item k with
    | none => exact ⟨item, List.mem_cons_self, k, hk, hfirst⟩
    | some result =>
      obtain ⟨copy, l⟩ := result
      have hl := hf item List.mem_cons_self k copy l hk hfirst
      have hrest : items.mapM f l = none := by
        cases hrest : items.mapM f l with
        | none => rfl
        | some others =>
          have hsome : (do let x ← f item; let xs ← items.mapM f; pure (x :: xs) : StateT Heap Option _) k =
              some (copy :: others.1, others.2) := by
            simp only [bind, StateT.bind, hfirst, hrest, Option.bind_some]
            rfl
          rw [hsome] at hrun
          cases hrun
      obtain ⟨other, hother, found⟩ :=
        ih (fun other hother => hf other (List.mem_cons_of_mem item hother)) hl hrest
      exact ⟨other, List.mem_cons_of_mem item hother, found⟩

/-- Copying runs out of depth only along a path of more structs. -/
private theorem descends_of_copyWithin (depth : Nat) : ∀ item k, b.Copied h k → b.HoldsHeap h → b.Holds h item →
    Heap.copyWithin depth item k = none → ∃ path, h.Descends path item ∧ depth < path.length := by
  induction depth with
  | zero =>
    intro item k _ _ _ hrun
    cases item with
    | struct ref => exact ⟨[ref], .here ref, Nat.zero_lt_one⟩
    | _ => cases hrun
  | succ depth ih =>
    intro item k hk hh hitem hrun
    cases item with
    | struct ref =>
      have hcopies : (k.list ref).mapM (Heap.copyWithin depth) k = none := by
        cases hcopies : (k.list ref).mapM (Heap.copyWithin depth) k with
        | none => rfl
        | some copies =>
          have hsome : Heap.copyWithin (depth + 1) (.struct ref) k =
              some (.struct copies.2.lists.size, (copies.2.newList copies.1).2) := by
            simp only [Heap.copyWithin, bind, StateT.bind, get, getThe, MonadStateOf.get, StateT.get, hcopies, pure,
              Option.bind_some]
            rfl
          rw [hsome] at hrun
          cases hrun
      rw [hk.same ref hitem.2] at hcopies
      have hinside := hh.inside (.list ref) hitem.1
      obtain ⟨inner, hinner, l, hl, hnone⟩ := mapM_none (fun inner hinner k copy l hk hrun => by
        exact hk.trans (copied_copyWithin depth hk.holds ((hinside inner hinner).mono hk.grows) hrun).1)
        hk hcopies
      obtain ⟨path, hpath, hlong⟩ := ih inner l hl hh (hinside inner hinner) hnone
      exact ⟨ref :: path, .inside hinner hpath, Nat.succ_lt_succ hlong⟩
    | _ => cases hrun

/-- A check of all members of a list ends in a member on which it does not end, in one of which it does not hold, or
holds of them all. -/
theorem allM_cases {α : Type} (f : α → Option Bool) (xs : List α) :
    (xs.allM f = none ∧ ∃ x ∈ xs, f x = none) ∨ (xs.allM f = some false ∧ ∃ x ∈ xs, f x = some false) ∨
      (xs.allM f = some true ∧ ∀ x ∈ xs, f x = some true) := by
  induction xs with
  | nil => exact .inr (.inr ⟨rfl, by simp⟩)
  | cons x xs ih =>
    rw [List.allM]
    cases hfirst : f x with
    | none => exact .inl ⟨rfl, x, List.mem_cons_self, hfirst⟩
    | some answer =>
      cases answer with
      | false => exact .inr (.inl ⟨rfl, x, List.mem_cons_self, hfirst⟩)
      | true =>
        rcases ih with ⟨hall, y, hy, hnone⟩ | ⟨hall, y, hy, hno⟩ | ⟨hall, hyes⟩
        · exact .inl ⟨hall, y, List.mem_cons_of_mem x hy, hnone⟩
        · exact .inr (.inl ⟨hall, y, List.mem_cons_of_mem x hy, hno⟩)
        · exact .inr (.inr ⟨hall, List.forall_mem_cons.2 ⟨hfirst, hyes⟩⟩)

theorem allM_none {α : Type} {f : α → Option Bool} {xs : List α} (hrun : xs.allM f = none) :
    ∃ x ∈ xs, f x = none := by
  rcases allM_cases f xs with ⟨-, hnone⟩ | ⟨hall, -⟩ | ⟨hall, -⟩
  · exact hnone
  · rw [hall] at hrun
    cases hrun
  · rw [hall] at hrun
    cases hrun

/-- Comparing runs out of depth only along a path of more structs. -/
private theorem descends_of_equalWithin (depth : Nat) : ∀ x y, h.equalWithin depth x y = none →
    ∃ path, h.Descends path x ∧ depth < path.length := by
  induction depth with
  | zero =>
    intro x y hrun
    unfold Heap.equalWithin at hrun
    split at hrun
    · exact ⟨_, .here _, Nat.zero_lt_one⟩
    · rename_i heq
      cases heq
    · cases hrun
  | succ depth ih =>
    intro x y hrun
    unfold Heap.equalWithin at hrun
    split at hrun
    · rename_i heq
      cases heq
    · rename_i depth' a c heq
      cases heq
      split at hrun
      · cases hrun
      · dsimp only at hrun
        split at hrun
        · obtain ⟨⟨first, second⟩, hmem, hnone⟩ := allM_none hrun
          obtain ⟨path, hpath, hlong⟩ := ih first second hnone
          exact ⟨a :: path, .inside (List.of_mem_zip hmem).1 hpath, Nat.succ_lt_succ hlong⟩
        · cases hrun
    · cases hrun

namespace HoldsHeap

variable (hh : b.HoldsHeap h) (hb : b.acyclic)
include hh hb

/-- A path of structs is no longer than there are lists, if no struct contains itself. -/
theorem length_le {path : List Nat} (hpath : h.Descends path item) (hitem : b.Holds h item) :
    path.length ≤ h.lists.size := by
  refine hpath.length_le (P := b.Holds h) (fun ref href => ?_) hitem
  exact ⟨href.2, hh.nesting hb ref href.1, hh.inside (.list ref) href.1⟩

theorem duplicate_ends (hitem : b.Holds h item) : ∃ copy k, h.duplicate item = .ok (copy, k) := by
  unfold Heap.duplicate
  cases hrun : (Heap.copyWithin h.lists.size item).run h with
  | some result => exact ⟨result.1, result.2, rfl⟩
  | none =>
    obtain ⟨path, hpath, hlong⟩ := descends_of_copyWithin h.lists.size item h (.refl hh) hh hitem hrun
    exact absurd (hh.length_le hb hpath hitem) (Nat.not_le_of_lt hlong)

theorem equal_ends (hitem : b.Holds h item) (other : Item) : ∃ answer, h.equal item other = .ok answer := by
  unfold Heap.equal
  cases hrun : h.equalWithin (h.lists.size * h.lists.size) item other with
  | some answer => exact ⟨answer, rfl⟩
  | none =>
    obtain ⟨path, hpath, hlong⟩ := descends_of_equalWithin _ item other hrun
    have hshort := hh.length_le hb hpath hitem
    have hsquare : h.lists.size ≤ h.lists.size * h.lists.size := Nat.le_mul_self _
    omega

end HoldsHeap
end Ends

end Bounds
end LedgerVM
