import LedgerVM.Proofs.Machine.Bounds
import LedgerVM.Proofs.Machine.Serving

/-!
# How large collections and byte strings get

Where scripts make collections and join byte strings, and where services list what is in a block or a transaction, the
limits are checked.  Where services list validators and votes, and where they read byte strings of the ledger and the
store, they are not.  So collections and byte strings stay as small as the limits and all that can be read there
(`Machine.collections_bounded`, `Machine.byteStrings_bounded`).
-/

namespace LedgerVM

namespace Bounds

variable {setting : Setting} {count size : Nat}

/-- Collections of at most this many elements. -/
def counted (count : Nat) : Bounds := { loose False with lengths := (· ≤ count) }

/-- Byte strings of at most this many bytes, and integers as they come from scripts. -/
def sized (size : Nat) : Bounds :=
  { loose False with
    integers := fun value => (Bytes.ofInt value).length ≤ Item.integerBytes
    bytes := fun bytes => bytes.length ≤ size }

theorem covers_counted {entity : Entity}
    (hvotes : ∀ account, entity = .account account → account.votes.length ≤ count) : (counted count).Covers entity :=
  ⟨fun _ _ => trivial, hvotes⟩

theorem suits_counted (hlimit : setting.limits.arraySize ≤ count)
    (hvalidators : ∀ validators, setting.ledger.validators = .ok validators → validators.length ≤ count)
    (hvotes : ∀ hash account, setting.ledger.account hash = .ok (some account) → account.votes.length ≤ count) :
    (counted count).Suits setting where
  narrow _ _ := trivial
  encoded _ _ := trivial
  short _ _ := trivial
  literal _ _ := trivial
  part _ _ _ _ := trivial
  count _ hn := Nat.le_trans hn hlimit
  fewer _ _ hmn hn := Nat.le_trans hmn hn
  offered entity hoffered := by
    refine covers_counted ?_
    rintro account rfl
    obtain ⟨hash, haccount⟩ := hoffered
    exact hvotes hash account haccount
  validators := hvalidators
  container _ _ := covers_counted nofun
  store _ _ _ := trivial

theorem covers_sized {entity : Entity} (hbytes : ∀ bytes ∈ entity.byteStrings, bytes.length ≤ size) :
    (sized size).Covers entity := ⟨hbytes, fun _ _ => trivial⟩

theorem suits_sized (hsmall : Item.integerBytes ≤ size) (hlimit : setting.limits.itemSize ≤ size)
    (hledger : ∀ entity, setting.ledger.Offers entity → ∀ bytes ∈ entity.byteStrings, bytes.length ≤ size)
    (hcontainer : ∀ tx ∈ setting.transaction, ∀ bytes ∈ (Entity.transaction tx).byteStrings, bytes.length ≤ size)
    (hstore : ∀ key value, setting.store.get key = .ok (some value) → value.length ≤ size) :
    (sized size).Suits setting where
  narrow _ hn := hn
  encoded _ hn := Nat.le_trans hn hsmall
  short _ hn := Nat.le_trans hn hsmall
  literal _ hn := Nat.le_trans hn hlimit
  part _ _ hpart hn := Nat.le_trans hpart.length_le hn
  count _ _ := trivial
  fewer _ _ _ _ := trivial
  offered entity hoffered := covers_sized (hledger entity hoffered)
  validators _ _ := trivial
  container tx htx := covers_sized (hcontainer tx htx)
  store := hstore

end Bounds

namespace Machine

variable {setting : Setting} {m start : Machine} {script : Bytes} {entry : Nat} {arguments : List Item} {heap : Heap}
  {calls : List DebugCall}

/-- No collection that can be reached from a machine has more elements than the limit, the ledger's lists of validators
and votes and the arguments of the run have. -/
theorem collections_bounded {count : Nat} (hlimit : setting.limits.arraySize ≤ count)
    (hvalidators : ∀ validators, setting.ledger.validators = .ok validators → validators.length ≤ count)
    (hvotes : ∀ hash account, setting.ledger.account hash = .ok (some account) → account.votes.length ≤ count)
    (hresolves : heap.Resolves arguments)
    (hcollections : ∀ cell, heap.ReachesCell arguments cell → heap.extent cell ≤ count)
    (haccounts : ∀ account origin, heap.Reaches arguments (.interface ⟨.account account, origin⟩) →
      account.votes.length ≤ count)
    (hload : load setting.limits script entry arguments (initial setting.limits heap) = .ok () start)
    (hdebug : start.debug setting calls = some m) :
    ∀ cell, m.calls.heap.ReachesCell m.retained cell → m.calls.heap.extent cell ≤ count := by
  have hgiven : (Bounds.counted count).HoldsGiven heap arguments := by
    refine ⟨hresolves, fun item hitem => ?_, hcollections, False.elim⟩
    cases item with
    | interface handle =>
      obtain ⟨entity, origin⟩ := handle
      refine Bounds.covers_counted ?_
      rintro account rfl
      exact haccounts account origin hitem
    | _ => trivial
  rintro cell ⟨item, hitem, hcell⟩
  obtain ⟨hheap, hitem⟩ := holds_of_debug (Bounds.suits_counted hlimit hvalidators hvotes) hgiven hload hdebug hitem
  exact hheap.extent cell (hitem.cell hcell).1

/-- A setting in which arrays may have one element, with a ledger of two validators. -/
def crowded : Setting :=
  { Setting.blank with
    limits := { arraySize := 1 }
    ledger := .available { validators := [⟨[2], true, 0⟩, ⟨[3], true, 0⟩] } }

/-- A script that asks for the validators gets both of them, though arrays may have one element. -/
theorem validators_exceed_limit : ∃ m,
    (ofScript crowded.limits [0x68, 4, 0xEB, 0x02, 0x98, 0x1B]).debug crowded [.execute 8] = some m ∧
      m.status = .halted ∧ m.calls.heap.ReachesCell m.retained (.list 0) ∧
      crowded.limits.arraySize < m.calls.heap.extent (.list 0) ∧
      ∀ cell, m.calls.heap.ReachesCell m.retained cell → m.calls.heap.extent cell ≤ 2 := by
  have hends : ((ofScript crowded.limits [0x68, 4, 0xEB, 0x02, 0x98, 0x1B]).debug crowded [.execute 8]).map
      (fun m => (m.status, m.results.map Item.cell?, m.calls.heap.extent (.list 0))) =
        some (.halted, [some (.list 0)], 2) := by
    rw [debug_execute, execute_eq_runListed]
    decide +kernel
  obtain ⟨m, hdebug, hm⟩ := Option.map_eq_some_iff.1 hends
  obtain ⟨hstatus, hm⟩ := Prod.mk.inj hm
  obtain ⟨hresults, hextent⟩ := Prod.mk.inj hm
  have hload := load_ofScript [0x68, 4, 0xEB, 0x02, 0x98, 0x1B] (show 0 < crowded.limits.callDepth by decide)
  have hvalidators : ∀ validators, crowded.ledger.validators = .ok validators → validators.length ≤ 2 := by
    rintro validators ⟨⟩
    exact Nat.le_refl 2
  have hvotes : ∀ hash account, crowded.ledger.account hash = .ok (some account) → account.votes.length ≤ 2 := by
    intro hash account haccount
    simp [crowded, Ledger.account, Ledger.read] at haccount
  have hbounded := collections_bounded (by decide) hvalidators hvotes
    (Heap.resolves_nil _) (fun cell ⟨item, hitem, _⟩ => absurd hitem Heap.not_reaches_nil)
    (fun account origin hitem => absurd hitem Heap.not_reaches_nil) hload hdebug
  obtain ⟨item, hitem, hcell⟩ : ∃ item ∈ m.results, item.cell? = some (.list 0) := by
    have hmem : some (CellId.list 0) ∈ m.results.map Item.cell? := hresults ▸ List.mem_cons_self
    exact List.mem_map.1 hmem
  have hretained : item ∈ m.retained := List.mem_append_left _ (List.mem_append_right _ hitem)
  refine ⟨m, hdebug, hstatus, ⟨item, .root hretained, hcell⟩, ?_, hbounded⟩
  rw [hextent]
  decide

/-- No byte string that can be reached from a machine is longer than the limit, what scripts can read of the ledger, the
store and the transaction that the run serves, and the arguments of the run. -/
theorem byteStrings_bounded {size : Nat} (hsmall : Item.integerBytes ≤ size) (hlimit : setting.limits.itemSize ≤ size)
    (hledger : ∀ entity, setting.ledger.Offers entity → ∀ bytes ∈ entity.byteStrings, bytes.length ≤ size)
    (hcontainer : ∀ tx ∈ setting.transaction, ∀ bytes ∈ (Entity.transaction tx).byteStrings, bytes.length ≤ size)
    (hstore : ∀ key value, setting.store.get key = .ok (some value) → value.length ≤ size)
    (hresolves : heap.Resolves arguments)
    (hbytes : ∀ bytes, heap.Reaches arguments (.byteArray bytes) → bytes.length ≤ size)
    (hintegers : ∀ value, heap.Reaches arguments (.integer value) → (Bytes.ofInt value).length ≤ Item.integerBytes)
    (hhandles : ∀ handle, heap.Reaches arguments (.interface handle) →
      ∀ bytes ∈ handle.entity.byteStrings, bytes.length ≤ size)
    (hload : load setting.limits script entry arguments (initial setting.limits heap) = .ok () start)
    (hdebug : start.debug setting calls = some m) :
    ∀ bytes, m.calls.heap.Reaches m.retained (.byteArray bytes) → bytes.length ≤ size := by
  have hgiven : (Bounds.sized size).HoldsGiven heap arguments := by
    refine ⟨hresolves, fun item hitem => ?_, fun _ _ => trivial, False.elim⟩
    cases item with
    | integer value => exact hintegers value hitem
    | byteArray bytes => exact hbytes bytes hitem
    | interface handle => exact Bounds.covers_sized (hhandles handle hitem)
    | _ => trivial
  intro bytes hitem
  have hsuits := Bounds.suits_sized hsmall hlimit hledger hcontainer hstore
  exact (holds_of_debug hsuits hgiven hload hdebug hitem).2

/-- A setting in which byte strings may have 32 bytes, with a ledger of a validator with a longer key. -/
def narrow : Setting :=
  { Setting.blank with
    limits := { itemSize := 32 }
    ledger := .available { validators := [⟨List.replicate 33 2, true, 0⟩] } }

private theorem offers_narrow {entity : Entity} (hoffered : narrow.ledger.Offers entity) :
    ∀ bytes ∈ entity.byteStrings, bytes.length ≤ 33 := by
  cases entity with
  | validator validator =>
    obtain ⟨validators, hvalidators, hmem⟩ := hoffered
    cases hvalidators
    rw [List.mem_singleton.1 hmem]
    decide
  | block found =>
    obtain ⟨id, height, hfound⟩ := hoffered
    cases id <;> simp [narrow, Ledger.block, Ledger.read, Chain.block?, Chain.height?] at hfound
  | transaction tx =>
    obtain ⟨hash, place, hfound⟩ := hoffered
    simp [narrow, Ledger.transaction, Ledger.read, Chain.transaction?] at hfound
  | account account =>
    obtain ⟨hash, hfound⟩ := hoffered
    simp [narrow, Ledger.account, Ledger.read] at hfound
  | asset asset =>
    obtain ⟨id, hfound⟩ := hoffered
    simp [narrow, Ledger.asset, Ledger.read] at hfound
  | contract contract =>
    obtain ⟨hash, hfound⟩ := hoffered
    simp [narrow, Ledger.contract, Ledger.read] at hfound
  | header _ | txAttribute _ | input _ | output _ | storageContext _ => exact hoffered.elim

/-- A script that joins two byte strings it was given gets one of 32 bytes, which is all that the limit allows. -/
theorem joined_within_limit : ∃ start m,
    load narrow.limits [0x7E] 0 [.byteArray (List.replicate 16 0), .byteArray (List.replicate 16 1)]
      (initial narrow.limits {}) = .ok () start ∧
    start.debug narrow [.execute 8] = some m ∧ m.status = .halted ∧
    m.results.map Item.encoding? = [some (List.replicate 16 1 ++ List.replicate 16 0)] ∧
    ∀ bytes, m.calls.heap.Reaches m.retained (.byteArray bytes) → bytes.length ≤ 33 := by
  let arguments : List Item := [.byteArray (List.replicate 16 0), .byteArray (List.replicate 16 1)]
  have hends : ((Action.left? (load narrow.limits [0x7E] 0 arguments (initial narrow.limits {}))).map fun start =>
      (start.debug narrow [.execute 8]).map fun m => (m.status, m.results.map Item.encoding?)) =
      some (some (.halted, [some (List.replicate 16 1 ++ List.replicate 16 0)])) := by
    decide +kernel
  have hgiven : ∀ item, ({} : Heap).Reaches arguments item → ∃ bytes, item = .byteArray bytes ∧ bytes.length ≤ 33 := by
    intro item hitem
    refine hitem.forall (P := fun item => ∃ bytes, item = .byteArray bytes ∧ bytes.length ≤ 33) ?_ ?_
    · simp [arguments]
    · -- there is no collection yet
      exact fun outer houter => absurd (Heap.mem_allCells.1 houter) (by cases outer <;> exact Nat.not_lt_zero _)
  have hresolves : ({} : Heap).Resolves arguments := Heap.resolves_of_forall (by decide) (by decide)
  obtain ⟨start, hleft, hends⟩ := Option.map_eq_some_iff.1 hends
  obtain ⟨_, hload⟩ := Action.left?_eq_some.1 hleft
  obtain ⟨m, hdebug, hm⟩ := Option.map_eq_some_iff.1 hends
  obtain ⟨hstatus, hresults⟩ := Prod.mk.inj hm
  refine ⟨start, m, hload, hdebug, hstatus, hresults, ?_⟩
  refine byteStrings_bounded (by decide) (by decide) (fun entity => offers_narrow) nofun nofun hresolves ?_ ?_ ?_
    hload hdebug
  · intro bytes hitem
    obtain ⟨_, hsame, hlength⟩ := hgiven _ hitem
    cases hsame
    exact hlength
  · intro value hitem
    obtain ⟨_, hsame, -⟩ := hgiven _ hitem
    cases hsame
  · intro handle hitem
    obtain ⟨_, hsame, -⟩ := hgiven _ hitem
    cases hsame

end Machine
end LedgerVM
