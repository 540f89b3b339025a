import LedgerVM.Proofs.Machine.Bounds

/-!
# The range of integers

An integer item is not checked again once it was made, so every place that makes one has to keep to the range of the
two's-complement numbers of 32 bytes.  All of them do: arithmetic is checked, and sizes, counts and fields of ledger
entities fit a machine word.  So the integers of a run stay in range if those of its arguments are
(`Machine.integers_in_range`).
-/

namespace LedgerVM

/-- The range of the two's-complement numbers of 32 bytes. -/
def Item.InRange (value : Int) : Prop := -2 ^ 255 ≤ value ∧ value < 2 ^ 255

instance (value : Int) : Decidable (Item.InRange value) := inferInstanceAs (Decidable (_ ∧ _))

theorem Item.inRange_iff {value : Int} : InRange value ↔ (Bytes.ofInt value).length ≤ integerBytes := by
  have hwidth := Bytes.length_ofInt_le 31 value
  have hpow : (128 * 256 ^ 31 : Int) = 2 ^ 255 := by norm_num
  rw [hpow] at hwidth
  exact hwidth.symm

namespace Bounds

/-- Integers in range, and everything else as it may be. -/
def ranged : Bounds := { loose False with integers := Item.InRange }

theorem suits_ranged (setting : Setting) : ranged.Suits setting where
  narrow _ hwidth := Item.inRange_iff.2 hwidth
  encoded _ _ := trivial
  short _ _ := trivial
  literal _ _ := trivial
  part _ _ _ _ := trivial
  count _ _ := trivial
  fewer _ _ _ _ := trivial
  offered _ _ := ⟨fun _ _ => trivial, fun _ _ => trivial⟩
  validators _ _ := trivial
  container _ _ := ⟨fun _ _ => trivial, fun _ _ => trivial⟩
  store _ _ _ := trivial

theorem holdsGiven_ranged {heap : Heap} {arguments : List Item} (hresolves : heap.Resolves arguments)
    (hintegers : ∀ value, heap.Reaches arguments (.integer value) → Item.InRange value) :
    ranged.HoldsGiven heap arguments := by
  refine ⟨hresolves, fun item hitem => ?_, fun _ _ => trivial, False.elim⟩
  cases item with
  | integer value => exact hintegers value hitem
  | interface handle => exact ⟨fun _ _ => trivial, fun _ _ => trivial⟩
  | _ => trivial

end Bounds

namespace Machine

variable {setting : Setting} {m start : Machine} {script : Bytes} {entry : Nat} {arguments : List Item} {heap : Heap}
  {calls : List DebugCall}

/-- If the integers among the arguments of a run are in range, so is every integer that can be reached from the stacks,
slots, results and notifications of a machine on that run, and 32 bytes are enough for it. -/
theorem integers_in_range (hresolves : heap.Resolves arguments)
    (hintegers : ∀ value, heap.Reaches arguments (.integer value) → Item.InRange value)
    (hload : load setting.limits script entry arguments (initial setting.limits heap) = .ok () start)
    (hdebug : start.debug setting calls = some m) :
    ∀ value, m.calls.heap.Reaches m.retained (.integer value) →
      Item.InRange value ∧ (Bytes.ofInt value).length ≤ 32 := by
  intro value hvalue
  have hgiven := Bounds.holdsGiven_ranged hresolves hintegers
  have hrange : Item.InRange value := (holds_of_debug (Bounds.suits_ranged setting) hgiven hload hdebug hvalue).2
  exact ⟨hrange, Item.inRange_iff.1 hrange⟩

/-- A script takes the greatest integer in range out of an array and inverts its bits.  What it gets is the least. -/
theorem inverted_in_range : ∃ start m,
    load Setting.blank.limits [0x00, 0xC3, 0x83] 0 [.array 0]
      (initial Setting.blank.limits { lists := #[[.integer (2 ^ 255 - 1)]] }) = .ok () start ∧
    start.debug Setting.blank [.execute 8] = some m ∧ m.status = .halted ∧ .integer (-2 ^ 255) ∈ m.results ∧
    ∀ value, m.calls.heap.Reaches m.retained (.integer value) →
      Item.InRange value ∧ (Bytes.ofInt value).length ≤ 32 := by
  let heap : Heap := { lists := #[[.integer (2 ^ 255 - 1)]] }
  let number : Item → Option Int
    | .integer value => some value
    | _ => none
  have hends : ((Action.left? (load Setting.blank.limits [0x00, 0xC3, 0x83] 0 [.array 0]
        (initial Setting.blank.limits heap))).map fun start =>
      (start.debug Setting.blank [.execute 8]).map fun m => (m.status, m.results.map number)) =
      some (some (.halted, [some (-2 ^ 255)])) := by
    decide +kernel
  have hgiven : ∀ item, heap.Reaches [.array 0] item → item = .array 0 ∨ item = .integer (2 ^ 255 - 1) := by
    intro item hitem
    refine hitem.forall (P := fun item => item = .array 0 ∨ item = .integer (2 ^ 255 - 1)) ?_ ?_
    · simp
    · intro outer houter other hother
      have hcells : heap.allCells = {.list 0} := by decide
      rw [hcells, Finset.mem_singleton] at houter
      subst houter
      exact .inr (List.mem_singleton.1 hother)
  have hresolves : heap.Resolves [.array 0] := Heap.resolves_of_forall (by decide) (by decide)
  have hintegers : ∀ value, heap.Reaches [.array 0] (.integer value) → Item.InRange value := by
    intro value hvalue
    rcases hgiven _ hvalue with hsame | hsame
    · cases hsame
    · cases hsame
      decide
  obtain ⟨start, hleft, hends⟩ := Option.map_eq_some_iff.1 hends
  obtain ⟨_, hload⟩ := Action.left?_eq_some.1 hleft
  obtain ⟨m, hdebug, hm⟩ := Option.map_eq_some_iff.1 hends
  obtain ⟨hstatus, hresults⟩ := Prod.mk.inj hm
  obtain ⟨item, hitem, hnumber⟩ : ∃ item ∈ m.results, number item = some (-2 ^ 255) := by
    have hmem : some (-2 ^ 255) ∈ m.results.map number := hresults ▸ List.mem_cons_self
    exact List.mem_map.1 hmem
  have hleast : .integer (-2 ^ 255) ∈ m.results := by
    cases item with
    | integer value =>
      cases hnumber
      exact hitem
    | _ => cases hnumber
  exact ⟨start, m, hload, hdebug, hstatus, hleast, integers_in_range hresolves hintegers hload hdebug⟩

end Machine
end LedgerVM
