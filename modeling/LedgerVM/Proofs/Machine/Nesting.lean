import LedgerVM.Proofs.Machine.Bounds

/-!
# Structs never contain themselves

Scripts can put an array into itself, and a struct into an array in that struct.  What they cannot do is to put a
struct into itself by structs alone, for what `SETITEM` and `APPEND` store is a copy.  So copying and comparing end on
whatever a machine holds, and no run faults for structs that nest without end (`Machine.nesting_ends`).
-/

namespace LedgerVM

namespace Machine

variable {setting : Setting} {m start : Machine}

/-- No struct contains itself by structs alone in what a machine retains that was given none that does. -/
theorem acyclic_of_debug {script : Bytes} {entry : Nat} {arguments : List Item} {heap : Heap} {calls : List DebugCall}
    (hresolves : heap.Resolves arguments) (hacyclic : heap.Acyclic arguments)
    (hload : load setting.limits script entry arguments (initial setting.limits heap) = .ok () start)
    (hdebug : start.debug setting calls = some m) : m.calls.heap.Acyclic m.retained := by
  have hgiven : (Bounds.loose True).HoldsGiven heap arguments := Bounds.holdsGiven_loose hresolves fun _ => hacyclic
  intro ref href
  obtain ⟨hheap, hstruct⟩ := holds_of_debug (Bounds.suits_loose setting) hgiven hload hdebug href
  exact Heap.not_transGen_of_acc (hheap.nesting trivial ref hstruct.1)

/-- However a machine is driven that was given arguments in which no struct contains itself by structs alone, none
does in what the machine retains; hence copying and comparing end there, and have never failed to. -/
theorem nesting_ends {script : Bytes} {entry : Nat} {arguments : List Item} {heap : Heap} {calls : List DebugCall}
    (hresolves : heap.Resolves arguments) (hacyclic : heap.Acyclic arguments)
    (hload : load setting.limits script entry arguments (initial setting.limits heap) = .ok () start)
    (hdebug : start.debug setting calls = some m) :
    m.calls.heap.Acyclic m.retained ∧
      (∀ item, m.calls.heap.Reaches m.retained item →
        (∃ copy k, m.calls.heap.duplicate item = .ok (copy, k)) ∧
          ∀ other, ∃ answer, m.calls.heap.equal item other = .ok answer) ∧
      m.fault ≠ some .endlessStruct := by
  have hgiven : (Bounds.loose True).HoldsGiven heap arguments := Bounds.holdsGiven_loose hresolves fun _ => hacyclic
  have hholds {item : Item} (hitem : m.calls.heap.Reaches m.retained item) :=
    holds_of_debug (Bounds.suits_loose setting) hgiven hload hdebug hitem
  refine ⟨acyclic_of_debug hresolves hacyclic hload hdebug, fun item hitem => ?_, ?_⟩
  · obtain ⟨hheap, hitem⟩ := hholds hitem
    exact ⟨hheap.duplicate_ends trivial hitem, hheap.equal_ends trivial hitem⟩
  · exact (withinBounds_of_debug (Bounds.suits_loose setting) hgiven hload hdebug).2 trivial

/-- A struct that holds an array in which it is itself. -/
def looped : Heap := { lists := #[[.array 1], [.struct 0]] }

/-- A script that was given such a struct thrice appends it to itself and compares it with a copy.  What it appends is a
copy, too, which holds the array and no struct. -/
theorem nesting_of_appended : ∃ start m,
    load Setting.blank.limits [0xC8, 0x76, 0x87] 0 [.struct 0, .struct 0, .struct 0]
      (initial Setting.blank.limits looped) = .ok () start ∧
    start.debug Setting.blank [.execute 8] = some m ∧ m.status = .halted ∧
    (m.calls.heap.list 0).map Item.cell? = [some (.list 1), some (.list 2)] ∧
    (m.calls.heap.list 2).map Item.cell? = [some (.list 1)] ∧
    m.calls.heap.Acyclic m.retained ∧ m.fault ≠ some .endlessStruct := by
  have hends : ((Action.left? (load Setting.blank.limits [0xC8, 0x76, 0x87] 0 [.struct 0, .struct 0, .struct 0]
        (initial Setting.blank.limits looped))).map fun start =>
      (start.debug Setting.blank [.execute 8]).map fun m =>
        (m.status, (m.calls.heap.list 0).map Item.cell?, (m.calls.heap.list 2).map Item.cell?)) =
      some (some (.halted, [some (.list 1), some (.list 2)], [some (.list 1)])) := by
    decide +kernel
  have hresolves : looped.Resolves [.struct 0, .struct 0, .struct 0] := Heap.resolves_of_forall (by decide) (by decide)
  have hacyclic : looped.Acyclic [.struct 0, .struct 0, .struct 0] := by
    refine Heap.acyclic_of_rank id fun inner outer hinner => ?_
    -- the one struct in a list is the first, and the list is the second
    match outer, hinner with
    | 0, hinner => simp [Heap.Contains, Heap.list, looped] at hinner
    | 1, hinner =>
      obtain rfl : inner = 0 := by simpa [Heap.Contains, Heap.list, looped] using hinner
      exact Nat.zero_lt_one
    | outer + 2, hinner => simp [Heap.Contains, Heap.list, looped] at hinner
  obtain ⟨start, hleft, hends⟩ := Option.map_eq_some_iff.1 hends
  obtain ⟨_, hload⟩ := Action.left?_eq_some.1 hleft
  obtain ⟨m, hdebug, hm⟩ := Option.map_eq_some_iff.1 hends
  obtain ⟨hstatus, hm⟩ := Prod.mk.inj hm
  obtain ⟨hfirst, hcopy⟩ := Prod.mk.inj hm
  obtain ⟨hnesting, -, hfault⟩ := nesting_ends hresolves hacyclic hload hdebug
  exact ⟨start, m, hload, hdebug, hstatus, hfirst, hcopy, hnesting, hfault⟩

end Machine
end LedgerVM
