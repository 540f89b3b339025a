import LedgerVM.Proofs.Item.Tally
import LedgerVM.Proofs.Machine.Bounds

/-!
# The size of a machine

The size that every step checks is the number of items on the stacks, in the slots and among the results, each static
slot counted once, and the contents of every collection that these lead to, each counted once (`Machine.size_exact`).
It does not matter in which order and in which batches they are counted.  All this takes is that no reference which the
machine holds leads nowhere (`Machine.Resolves`), and no run makes such a reference (`Machine.resolves_of_debug`).
-/

namespace LedgerVM

private theorem nodup_eraseDups (refs : List Nat) : refs.eraseDups.Nodup := by
  induction hlength : refs.length using Nat.strong_induction_on generalizing refs with
  | _ length ih =>
    cases refs with
    | nil => simp
    | cons ref refs =>
      rw [List.eraseDups_cons, List.nodup_cons]
      constructor
      · simp
      · refine ih (refs.filter fun other => !other == ref).length ?_ _ rfl
        have hfewer := List.length_filter_le (fun other => !other == ref) refs
        rw [List.length_cons] at hlength
        omega

private theorem sum_eraseDups (f : Nat → Nat) (refs : List Nat) :
    (refs.eraseDups.map f).sum = ∑ ref ∈ refs.toFinset, f ref := by
  have hsame : refs.eraseDups.toFinset = refs.toFinset := by
    ext ref
    simp
  rw [← hsame, List.sum_toFinset f (nodup_eraseDups refs)]

/-- The number of items in a static slot. -/
def CallStack.slotSize (c : CallStack) (ref : Nat) : Nat := ((c.statics.getD ref none).getD []).length

/-- The number of items on the stacks and in the slots of a frame, without its static slot. -/
def Frame.size (f : Frame) : Nat :=
  f.stack.length + f.alt.length + (f.locals.getD []).length + (f.arguments.getD []).length

theorem Frame.length_items (f : Frame) : f.items.length = f.size := by
  simp only [items, size, List.length_append]

theorem CallStack.length_items (c : CallStack) :
    c.items.length = (c.frames.map Frame.size).sum + ∑ ref ∈ (c.frames.map Frame.statics).toFinset, c.slotSize ref := by
  have hframes : (c.frames.flatMap Frame.items).length = (c.frames.map Frame.size).sum := by
    rw [List.length_flatMap]
    simp only [Frame.length_items]
  have hstatics : c.staticItems.length = ∑ ref ∈ (c.frames.map Frame.statics).toFinset, c.slotSize ref := by
    rw [staticItems, List.length_flatMap, ← sum_eraseDups]
    rfl
  rw [items, List.length_append, hframes, hstatics]

namespace Machine

variable {setting : Setting} {m n start : Machine}

/-! ### No reference leads nowhere -/

/-- Every reference that the machine holds leads to a collection. -/
def Resolves (m : Machine) : Prop := m.calls.heap.Resolves m.held

/-- What a machine holds besides are byte strings that are to be written. -/
theorem mem_held_of_has {item : Item} (hitem : Holder.Has m item) :
    item ∈ m.held ∨ ∃ value, item = .byteArray value := by
  simp only [held, List.mem_append, List.mem_flatMap, List.mem_map]
  rcases hitem with (⟨frame, hframe, hitem⟩ | ⟨values, hvalues, hitem⟩) | hitem |
    ⟨announced, hannounced, rfl⟩ | ⟨key, value, -, rfl⟩
  · exact .inl (.inl (.inl (.inl ⟨frame, hframe, hitem⟩)))
  · exact .inl (.inl (.inl (.inr ⟨some values, Array.mem_toList_iff.2 hvalues, hitem⟩)))
  · exact .inl (.inl (.inr hitem))
  · exact .inl (.inr ⟨announced, hannounced, rfl⟩)
  · exact .inr ⟨value, rfl⟩

theorem resolves_of_fits {b : Bounds} (hfits : b.Fits m) : m.Resolves :=
  hfits.heap.resolves fun item hitem => hfits.items item (has_of_mem_held hitem)

/-- What a machine holds is all that it was given, as far as a step goes. -/
theorem Resolves.fits (hm : m.Resolves) : ((Bounds.loose False).given m.calls.heap m.held).Fits m := by
  have hgiven := Bounds.holdsGiven_loose hm False.elim
  refine ⟨hgiven.holdsHeap trivial, fun item hitem => ?_⟩
  rcases mem_held_of_has hitem with hheld | ⟨value, rfl⟩
  · exact hgiven.holds (.root hheld)
  · trivial

theorem Resolves.step (hm : m.Resolves) (hstep : step setting m = .ok () n) : n.Resolves := by
  have hkept := step_keeps (Bounds.suits_loose setting).given _ m rfl hm.fits
  rw [hstep] at hkept
  exact resolves_of_fits hkept.2.1

/-- However a machine is driven that was given arguments without references that lead nowhere, it has no such
references. -/
theorem resolves_of_debug {script : Bytes} {entry : Nat} {arguments : List Item} {heap : Heap} {calls : List DebugCall}
    (hresolves : heap.Resolves arguments)
    (hload : load setting.limits script entry arguments (initial setting.limits heap) = .ok () start)
    (hdebug : start.debug setting calls = some m) (hm : m.status ≠ .faulted) : m.Resolves := by
  have hgiven := Bounds.holdsGiven_loose hresolves False.elim
  have hbounds := withinBounds_of_debug (Bounds.suits_loose setting) hgiven hload hdebug
  exact resolves_of_fits (hbounds.1.resolve_left hm)

/-! ### The count -/

/-- The size of a machine is what it should be, in whatever order items and collections are counted and in whatever
batches, and no order of counting goes on without end.  After a step that succeeds it is within the limit. -/
theorem size_exact (hm : m.Resolves) :
    m.size = (m.calls.frames.map Frame.size).sum +
        ∑ ref ∈ (m.calls.frames.map Frame.statics).toFinset, m.calls.slotSize ref + m.results.length +
        ∑ cell ∈ m.calls.heap.reached m.items, m.calls.heap.weight cell ∧
      (∀ k s, Tally.Walk m.calls.heap k (m.items, .empty) s → k ≤ m.size + m.calls.heap.cells ∧
        ((∀ next, ¬Tally.Move m.calls.heap s next) → s.2.count = m.size)) ∧
      (∀ batches : List (List Item), batches.flatten.Perm m.items →
        (batches.foldl (Tally.addAll m.calls.heap) .empty).pending = [] ∧
          (batches.foldl (Tally.addAll m.calls.heap) .empty).count = m.size) ∧
      ∀ setting n, step setting m = .ok () n → n.Resolves ∧ n.size ≤ setting.limits.stackSize := by
  have hitems : m.calls.heap.Resolves m.items := hm.mono fun _ => mem_held_of_mem_items
  have hsize : m.size = m.calls.heap.total m.items := Heap.countItems_eq hitems
  refine ⟨?_, fun k s hwalk => ⟨?_, fun hends => ?_⟩, fun batches hperm => ?_, fun setting n hstep => ?_⟩
  · rw [hsize, Heap.total, items, List.length_append, CallStack.length_items]
  · rw [hsize]
    exact hwalk.length_le hitems
  · rw [hsize]
    exact hwalk.count_eq hends hitems
  · rw [hsize]
    exact Tally.addAll_batches hperm hitems
  · obtain ⟨frame, rest, i, size, p, gas, -, -, -, -, -, -, hle⟩ := step_eq_ok.1 hstep
    exact ⟨hm.step hstep, hle⟩

/-- Two frames with a static slot in common.  An array in the slot holds itself and a struct, and the struct is among
the results and holds a map that both frames hold too. -/
def tangled : Machine where
  gas := { limit := 0 }
  calls :=
    { frames :=
        [{ script := { bytes := [], hash := Hashing.hash160 [] }, stack := [.array 0, .map 0], statics := 0 },
          { script := { bytes := [], hash := Hashing.hash160 [] }, stack := [.integer 1], alt := [.map 0],
            locals := some [.boolean true], statics := 0 }]
      statics := #[some [.array 0]]
      heap :=
        { lists := #[[.array 0, .struct 1], [.map 0]]
          maps := #[[(⟨.integer 1, Bytes.ofInt 1, rfl⟩, .array 0)]] } }
  results := [.struct 1]

/-- Five items in the frames, one in the static slot, one result, two and one in the lists, a key and a value: it is
twelve also where the results are counted first. -/
theorem size_tangled : tangled.Resolves ∧ tangled.size = 12 ∧
    ([tangled.results, tangled.calls.items].foldl (Tally.addAll tangled.calls.heap) .empty).count = 12 := by
  have hresolves : tangled.Resolves := Heap.resolves_of_forall (by decide) (by decide)
  have hsize : tangled.size = 12 := by decide +kernel
  obtain ⟨-, -, hbatches, -⟩ := size_exact hresolves
  have hperm : [tangled.results, tangled.calls.items].flatten.Perm tangled.items := by
    simpa [items] using List.perm_append_comm
  exact ⟨hresolves, hsize, (hbatches _ hperm).2.trans hsize⟩

end Machine
end LedgerVM
