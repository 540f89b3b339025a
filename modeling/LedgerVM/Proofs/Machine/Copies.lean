import LedgerVM.Proofs.Item.CopySize
import LedgerVM.Proofs.Machine.Size

/-!
# Copies and the limit on items

A script may put the same struct into a collection twice without a copy in between, for `PACK`, `NEWARRAY` and
`NEWSTRUCT` take the items as they are.  The struct is counted once and copied twice, so a copy may be larger than the
limit on items allows, and it is there before items are counted again.  It is no larger than the limit if there is one
way only to each collection in the item, and otherwise no larger than the limit times the number of ways
(`Machine.copies_bounded`).
-/

namespace LedgerVM

namespace Machine

variable {setting : Setting} {m n start : Machine}

/-- What can be reached from a machine after a step keeps to the bounds. -/
theorem fits_of_step {b : Bounds} {script : Bytes} {entry : Nat} {arguments : List Item} {heap : Heap}
    {calls : List DebugCall} (hb : b.Suits setting) (hgiven : b.HoldsGiven heap arguments)
    (hload : load setting.limits script entry arguments (initial setting.limits heap) = .ok () start)
    (hdebug : start.debug setting calls = some m) (hstep : step setting m = .ok () n) :
    (b.given heap arguments).Fits n := by
  obtain ⟨-, k, hrun⟩ := steps_of_driven hload hdebug
  obtain ⟨frame, rest, _, _, _, _, hframes, -⟩ := step_eq_ok.1 hstep
  have hlive : m.status ≠ .faulted := (hrun.consistent hload).not_faulted (by simp [hframes])
  have hfits := (withinBounds_of_debug hb hgiven hload hdebug).1.resolve_left hlive
  have hkept := step_keeps hb.given _ m rfl hfits
  rw [hstep] at hkept
  exact hkept.2.1

/-- Let a machine be driven in any way and take a step that succeeds, with arguments in which no struct contains itself
by structs alone.  Whichever item that the count covers is copied next, on the heap as it is or with more on it, it has
a copy.  The copy counts for no more than the limit times the number of ways in which the item leads to one and the same
collection. -/
theorem copies_bounded {script : Bytes} {entry : Nat} {arguments : List Item} {heap : Heap} {calls : List DebugCall}
    (hresolves : heap.Resolves arguments) (hacyclic : heap.Acyclic arguments)
    (hload : load setting.limits script entry arguments (initial setting.limits heap) = .ok () start)
    (hdebug : start.debug setting calls = some m) (hstep : step setting m = .ok () n) :
    ∀ item, n.calls.heap.Reaches n.items item → ∀ k, n.calls.heap.KeptIn k →
      ∀ ways, 0 < ways → n.calls.heap.AliasedWithin ways item →
        ∃ copy l, k.duplicate item = .ok (copy, l) ∧ l.countItems [copy] ≤ ways * setting.limits.stackSize := by
  intro item hitem k hkept ways hsome haliased
  have hgiven : (Bounds.loose True).HoldsGiven heap arguments := Bounds.holdsGiven_loose hresolves fun _ => hacyclic
  have hfits := fits_of_step (Bounds.suits_loose setting) hgiven hload hdebug hstep
  have hitems : n.calls.heap.Resolves n.items := (resolves_of_fits hfits).mono fun _ => mem_held_of_mem_items
  have hinside : n.calls.heap.Resolves [item] := hitems.onward hitem
  have hnesting : n.calls.heap.Acyclic [item] := by
    intro ref href
    have hholds := hfits.heap.reaches (fun other hother =>
      hfits.items other (has_of_mem_held (mem_held_of_mem_items hother))) (hitem.onward href)
    exact Heap.not_transGen_of_acc (hfits.heap.nesting trivial ref hholds.1)
  obtain ⟨copy, l, hrun, hcount⟩ := hkept.exists_copy_le hinside hnesting hsome haliased
  obtain ⟨frame, rest, i, size, p, gas, -, -, -, -, -, -, hsize⟩ := step_eq_ok.1 hstep
  have hshare : n.calls.heap.countItems [item] ≤ n.size := hitem.countItems_le hitems
  exact ⟨copy, l, hrun, hcount.trans (Nat.mul_le_mul_left ways (hshare.trans hsize))⟩

/-- A setting in which nine items are allowed. -/
def cramped : Setting := { Setting.blank with limits := { stackSize := 9 } }

/-- A script that packs a struct of three elements thrice, makes a struct of these and appends a copy of it to an
array. -/
def packing : Bytes :=
  [0xD1, 1, 0, 0x53, 0xC6, 0xD5, 0, 0xD4, 0, 0xD4, 0, 0xD4, 0, 0x53, 0xC1, 0xC6, 0x00, 0xC5, 0x7C, 0xC8]

/-- The outer struct is made where nine items are allowed.  There are three ways from it to the inner one, and its copy
counts for thirteen. -/
theorem copy_exceeds_limit : ∃ m n copy l,
    (ofScript cramped.limits packing).debug cramped (List.replicate 9 .stepInto) = some m ∧
      step cramped m = .ok () n ∧ n.calls.heap.Reaches n.items (.struct 2) ∧
      n.calls.heap.duplicate (.struct 2) = .ok (copy, l) ∧ cramped.limits.stackSize < l.countItems [copy] ∧
      l.countItems [copy] ≤ 3 * cramped.limits.stackSize := by
  let made : Option Machine := ((ofScript cramped.limits packing).debug cramped (List.replicate 9 .stepInto)).bind
    fun m => Action.left? (step cramped m)
  let shape (item : Item) : String × Option CellId := (item.typeName, item.cell?)
  have hmade : made.map (fun n => [n.items, n.calls.heap.list 2, n.calls.heap.list 0].map fun items =>
      items.map shape) = some [[("Struct", some (.list 2)), ("Struct", some (.list 0))],
        List.replicate 3 ("Struct", some (.list 0)), List.replicate 3 ("Boolean", none)] := by
    decide +kernel
  have hcount : (made.bind fun n => (n.calls.heap.duplicate (.struct 2)).toOption).map
      (fun (copy, l) => l.countItems [copy]) = some 13 := by
    decide +kernel
  obtain ⟨n, hn, hshapes⟩ := Option.map_eq_some_iff.1 hmade
  rw [hn, Option.bind_some] at hcount
  obtain ⟨m, hdebug, hleft⟩ := Option.bind_eq_some_iff.1 hn
  obtain ⟨_, hstep⟩ := Action.left?_eq_some.1 hleft
  simp only [List.map_cons, List.map_nil, List.cons.injEq, and_true] at hshapes
  obtain ⟨hitems, houter, hinner⟩ := hshapes
  have hstruct {item : Item} {ref : Nat} (hshape : shape item = ("Struct", some (.list ref))) : item = .struct ref := by
    cases item <;> simp_all [shape, Item.typeName, Item.cell?]
  have hleaves : ∀ item ∈ n.calls.heap.list 0, item.cell? = none := by
    intro item hitem
    have hshape : shape item ∈ (n.calls.heap.list 0).map shape := List.mem_map_of_mem hitem
    rw [hinner] at hshape
    exact (Prod.mk.inj (List.mem_replicate.1 hshape).2).2
  have hstructs : ∀ item ∈ n.calls.heap.list 2, item = .struct 0 := by
    intro item hitem
    have hshape : shape item ∈ (n.calls.heap.list 2).map shape := List.mem_map_of_mem hitem
    rw [houter] at hshape
    exact hstruct (List.mem_replicate.1 hshape).2
  have hone : n.calls.heap.AliasedWithin 1 (.struct 0) := Heap.aliasedWithin_of_leaves hleaves
  have hthree : n.calls.heap.AliasedWithin 3 (.struct 2) := by
    have hlength : (n.calls.heap.list 2).length = 3 := by simpa using congrArg List.length houter
    have hback : ∀ item ∈ n.calls.heap.list 2, ∀ way, ¬n.calls.heap.Way item (.list 2) way := by
      intro item hitem way hway
      rw [hstructs item hitem] at hway
      rcases hway.of_struct with ⟨hsame, -⟩ | ⟨i, inner, next, hnext, hway, -⟩
      · cases hsame
      · exact Heap.not_way_of_leaf (hleaves inner (List.mem_of_getElem? hnext)) hway
    have hthrough := Heap.AliasedWithin.struct hback fun item hitem => hstructs item hitem ▸ hone
    rwa [hlength] at hthrough
  have hreach : n.calls.heap.Reaches n.items (.struct 2) := by
    obtain ⟨item, hitem, hshape⟩ : ∃ item ∈ n.items, shape item = ("Struct", some (.list 2)) := by
      refine List.mem_map.1 ?_
      rw [hitems]
      exact List.mem_cons_self
    exact hstruct hshape ▸ .root hitem
  have hload := load_ofScript packing (show 0 < cramped.limits.callDepth by decide)
  have hacyclic : ({} : Heap).Acyclic [] := fun ref href => absurd href Heap.not_reaches_nil
  obtain ⟨copy, l, hcopy, hle⟩ := copies_bounded (Heap.resolves_nil _) hacyclic hload hdebug hstep _ hreach _ (.refl _) 3
    (by decide) hthree
  rw [hcopy] at hcount
  have hthirteen : l.countItems [copy] = 13 := Option.some.inj hcount
  refine ⟨m, n, copy, l, hdebug, hstep, hreach, hcopy, ?_, hle⟩
  rw [hthirteen]
  decide

end Machine
end LedgerVM
