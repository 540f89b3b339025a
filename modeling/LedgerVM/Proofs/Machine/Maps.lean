import LedgerVM.Proofs.Machine.Size
import LedgerVM.Proofs.Operator.Maps

/-!
# Maps are insertion-ordered dictionaries

Only operators on collections change what is on the heap; every other instruction at most adds to it
(`Machine.heap_of_step`).  So a map goes from step to step through the edits that the instructions about to be executed
make of it (`Machine.edit?`), and after any number of steps it is what these edits made of the empty map that it was
when it was made (`Machine.EditRun.map_eq`).  All operators that read the map then find what its history says
(`Machine.maps_are_dictionaries`).
-/

namespace LedgerVM

open Bounds MachineAction

/-! ### What a step does to the heap -/

namespace MachineAction

variable {m n : Machine}

theorem onStack_eq_ok {α : Type} {operation : Operation α} {x : α} :
    onStack operation m = .ok x n ↔ ∃ frame rest w, m.calls.frames = frame :: rest ∧
      operation ⟨frame.stack, m.calls.heap⟩ = .ok x w ∧
      n = { m with calls := { m.calls with frames := { frame with stack := w.stack } :: rest, heap := w.heap } } := by
  unfold onStack
  rw [onCalls_eq_ok]
  constructor
  · rintro ⟨c, hc, rfl⟩
    obtain ⟨frame, rest, w, hframes, hrun, rfl⟩ := CallAction.onTop_eq_ok.1 hc
    exact ⟨frame, rest, w, hframes, hrun, rfl⟩
  · rintro ⟨frame, rest, w, hframes, hrun, rfl⟩
    exact ⟨_, CallAction.onTop_eq_ok.2 ⟨frame, rest, w, hframes, hrun, rfl⟩, rfl⟩

/-- A service at most adds to the heap. -/
theorem callService_adds {setting : Setting} {service : Service} (h : callService setting service m = .ok () n) :
    m.calls.heap.KeptIn n.calls.heap := by
  unfold callService at h
  split at h
  · cases h
  · dsimp only at h
    split at h
    · rename_i s hrun
      cases h
      exact service.run_adds _ _ () s hrun
    · cases h

end MachineAction

namespace Machine

variable {setting : Setting} {m n start : Machine} {ref : Nat} {edits : MapHistory}

theorem fits_entering {b : Bounds} {frame : Frame} {rest : List Frame} (hm : b.Fits m)
    (hframes : m.calls.frames = frame :: rest) (size : Nat) (gas : GasMeter) :
    b.Fits (m.entering frame rest size gas) := by
  refine ⟨hm.heap, fun item hitem => hm.items item ?_⟩
  rcases hitem with (⟨f, hf, hitem⟩ | hslot) | hother
  · refine .inl (.inl ?_)
    rw [hframes]
    rcases List.mem_cons.1 hf with rfl | hf
    · exact ⟨frame, List.mem_cons_self, hitem⟩
    · exact ⟨f, List.mem_cons_of_mem frame hf, hitem⟩
  · exact .inl (.inr hslot)
  · exact .inr hother

/-- A step that succeeds runs an operator on collections, or at most adds to the heap. -/
theorem heap_of_step (hm : m.Resolves) (hstep : step setting m = .ok () n) :
    (∃ op frame rest w, m.next? = some (.operate (.collection op)) ∧ m.calls.frames = frame :: rest ∧
      op.run setting.limits ⟨frame.stack, m.calls.heap⟩ = .ok () w ∧ n.calls.heap = w.heap) ∨
    (∀ op, m.next? ≠ some (.operate (.collection op))) ∧ m.calls.heap.KeptIn n.calls.heap := by
  obtain ⟨frame, rest, i, size, p, gas, hframes, hdecode, -, -, -, hexecute, -⟩ := step_eq_ok.1 hstep
  have hnext : m.next? = some i := next?_eq_some.2 ⟨frame, rest, size, hframes, hdecode⟩
  have hsmall : i.IsSmall := by
    have hanswer := decode_answers frame.script.bytes frame.pointer
    rw [hdecode] at hanswer
    exact hanswer.2
  by_cases hop : ∃ op, i = .operate op
  · obtain ⟨op, rfl⟩ := hop
    obtain ⟨frame', rest', w, hframes', hrun, rfl⟩ := onStack_eq_ok.1 hexecute
    cases hframes'
    by_cases hcollection : ∃ edit, op = .collection edit
    · obtain ⟨edit, rfl⟩ := hcollection
      exact .inl ⟨edit, frame, rest, w, hnext, hframes, hrun, rfl⟩
    · refine .inr ⟨fun edit hedit => ?_, ?_⟩
      · rw [hnext] at hedit
        cases hedit
        exact hcollection ⟨edit, rfl⟩
      · exact op.run_adds setting.limits setting.transaction (fun edit hedit => absurd ⟨edit, hedit⟩ hcollection) _ () w
          hrun
  · refine .inr ⟨fun edit hedit => ?_, ?_⟩
    · rw [hnext] at hedit
      cases hedit
      exact hop ⟨_, rfl⟩
    · by_cases hsyscall : ∃ id, i = .syscall id
      · obtain ⟨id, rfl⟩ := hsyscall
        obtain ⟨service, m', hfind, hcall⟩ := Action.bind_eq_ok.1 hexecute
        obtain rfl := (findService_reads id).ok _ _ _ hfind
        have hkept := callService_adds hcall
        exact hkept
      · by_cases hdup : i = .dupFromAlt
        · subst hdup
          obtain ⟨c, hc, rfl⟩ := onCalls_eq_ok.1 hexecute
          obtain ⟨item, d, hpeek, hpush⟩ := Action.bind_eq_ok.1 hc
          obtain ⟨_, _, w, -, hrun, rfl⟩ := CallAction.onTop_eq_ok.1 hpush
          have hsame : d.heap = m.calls.heap := by
            obtain ⟨top, e, htop, hpeek⟩ := Action.bind_eq_ok.1 hpeek
            obtain ⟨_, -, rfl⟩ := CallAction.top_eq_ok.1 htop
            cases halt : top.alt <;> rw [halt] at hpeek <;> cases hpeek
            rfl
          have hkept := Operation.Adds.pushDuplicate item _ () w hrun
          rwa [hsame] at hkept
        · have hfits := fits_entering hm.fits hframes size gas
          have hspares := i.execute_spares (Bounds.suits_loose setting).given frame.pointer hsmall
            (fun op hi => hop ⟨op, hi⟩) (fun id hi => hsyscall ⟨id, hi⟩) hdup _ rfl hfits
          rw [hexecute] at hspares
          obtain ⟨-, -, hheap, -⟩ := hspares
          have hsame : n.calls.heap = m.calls.heap := hheap
          rw [hsame]
          exact .refl _

/-! ### Runs -/

/-- The edit that the next instruction makes of a map if it succeeds. -/
def edit? (m : Machine) (ref : Nat) : Option MapEdit :=
  match m.next?, m.calls.frames with
  | some (.operate (.collection op)), frame :: _ => op.edit? ref ⟨frame.stack, m.calls.heap⟩
  | _, _ => none

/-- The instructions from one machine to the other all succeed, and make these edits of the map. -/
inductive EditRun (setting : Setting) (ref : Nat) : Machine → MapHistory → Machine → Prop
  | done (m : Machine) : EditRun setting ref m [] m
  | step {m n last : Machine} {edits : MapHistory} (hstep : step setting m = .ok () n)
      (hrest : EditRun setting ref n edits last) : EditRun setting ref m ((m.edit? ref).toList ++ edits) last

/-- The machine after so many steps, if they all succeed, and the edits that they make. -/
def editsOf? (setting : Setting) (ref : Nat) : (steps : Nat) → Machine → Option (MapHistory × Machine)
  | 0, m => some ([], m)
  | steps + 1, m => do
    let n ← Action.left? (step setting m)
    let (edits, last) ← editsOf? setting ref steps n
    return ((m.edit? ref).toList ++ edits, last)

theorem editRun_of_editsOf? (steps : Nat) : ∀ m edits, editsOf? setting ref steps m = some (edits, n) →
    EditRun setting ref m edits n := by
  induction steps with
  | zero =>
    intro m edits hsteps
    cases hsteps
    exact .done n
  | succ steps ih =>
    intro m edits hsteps
    obtain ⟨next, hnext, hsteps⟩ := Option.bind_eq_some_iff.1 hsteps
    obtain ⟨⟨rest, last⟩, hrest, hsteps⟩ := Option.bind_eq_some_iff.1 hsteps
    cases hsteps
    obtain ⟨_, hstep⟩ := Action.left?_eq_some.1 hnext
    exact .step hstep (ih next rest hrest)

/-- One step makes its edit of a map, and keeps the limit on entries. -/
theorem map_of_step (hm : m.Resolves) (href : ref < m.calls.heap.maps.size) (hstep : step setting m = .ok () n) :
    ref < n.calls.heap.maps.size ∧
      n.calls.heap.map ref = (m.edit? ref).toList.foldl MapEdit.apply (m.calls.heap.map ref) ∧
      ((m.calls.heap.map ref).length ≤ setting.limits.arraySize →
        (n.calls.heap.map ref).length ≤ setting.limits.arraySize) := by
  rcases heap_of_step hm hstep with ⟨op, frame, rest, w, hnext, hframes, hrun, hheap⟩ | ⟨hnext, hkept⟩
  · have hedit : m.edit? ref = op.edit? ref ⟨frame.stack, m.calls.heap⟩ := by
      simp only [edit?, hnext, hframes]
    have hedits := CollectionOperator.map_of_run hrun href
    rw [hheap, hedit]
    exact ⟨hedits.made, hedits.entries, hedits.room⟩
  · have hedit : m.edit? ref = none := by
      unfold edit?
      split
      · rename_i op _ _ hop _
        exact absurd hop (hnext op)
      · rfl
    rw [hedit, hkept.map ref href]
    exact ⟨href.trans_le hkept.maps, rfl, id⟩

/-- After any number of steps a map is what their edits made of it. -/
theorem EditRun.map_eq (hrun : EditRun setting ref m edits n) (hm : m.Resolves)
    (href : ref < m.calls.heap.maps.size) (hsize : (m.calls.heap.map ref).length ≤ setting.limits.arraySize) :
    ref < n.calls.heap.maps.size ∧ n.calls.heap.map ref = edits.foldl MapEdit.apply (m.calls.heap.map ref) ∧
      (n.calls.heap.map ref).length ≤ setting.limits.arraySize := by
  induction hrun with
  | done m => exact ⟨href, rfl, hsize⟩
  | step hstep _ ih =>
    obtain ⟨hmade, hmap, hroom⟩ := map_of_step hm href hstep
    obtain ⟨hlast, hentries, hbound⟩ := ih (hm.step hstep) hmade (hroom hsize)
    rw [hmap, ← List.foldl_append] at hentries
    exact ⟨hlast, hentries, hbound⟩

/-- A new map is empty, and on top of the stack. -/
theorem newMap_of_step (hnext : m.next? = some (.operate (.collection .newMap))) (hstep : step setting m = .ok () n) :
    (∃ frame rest stack, n.calls.frames = frame :: rest ∧ frame.stack = .map m.calls.heap.maps.size :: stack) ∧
      n.calls.heap = (m.calls.heap.newMap []).2 := by
  obtain ⟨frame, rest, i, size, p, gas, hframes, hdecode, -, -, -, hexecute, -⟩ := step_eq_ok.1 hstep
  have hsame : m.next? = some i := next?_eq_some.2 ⟨frame, rest, size, hframes, hdecode⟩
  rw [hnext] at hsame
  cases hsame
  obtain ⟨top, below, w, -, hrun, rfl⟩ := onStack_eq_ok.1 hexecute
  cases hrun
  exact ⟨⟨_, below, top.stack, rfl, rfl⟩, rfl⟩

/-- Let a map be made, and take any steps from there that succeed.  The map is on the stack at first.  At the end all
that can be read of it is what the edits say that were made of it on the way: which keys are live, in which order and
as which items they stand, the value last set under each, and how many they are, which is within the limit. -/
theorem maps_are_dictionaries (hm : m.Resolves) (hnext : m.next? = some (.operate (.collection .newMap)))
    (hstep : step setting m = .ok () start) (hrun : EditRun setting m.calls.heap.maps.size start edits n) :
    (∃ frame rest stack, start.calls.frames = frame :: rest ∧
      frame.stack = .map m.calls.heap.maps.size :: stack) ∧
    n.calls.heap.Records setting.limits m.calls.heap.maps.size edits := by
  obtain ⟨htop, hheap⟩ := newMap_of_step hnext hstep
  have hempty : start.calls.heap.map m.calls.heap.maps.size = [] := by
    rw [hheap, Heap.map_newMap, if_pos rfl]
  have hmade : m.calls.heap.maps.size < start.calls.heap.maps.size := by
    rw [hheap]
    simp [Heap.newMap]
  obtain ⟨hin, hmap, hsize⟩ := hrun.map_eq (hm.step hstep) hmade (by rw [hempty]; exact Nat.zero_le _)
  rw [hempty] at hmap
  exact ⟨htop, Heap.records_of_map hin hmap hsize⟩

/-- A script sets an entry under the integer 1, and then another value under the byte 1.  The map has one key, which is
still the integer, and the second value. -/
theorem overwritten_key_stays : ∃ start edits n,
    step Setting.blank (ofScript {} [0xC7, 0x76, 0x51, 0x55, 0xC4, 0x76, 0x01, 0x01, 0x57, 0xC4]) = .ok () start ∧
    EditRun Setting.blank 0 start edits n ∧
    edits.keys.map (fun key => (key.item.typeName, key.encoding)) = [("Integer", [1])] ∧
    (edits.last? [1]).map Item.encoding? = some (some [7]) ∧ n.calls.heap.Records Setting.blank.limits 0 edits := by
  let script : Bytes := [0xC7, 0x76, 0x51, 0x55, 0xC4, 0x76, 0x01, 0x01, 0x57, 0xC4]
  have hends : ((Action.left? (step Setting.blank (ofScript {} script))).bind fun start =>
      (editsOf? Setting.blank 0 9 start).map fun found =>
        (found.1.keys.map fun key => (key.item.typeName, key.encoding), (found.1.last? [1]).map Item.encoding?)) =
      some ([("Integer", [1])], some (some [7])) := by
    decide +kernel
  obtain ⟨start, hleft, hends⟩ := Option.bind_eq_some_iff.1 hends
  obtain ⟨⟨edits, n⟩, hedits, hfound⟩ := Option.map_eq_some_iff.1 hends
  obtain ⟨hkeys, hvalue⟩ := Prod.mk.inj hfound
  obtain ⟨_, hstep⟩ := Action.left?_eq_some.1 hleft
  have hload := load_ofScript script (show 0 < Setting.blank.limits.callDepth by decide)
  have hresolves : (ofScript Setting.blank.limits script).Resolves :=
    resolves_of_debug (Heap.resolves_nil _) hload
      (show (ofScript Setting.blank.limits script).debug Setting.blank [] = _ from rfl) (by decide)
  have hnext : (ofScript Setting.blank.limits script).next? = some (.operate (.collection .newMap)) := by
    rfl
  have hrun : EditRun Setting.blank 0 start edits n := editRun_of_editsOf? 9 start edits hedits
  exact ⟨start, edits, n, hstep, hrun, hkeys, hvalue, (maps_are_dictionaries hresolves hnext hstep hrun).2⟩

end Machine
end LedgerVM
