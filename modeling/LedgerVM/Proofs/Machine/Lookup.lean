import LedgerVM.Proofs.Machine.Nesting
import LedgerVM.Proofs.Machine.Size
import LedgerVM.Proofs.Operator.Lookup

/-!
# Asking before taking

A script that asks with `HASKEY` before it takes with `PICKITEM` is never told wrong, whatever the target and the key
are (`Machine.hasKey_foretells`).
-/

namespace LedgerVM

namespace Machine

variable {setting : Setting} {position : Nat} {m start : Machine} {target key : Item} {below : List Item}

theorem withBench_inj (hframes : m.calls.frames ≠ []) {w v : Workbench} (h : m.withBench w = m.withBench v) :
    w = v := by
  obtain ⟨frame, rest, hframes⟩ := List.exists_cons_of_ne_nil hframes
  obtain ⟨stack, heap⟩ := w
  obtain ⟨other, k⟩ := v
  simpa [withBench, hframes] using h

/-- What becomes of a machine that executes an operator on collections with these items on the evaluation stack.  Gas,
the number of steps and the size of the machine are not looked at. -/
def collect (setting : Setting) (position : Nat) (m : Machine) (op : CollectionOperator) (stack : List Item) :
    EStateM.Result Fault Machine Unit :=
  (Instruction.operate (.collection op)).execute setting position (m.withBench ⟨stack, m.calls.heap⟩)

/-- What `HASKEY` says of a target and a key, held against what other instructions do with them. -/
structure Foretells (setting : Setting) (position : Nat) (m : Machine) (target key : Item) (below : List Item) :
    Prop where
  /-- The answer is a truth value, and nothing else changes. -/
  answer : ∀ n, collect setting position m .hasKey (key :: target :: below) = .ok () n →
    ∃ found, n = m.withBench ⟨.boolean found :: below, m.calls.heap⟩
  yes : collect setting position m .hasKey (key :: target :: below) =
      .ok () (m.withBench ⟨.boolean true :: below, m.calls.heap⟩) ↔
    ∃ n, collect setting position m .pickItem (key :: target :: below) = .ok () n
  no : collect setting position m .hasKey (key :: target :: below) =
      .ok () (m.withBench ⟨.boolean false :: below, m.calls.heap⟩) →
    ∃ fault n, collect setting position m .pickItem (key :: target :: below) = .error fault n ∧
      m.calls.heap.Misses target fault
  fault : ∀ fault n, collect setting position m .hasKey (key :: target :: below) = .error fault n →
    ∃ other p, collect setting position m .pickItem (key :: target :: below) = .error other p
  remove : ∀ ref, target.toListRef = .ok ref →
    ((∃ n, collect setting position m .remove (key :: target :: below) = .ok () n) ↔
      ∃ n, collect setting position m .pickItem (key :: target :: below) = .ok () n)
  /-- The value is copied first, which ends unless a struct contains itself through structs alone. -/
  setItem : ∀ ref value, target.toListRef = .ok ref → m.calls.heap.Resolves [value, target] →
    m.calls.heap.Acyclic [value] →
    ((∃ n, collect setting position m .setItem (value :: key :: target :: below) = .ok () n) ↔
      ∃ n, collect setting position m .pickItem (key :: target :: below) = .ok () n)
  /-- No value is refused by a machine that was given no such struct, however it was driven. -/
  driven : ∀ script entry arguments heap calls start frame rest ref value,
    heap.Resolves arguments → heap.Acyclic arguments →
    load setting.limits script entry arguments (initial setting.limits heap) = .ok () start →
    start.debug setting calls = some m → m.calls.frames = frame :: rest →
    frame.stack = value :: key :: target :: below → target.toListRef = .ok ref →
    ((∃ n, (Instruction.operate (.collection .setItem)).execute setting position m = .ok () n) ↔
      ∃ n, collect setting position m .pickItem (key :: target :: below) = .ok () n)

theorem collect_eq (hframes : m.calls.frames ≠ []) (op : CollectionOperator) (stack : List Item) :
    collect setting position m op stack =
      match op.run setting.limits ⟨stack, m.calls.heap⟩ with
      | .ok x w => .ok x (m.withBench w)
      | .error fault w => .error fault (m.withBench w) := by
  show MachineAction.onStack (op.run setting.limits) (m.withBench ⟨stack, m.calls.heap⟩) = _
  rw [MachineAction.onStack_withBench _ _ hframes]
  cases op.run setting.limits ⟨stack, m.calls.heap⟩ <;> rfl

theorem collect_ok_iff (hframes : m.calls.frames ≠ []) {op : CollectionOperator} {stack : List Item} :
    (∃ n, collect setting position m op stack = .ok () n) ↔
      ∃ w, op.run setting.limits ⟨stack, m.calls.heap⟩ = .ok () w := by
  rw [collect_eq hframes]
  cases op.run setting.limits ⟨stack, m.calls.heap⟩ <;> simp

theorem hasKey_eq (setting : Setting) (position : Nat) (hframes : m.calls.frames ≠ []) (target key : Item)
    (below : List Item) :
    collect setting position m .hasKey (key :: target :: below) =
      match m.calls.heap.addressed target key with
      | .ok found => .ok () (m.withBench ⟨.boolean found.isSome :: below, m.calls.heap⟩)
      | .error fault => .error fault (m.withBench ⟨below, m.calls.heap⟩) := by
  rw [collect_eq hframes, CollectionOperator.hasKey_run]
  cases m.calls.heap.addressed target key <;> rfl

/-- `PICKITEM` succeeds exactly if something is addressed. -/
theorem pickItem_ok_iff (hframes : m.calls.frames ≠ []) :
    (∃ n, collect setting position m .pickItem (key :: target :: below) = .ok () n) ↔
      ∃ item, m.calls.heap.addressed target key = .ok (some item) := by
  rw [collect_ok_iff hframes]
  have hpick := CollectionOperator.pickItem_of_addressed setting.limits m.calls.heap target key below
  split at hpick
  · rename_i item haddressed
    exact iff_of_true ⟨_, hpick⟩ ⟨item, haddressed⟩
  · rename_i haddressed
    obtain ⟨fault, -, hpick⟩ := hpick
    simp [hpick, haddressed]
  · rename_i haddressed
    obtain ⟨fault, hpick⟩ := hpick
    simp [hpick, haddressed]

/-- Setting an item succeeds exactly if taking it does, for the value that is set has a copy. -/
theorem setItem_ok_iff (hframes : m.calls.frames ≠ []) {ref : Nat} {value : Item} (href : target.toListRef = .ok ref)
    (hresolves : m.calls.heap.Resolves [value, target]) (hacyclic : m.calls.heap.Acyclic [value]) :
    (∃ n, collect setting position m .setItem (value :: key :: target :: below) = .ok () n) ↔
      ∃ n, collect setting position m .pickItem (key :: target :: below) = .ok () n := by
  have hin : ref < m.calls.heap.lists.size := by
    refine hresolves (.list ref) ⟨target, .root (by simp), ?_⟩
    cases target <;> cases href <;> rfl
  obtain ⟨copy, k, hcopy, -⟩ := Heap.exists_copy (hresolves.mono (by simp)) hacyclic
  rw [pickItem_ok_iff hframes, collect_ok_iff hframes, CollectionOperator.setItem_ok_iff href hin hcopy]

/-- However a machine was driven, the references on its evaluation stack lead somewhere, and no struct there contains
itself by structs alone. -/
theorem stack_of_debug {script : Bytes} {entry : Nat} {arguments : List Item} {heap : Heap} {calls : List DebugCall}
    {frame : Frame} {rest : List Frame} (hresolves : heap.Resolves arguments) (hacyclic : heap.Acyclic arguments)
    (hload : load setting.limits script entry arguments (initial setting.limits heap) = .ok () start)
    (hdebug : start.debug setting calls = some m) (hframes : m.calls.frames = frame :: rest) :
    m.calls.heap.Resolves frame.stack ∧ m.calls.heap.Acyclic frame.stack := by
  obtain ⟨-, k, hrun⟩ := steps_of_driven hload hdebug
  have hlive := (hrun.consistent hload).not_faulted (by simp [hframes])
  have hitems (item : Item) (hitem : item ∈ frame.stack) : item ∈ m.items := by
    have hitem : item ∈ frame.items := Frame.mem_items.2 (.inl hitem)
    rw [items, CallStack.items, hframes, List.flatMap_cons]
    exact List.mem_append_left _ (List.mem_append_left _ (List.mem_append_left _ hitem))
  exact ⟨(resolves_of_debug hresolves hload hdebug hlive).mono fun item hitem =>
      mem_held_of_mem_items (hitems item hitem),
    (acyclic_of_debug hresolves hacyclic hload hdebug).mono fun item hitem =>
      List.mem_append_left _ (hitems item hitem)⟩

/-- Whatever the target is and whatever the key, `HASKEY` foretells what `PICKITEM` does on the same machine, and for
arrays and structs what `REMOVE` and `SETITEM` do. -/
theorem hasKey_foretells (setting : Setting) (position : Nat) (hframes : m.calls.frames ≠ []) (target key : Item)
    (below : List Item) : Foretells setting position m target key below := by
  have hhas := hasKey_eq setting position hframes target key below
  have hpick := CollectionOperator.pickItem_of_addressed setting.limits m.calls.heap target key below
  have hbool {a b : Bool} (hab : m.withBench ⟨.boolean a :: below, m.calls.heap⟩ =
      m.withBench ⟨.boolean b :: below, m.calls.heap⟩) : a = b := by
    cases withBench_inj hframes hab
    rfl
  refine
    { answer := fun n hn => ?_
      yes := ?_
      no := fun hno => ?_
      fault := fun fault n hfault => ?_
      remove := fun ref href => ?_
      setItem := fun _ _ => setItem_ok_iff hframes
      driven := fun script entry arguments heap calls start frame rest ref value hresolves hacyclic hload hdebug htop
        hstack href => ?_ }
  · rw [hhas] at hn
    split at hn <;> cases hn
    exact ⟨_, rfl⟩
  · rw [pickItem_ok_iff hframes, hhas]
    cases haddressed : m.calls.heap.addressed target key with
    | error fault => simp
    | ok found =>
      constructor
      · intro hfound
        obtain ⟨item, rfl⟩ := Option.isSome_iff_exists.1 (hbool (EStateM.Result.ok.inj hfound).2)
        exact ⟨item, rfl⟩
      · rintro ⟨item, hitem⟩
        cases hitem
        rfl
  · rw [hhas] at hno
    cases haddressed : m.calls.heap.addressed target key with
    | error fault => simp [haddressed] at hno
    | ok found =>
      rw [haddressed] at hno hpick
      obtain rfl := Option.not_isSome_iff_eq_none.1 (Bool.eq_false_iff.1 (hbool (EStateM.Result.ok.inj hno).2))
      obtain ⟨fault, hmisses, hpick⟩ := hpick
      exact ⟨fault, _, by rw [collect_eq hframes, hpick], hmisses⟩
  · rw [hhas] at hfault
    cases haddressed : m.calls.heap.addressed target key with
    | ok found => simp [haddressed] at hfault
    | error _ =>
      rw [haddressed] at hpick
      obtain ⟨other, hpick⟩ := hpick
      exact ⟨other, _, by rw [collect_eq hframes, hpick]⟩
  · rw [pickItem_ok_iff hframes, collect_ok_iff hframes, CollectionOperator.remove_ok_iff href]
  · obtain ⟨hheap, hnesting⟩ := stack_of_debug hresolves hacyclic hload hdebug htop
    have hself : m.withBench ⟨value :: key :: target :: below, m.calls.heap⟩ = m := hstack ▸ withBench_self htop
    rw [hstack] at hheap hnesting
    have hresolves : m.calls.heap.Resolves [value, target] := hheap.mono (by simp)
    have hacyclic : m.calls.heap.Acyclic [value] := hnesting.mono (by simp)
    rw [← setItem_ok_iff hframes href hresolves hacyclic, collect, hself]

/-- Four bytes make an index of an array with two elements as well as one does: with the byte 1 an element is found
and can be set, and with the bytes of `2 ^ 25` there is none. -/
theorem foretold_tangled : tangled.calls.frames ≠ [] ∧
    tangled.calls.heap.Resolves [.struct 1, .array 0] ∧ tangled.calls.heap.Acyclic [.struct 1] ∧
    (∃ n, collect Setting.blank 0 tangled .setItem [.struct 1, .byteArray [1], .array 0] = .ok () n) ∧
    ∃ fault n, collect Setting.blank 0 tangled .pickItem [.byteArray [0, 0, 0, 2], .array 0] = .error fault n ∧
      tangled.calls.heap.Misses (.array 0) fault := by
  have hframes : tangled.calls.frames ≠ [] := nofun
  have hresolves : tangled.calls.heap.Resolves [.struct 1, .array 0] :=
    Heap.resolves_of_forall (by decide) (by decide)
  have hacyclic : tangled.calls.heap.Acyclic [.struct 1] := by
    -- the only struct in a list is the second one, which holds none
    refine Heap.acyclic_of_rank (1 - ·) fun inner outer hinner => ?_
    match outer, hinner with
    | 0, hinner =>
      obtain rfl : inner = 1 := by simpa [Heap.Contains, Heap.list, tangled] using hinner
      decide
    | 1, hinner => simp [Heap.Contains, Heap.list, tangled] at hinner
    | outer + 2, hinner => simp [Heap.Contains, Heap.list, tangled] at hinner
  have hfound := hasKey_foretells Setting.blank 0 hframes (.array 0) (.byteArray [1]) []
  have hmissing := hasKey_foretells Setting.blank 0 hframes (.array 0) (.byteArray [0, 0, 0, 2]) []
  exact ⟨hframes, hresolves, hacyclic, (hfound.setItem 0 (.struct 1) rfl hresolves hacyclic).2 (hfound.yes.1 rfl),
    hmissing.no rfl⟩

end Machine
end LedgerVM
