import LedgerVM.Proofs.Item.CopySize
import LedgerVM.Proofs.Machine.Gas
import LedgerVM.Proofs.Machine.Maps

/-!
# Packing and unpacking

`PACK` moves items from the evaluation stack into a new array and `UNPACK` spreads the elements of an array or struct on
the stack, under their number.  Each undoes the other, and neither changes the size of a machine whose stack it takes
from: what is packed is counted inside the array, and the array itself in place of the number
(`Heap.countItems_packed`).
-/

namespace LedgerVM

/-! ### The count -/

namespace Heap

variable {h : Heap} {items others : List Item} {item count : Item}

/-- What a new array and other items lead to is the array and what its elements and the other items lead to. -/
theorem reaches_packed_iff (hresolves : h.Resolves (items ++ others)) :
    (h.newList items).2.Reaches (.array h.lists.size :: others) item ↔
      item = .array h.lists.size ∨ h.Reaches (items ++ others) item := by
  have hnew : (h.newList items).2.contents (.list h.lists.size) = items := by
    rw [contents, list_newList, if_pos rfl]
  have hkept := h.keptIn_newList items
  constructor
  · intro hitem
    induction hitem with
    | root hitem =>
      rcases List.mem_cons.1 hitem with rfl | hitem
      · exact .inl rfl
      · exact .inr (.root (List.mem_append_right items hitem))
    | @inside outer other cell _ hcell hother ih =>
      rcases ih with rfl | houter
      · cases hcell
        rw [hnew] at hother
        exact .inr (.root (List.mem_append_left others hother))
      · rw [hkept.contents (hresolves cell ⟨outer, houter, hcell⟩)] at hother
        exact .inr (.inside houter hcell hother)
  · rintro (rfl | hitem)
    · exact .root List.mem_cons_self
    · induction hitem with
      | root hitem =>
        rcases List.mem_append.1 hitem with hitem | hitem
        · exact .inside (.root List.mem_cons_self) rfl (by rwa [hnew])
        · exact .root (List.mem_cons_of_mem _ hitem)
      | @inside outer other cell houter hcell hother ih =>
        rw [← hkept.contents (hresolves cell ⟨outer, houter, hcell⟩)] at hother
        exact .inside ih hcell hother

theorem resolves_packed (hresolves : h.Resolves (items ++ others)) :
    (h.newList items).2.Resolves (.array h.lists.size :: others) := by
  rintro cell ⟨item, hitem, hcell⟩
  rcases (reaches_packed_iff hresolves).1 hitem with rfl | hitem
  · cases hcell
    simp [Has, newList]
  · exact (h.keptIn_newList items).has (hresolves cell ⟨item, hitem, hcell⟩)

/-- An item without a collection counts for one. -/
theorem countItems_leaf (hresolves : h.Resolves others) (hcount : count.cell? = none) :
    h.countItems (count :: others) = h.countItems others + 1 := by
  have hreaches {cell : CellId} : h.ReachesCell (count :: others) cell ↔ h.ReachesCell others cell := by
    constructor
    · rintro ⟨item, hitem, hcell⟩
      have hfound : item = count ∨ h.Reaches others item := by
        clear hcell
        induction hitem with
        | root hitem => exact (List.mem_cons.1 hitem).imp_right .root
        | inside _ houter hother ih =>
          rcases ih with rfl | ih
          · rw [hcount] at houter
            cases houter
          · exact .inr (.inside ih houter hother)
      rcases hfound with rfl | hitem
      · rw [hcount] at hcell
        cases hcell
      · exact ⟨item, hitem, hcell⟩
    · rintro ⟨item, hitem, hcell⟩
      exact ⟨item, hitem.mono fun _ => List.mem_cons_of_mem count, hcell⟩
  have hmore : h.Resolves (count :: others) := fun cell hcell => hresolves cell (hreaches.1 hcell)
  have hreached : h.reached (count :: others) = h.reached others := by
    ext cell
    rw [mem_reached hmore, mem_reached hresolves, hreaches]
  rw [countItems_eq hmore, countItems_eq hresolves, total, total, hreached, List.length_cons, Nat.add_right_comm]

/-- Items count for as much inside a new array as they do outside, with a number on top for the array. -/
theorem countItems_packed (hresolves : h.Resolves (items ++ others)) (hcount : count.cell? = none) :
    (h.newList items).2.countItems (.array h.lists.size :: others) = h.countItems (count :: (items ++ others)) := by
  have hkept := h.keptIn_newList items
  have hpacked := resolves_packed hresolves
  have hfresh : CellId.list h.lists.size ∉ h.reached (items ++ others) := fun hcell =>
    Nat.lt_irrefl _ (hresolves _ ((mem_reached hresolves).1 hcell))
  have hreached : (h.newList items).2.reached (.array h.lists.size :: others) =
      insert (.list h.lists.size) (h.reached (items ++ others)) := by
    ext cell
    rw [mem_reached hpacked, Finset.mem_insert, mem_reached hresolves]
    simp only [ReachesCell, reaches_packed_iff hresolves]
    constructor
    · rintro ⟨item, rfl | hitem, hcell⟩
      · exact .inl (Option.some.inj hcell).symm
      · exact .inr ⟨item, hitem, hcell⟩
    · rintro (rfl | ⟨item, hitem, hcell⟩)
      · exact ⟨_, .inl rfl, rfl⟩
      · exact ⟨item, .inr hitem, hcell⟩
  have hsame : ∑ cell ∈ h.reached (items ++ others), (h.newList items).2.weight cell =
      ∑ cell ∈ h.reached (items ++ others), h.weight cell := by
    refine Finset.sum_congr rfl fun cell hcell => ?_
    rw [← length_contents, ← length_contents, hkept.contents (hresolves cell ((mem_reached hresolves).1 hcell))]
  have hown : (h.newList items).2.weight (.list h.lists.size) = items.length := by
    rw [weight, list_newList, if_pos rfl]
  rw [countItems_leaf hresolves hcount, countItems_eq hpacked, countItems_eq hresolves, total, total, hreached,
    Finset.sum_insert hfresh, hown, hsame, List.length_cons, List.length_append]
  omega

end Heap

/-! ### The operators -/

namespace CollectionOperator

variable {limits : Limits} {h : Heap} {items below : List Item} {count target : Item} {ref : Nat}

theorem pack_run (h : Heap) (below : List Item) (hcount : count.toInteger = .ok items.length)
    (hlimit : items.length ≤ limits.arraySize) (hsmall : items.length < 2 ^ 63) :
    pack.run limits ⟨count :: (items ++ below), h⟩ = .ok () ⟨.array h.lists.size :: below, (h.newList items).2⟩ := by
  have hindex : index? (items.length : Int) = some items.length := by
    rw [index?, if_pos ⟨Int.natCast_nonneg _, by rw [addressSpace]; omega⟩, Int.toNat_natCast]
  have hpop : Operation.popIndex ⟨count :: (items ++ below), h⟩ = .ok items.length ⟨items ++ below, h⟩ := by
    refine Action.bind_eq_ok.2 ⟨_, _, Operation.popAs_eq_ok.2 ⟨count, _, rfl, hcount, rfl⟩, ?_⟩
    rw [hindex]
    rfl
  have hmany : Operation.popMany items.length ⟨items ++ below, h⟩ = .ok items ⟨below, h⟩ := by
    simp [Operation.popMany]
  show (Operation.popIndex >>= fun size => if limits.arraySize < size then
    throw (.arrayTooLarge size limits.arraySize) else Operation.popMany size >>= Operation.pushArray) _ = _
  rw [Action.bind_of_ok hpop, if_neg (Nat.not_lt.2 hlimit), Action.bind_of_ok hmany]
  rfl

theorem unpack_run (limits : Limits) (below : List Item) (htarget : target.toListRef = .ok ref)
    (hsmall : (h.list ref).length < 2 ^ 63) :
    unpack.run limits ⟨target :: below, h⟩ =
      .ok () ⟨.integer (h.list ref).length :: (h.list ref ++ below), h⟩ := by
  rw [← wrapInt64_of_lt hsmall]
  cases target <;> cases htarget <;> rfl

end CollectionOperator

namespace Machine

variable {setting : Setting} {m : Machine} {frame : Frame} {rest : List Frame}

/-- What a machine holds beside the executing frame's evaluation stack. -/
def beside (m : Machine) : List Item := (m.withBench ⟨[], m.calls.heap⟩).items

theorem items_withBench (hframes : m.calls.frames ≠ []) (w : Workbench) :
    (m.withBench w).items = w.stack ++ m.beside := by
  obtain ⟨frame, rest, hframes⟩ := List.exists_cons_of_ne_nil hframes
  simp [beside, items, CallStack.items, CallStack.staticItems, withBench, hframes, Frame.items]

theorem items_eq_beside (hframes : m.calls.frames = frame :: rest) : m.items = frame.stack ++ m.beside := by
  have hitems := items_withBench (m := m) (by simp [hframes]) ⟨frame.stack, m.calls.heap⟩
  rwa [withBench_self hframes] at hitems

/-- The machine after an operator of some size and price that leaves this workbench. -/
def operated (m : Machine) (frame : Frame) (rest : List Frame) (size : Nat) (price : UInt64) (w : Workbench) :
    Machine :=
  { m with
    calls := { m.calls with
      frames := { frame with pointer := frame.pointer + size, stack := w.stack } :: rest
      heap := w.heap }
    gas := { m.gas with consumed := m.gas.consumed + price }
    steps := m.steps + 1
    cursor := some frame.location }

/-- The second machine is further on in its script and has another evaluation stack.  Otherwise it has what the first
one has, with collections added at most. -/
structure Restacked (m n : Machine) (frame : Frame) (rest : List Frame) (size : Nat) (stack : List Item) : Prop where
  frames : n.calls.frames = { frame with pointer := frame.pointer + size, stack } :: rest
  statics : n.calls.statics = m.calls.statics
  heap : m.calls.heap.KeptIn n.calls.heap
  results : n.results = m.results
  effects : n.effects = m.effects
  status : n.status = m.status

theorem beside_operated (hframes : m.calls.frames = frame :: rest) (size : Nat) (price : UInt64) (w : Workbench) :
    (m.operated frame rest size price w).beside = m.beside := by
  simp [operated, beside, items, CallStack.items, CallStack.staticItems, withBench, hframes, Frame.items]

theorem size_operated (hframes : m.calls.frames = frame :: rest) (size : Nat) (price : UInt64) (w : Workbench) :
    (m.operated frame rest size price w).size = w.heap.countItems (w.stack ++ m.beside) := by
  rw [Machine.size, items_eq_beside rfl, beside_operated hframes]
  rfl

/-- An operator on collections that succeeds makes a step if the machine can pay for it and the outcome is not too
large. -/
theorem step_eq_operated {op : CollectionOperator} {size : Nat} {w : Workbench}
    (hframes : m.calls.frames = frame :: rest)
    (hdecode : decode frame.script.bytes frame.pointer = .ok (.operate (.collection op), size))
    (hsteps : ∀ limit, setting.limits.steps = some limit → m.steps < limit)
    (hgas : m.gas.consumed.toNat + setting.schedule.instruction.toNat ≤ m.gas.limit.toNat)
    (hrun : op.run setting.limits ⟨frame.stack, m.calls.heap⟩ = .ok () w)
    (hsize : w.heap.countItems (w.stack ++ m.beside) ≤ setting.limits.stackSize) :
    step setting m = .ok () (m.operated frame rest size setting.schedule.instruction w) := by
  have hsolvent : m.gas.Solvent := UInt64.le_iff_toNat_le.2 (by omega)
  refine step_eq_ok.2 ⟨frame, rest, _, size, setting.schedule.instruction, _, hframes, hdecode, hsteps, rfl,
    (GasMeter.charge_eq_ok hsolvent).2 ⟨hgas, rfl⟩, ?_, (size_operated hframes _ _ w).trans_le hsize⟩
  exact MachineAction.onStack_eq_ok.2 ⟨_, rest, w, rfl, hrun, rfl⟩

/-- Two operators on collections, one after the other. -/
theorem steps_eq_operated {op next : CollectionOperator} {first second : Nat} {w v : Workbench}
    (hframes : m.calls.frames = frame :: rest)
    (hdecode : decode frame.script.bytes frame.pointer = .ok (.operate (.collection op), first))
    (hnext : decode frame.script.bytes (frame.pointer + first) = .ok (.operate (.collection next), second))
    (hsteps : ∀ limit, setting.limits.steps = some limit → m.steps + 2 ≤ limit)
    (hgas : m.gas.consumed.toNat + 2 * setting.schedule.instruction.toNat ≤ m.gas.limit.toNat)
    (hrun : op.run setting.limits ⟨frame.stack, m.calls.heap⟩ = .ok () w)
    (hrunNext : next.run setting.limits w = .ok () v) (hkept : m.calls.heap.KeptIn v.heap)
    (hsize : w.heap.countItems (w.stack ++ m.beside) ≤ setting.limits.stackSize)
    (hsizeNext : v.heap.countItems (v.stack ++ m.beside) ≤ setting.limits.stackSize) :
    ∃ p q, step setting m = .ok () p ∧ step setting p = .ok () q ∧ p.size = w.heap.countItems (w.stack ++ m.beside) ∧
      q.size = v.heap.countItems (v.stack ++ m.beside) ∧ q.calls.heap = v.heap ∧
      m.Restacked q frame rest (first + second) v.stack := by
  have hp := step_eq_operated hframes hdecode (fun limit hlimit => by have := hsteps limit hlimit; omega) (by omega)
    hrun hsize
  have hbeside := beside_operated hframes first setting.schedule.instruction w
  have hpaid : (m.gas.consumed + setting.schedule.instruction).toNat =
      m.gas.consumed.toNat + setting.schedule.instruction.toNat := by
    have := m.gas.limit.toNat_lt
    rw [UInt64.toNat_add]
    omega
  have hq := step_eq_operated (m := m.operated frame rest first setting.schedule.instruction w) rfl hnext
    (fun limit hlimit => by have := hsteps limit hlimit; simp only [operated]; omega)
    (by simp only [operated, hpaid]; omega) hrunNext (hbeside ▸ hsizeNext)
  refine ⟨_, _, hp, hq, size_operated hframes _ _ w, ?_, rfl, ?_⟩
  · rw [size_operated rfl, hbeside]
  · exact ⟨by simp only [operated, Nat.add_assoc], rfl, hkept, rfl, rfl, rfl⟩

section Inverse

variable {first second : Nat} {count target : Item} {items below : List Item} {ref : Nat}

/-- Items that are packed and unpacked are where they were. -/
theorem unpack_packed (hm : m.Resolves) (hframes : m.calls.frames = frame :: rest)
    (hsteps : ∀ limit, setting.limits.steps = some limit → m.steps + 2 ≤ limit)
    (hgas : m.gas.consumed.toNat + 2 * setting.schedule.instruction.toNat ≤ m.gas.limit.toNat)
    (hpack : decode frame.script.bytes frame.pointer = .ok (.operate (.collection .pack), first))
    (hunpack : decode frame.script.bytes (frame.pointer + first) = .ok (.operate (.collection .unpack), second))
    (hstack : frame.stack = count :: (items ++ below)) (hcount : count.toInteger = .ok items.length)
    (hlimit : items.length ≤ setting.limits.arraySize) (hsmall : items.length < 2 ^ 63)
    (hsize : m.size ≤ setting.limits.stackSize) :
    ∃ packed restored, step setting m = .ok () packed ∧ step setting packed = .ok () restored ∧
      packed.size = m.size ∧ restored.size = m.size ∧
      m.Restacked restored frame rest (first + second) (.integer items.length :: (items ++ below)) := by
  have hleaf : count.cell? = none := by cases count <;> first | rfl | cases hcount
  have hitems : m.items = count :: (items ++ (below ++ m.beside)) := by
    rw [items_eq_beside hframes, hstack, List.cons_append, List.append_assoc]
  have hresolves : m.calls.heap.Resolves (items ++ (below ++ m.beside)) :=
    hm.mono fun item hitem => mem_held_of_mem_items (hitems ▸ List.mem_cons_of_mem count hitem)
  have hkept := m.calls.heap.keptIn_newList items
  have hpacked : (m.calls.heap.newList items).2.countItems (.array m.calls.heap.lists.size :: below ++ m.beside) =
      m.size := by
    rw [Machine.size, hitems, List.cons_append, Heap.countItems_packed hresolves hleaf]
  have hrestored : (m.calls.heap.newList items).2.countItems (.integer items.length :: (items ++ below) ++ m.beside) =
      m.size := by
    rw [Machine.size, hitems, List.cons_append, List.append_assoc, Heap.countItems_leaf (hkept.resolves hresolves) rfl,
      hkept.countItems_eq hresolves, Heap.countItems_leaf hresolves hleaf]
  have hlist : (m.calls.heap.newList items).2.list m.calls.heap.lists.size = items := by
    rw [Heap.list_newList, if_pos rfl]
  have hrun := CollectionOperator.pack_run m.calls.heap below hcount hlimit hsmall
  have hfresh : (Item.array m.calls.heap.lists.size).toListRef = .ok m.calls.heap.lists.size := rfl
  have hback := CollectionOperator.unpack_run setting.limits below hfresh (hlist.symm ▸ hsmall)
  rw [hlist] at hback
  obtain ⟨packed, restored, hp, hr, hpsize, hrsize, -, hrestacked⟩ := steps_eq_operated hframes hpack hunpack hsteps
    hgas (hstack ▸ hrun) hback hkept (hpacked.trans_le hsize) (hrestored.trans_le hsize)
  exact ⟨packed, restored, hp, hr, hpsize.trans hpacked, hrsize.trans hrestored, hrestacked⟩

/-- Elements that are unpacked and packed are in a new array, and still in the old list. -/
theorem pack_unpacked (hm : m.Resolves) (hframes : m.calls.frames = frame :: rest)
    (hsteps : ∀ limit, setting.limits.steps = some limit → m.steps + 2 ≤ limit)
    (hgas : m.gas.consumed.toNat + 2 * setting.schedule.instruction.toNat ≤ m.gas.limit.toNat)
    (hunpack : decode frame.script.bytes frame.pointer = .ok (.operate (.collection .unpack), first))
    (hpack : decode frame.script.bytes (frame.pointer + first) = .ok (.operate (.collection .pack), second))
    (hstack : frame.stack = target :: below) (htarget : target.toListRef = .ok ref)
    (hitems : m.calls.heap.list ref = items)
    (hlimit : items.length ≤ setting.limits.arraySize) (hsmall : items.length < 2 ^ 63)
    (hsize : (m.withBench ⟨.integer items.length :: (items ++ below), m.calls.heap⟩).size ≤ setting.limits.stackSize) :
    ∃ unpacked repacked fresh, step setting m = .ok () unpacked ∧ step setting unpacked = .ok () repacked ∧
      repacked.size = unpacked.size ∧ m.Restacked repacked frame rest (first + second) (.array fresh :: below) ∧
      ¬m.calls.heap.Has (.list fresh) ∧ repacked.calls.heap.list fresh = items ∧
      repacked.calls.heap.list ref = items := by
  have hcell : target.cell? = some (.list ref) := by cases target <;> cases htarget <;> rfl
  have hheld : m.calls.heap.Resolves (target :: (below ++ m.beside)) := by
    have hsame : m.items = target :: (below ++ m.beside) := by rw [items_eq_beside hframes, hstack, List.cons_append]
    exact hm.mono fun item hitem => mem_held_of_mem_items (hsame ▸ hitem)
  have hresolves : m.calls.heap.Resolves (items ++ (below ++ m.beside)) := by
    rintro cell ⟨item, hitem, hleads⟩
    refine hheld cell ⟨item, hitem.trans fun other hother => ?_, hleads⟩
    rcases List.mem_append.1 hother with hother | hother
    · rw [← hitems] at hother
      exact .inside (.root List.mem_cons_self) hcell hother
    · exact .root (List.mem_cons_of_mem target hother)
  have hkept := m.calls.heap.keptIn_newList items
  have hunpacked : m.calls.heap.countItems (.integer items.length :: (items ++ below) ++ m.beside) ≤
      setting.limits.stackSize := by
    rwa [Machine.size, items_withBench (by simp [hframes])] at hsize
  have hrepacked : (m.calls.heap.newList items).2.countItems (.array m.calls.heap.lists.size :: below ++ m.beside) =
      m.calls.heap.countItems (.integer items.length :: (items ++ below) ++ m.beside) := by
    rw [List.cons_append, List.cons_append, List.append_assoc]
    exact Heap.countItems_packed hresolves rfl
  have hrun := CollectionOperator.unpack_run setting.limits below htarget (hitems.symm ▸ hsmall)
  rw [hitems] at hrun
  have hcount : (Item.integer items.length).toInteger = .ok items.length := rfl
  have hback := CollectionOperator.pack_run m.calls.heap below hcount hlimit hsmall
  obtain ⟨unpacked, repacked, hu, hr, husize, hrsize, hheap, hrestacked⟩ := steps_eq_operated hframes hunpack hpack hsteps
    hgas (hstack ▸ hrun) hback hkept hunpacked (hrepacked.trans_le hunpacked)
  refine ⟨unpacked, repacked, m.calls.heap.lists.size, hu, hr, ?_, hrestacked, Nat.lt_irrefl _, ?_, ?_⟩
  · rw [hrsize, husize, hrepacked]
  · rw [hheap, Heap.list_newList, if_pos rfl]
  · rw [hheap, hkept.list ref (hheld (.list ref) ⟨target, .root List.mem_cons_self, hcell⟩), hitems]

/-- Items can be packed under their number and unpacked again, and the elements of an array or struct can be unpacked
and packed again.  The first gives back the items, and the machine has the same size all the way.  The second gives a new
array with the elements, which the size of the machine does not see.  A list of `2 ^ 63` items has no place in memory,
and its length would not be pushed as it is. -/
theorem packing_inverse (hm : m.Resolves) (hframes : m.calls.frames = frame :: rest)
    (hsteps : ∀ limit, setting.limits.steps = some limit → m.steps + 2 ≤ limit)
    (hgas : m.gas.consumed.toNat + 2 * setting.schedule.instruction.toNat ≤ m.gas.limit.toNat) :
    (∀ first second count items below,
      decode frame.script.bytes frame.pointer = .ok (.operate (.collection .pack), first) →
      decode frame.script.bytes (frame.pointer + first) = .ok (.operate (.collection .unpack), second) →
      frame.stack = count :: (items ++ below) → count.toInteger = .ok items.length →
      items.length ≤ setting.limits.arraySize → items.length < 2 ^ 63 → m.size ≤ setting.limits.stackSize →
      ∃ packed restored, step setting m = .ok () packed ∧ step setting packed = .ok () restored ∧
        packed.size = m.size ∧ restored.size = m.size ∧
        m.Restacked restored frame rest (first + second) (.integer items.length :: (items ++ below))) ∧
    ∀ first second target ref items below,
      decode frame.script.bytes frame.pointer = .ok (.operate (.collection .unpack), first) →
      decode frame.script.bytes (frame.pointer + first) = .ok (.operate (.collection .pack), second) →
      frame.stack = target :: below → target.toListRef = .ok ref → m.calls.heap.list ref = items →
      items.length ≤ setting.limits.arraySize → items.length < 2 ^ 63 →
      (m.withBench ⟨.integer items.length :: (items ++ below), m.calls.heap⟩).size ≤ setting.limits.stackSize →
      ∃ unpacked repacked fresh, step setting m = .ok () unpacked ∧ step setting unpacked = .ok () repacked ∧
        repacked.size = unpacked.size ∧ m.Restacked repacked frame rest (first + second) (.array fresh :: below) ∧
        ¬m.calls.heap.Has (.list fresh) ∧ repacked.calls.heap.list fresh = items ∧
        repacked.calls.heap.list ref = items :=
  ⟨fun _ _ _ _ _ => unpack_packed hm hframes hsteps hgas, fun _ _ _ _ _ _ => pack_unpacked hm hframes hsteps hgas⟩

end Inverse

/-- A machine before the first instruction of a script, with gas for two, and with an array that holds itself. -/
def poised (script : Bytes) (stack : List Item) : Machine where
  gas := { limit := 2 }
  calls :=
    { frames := [{ script := { bytes := script, hash := Hashing.hash160 script }, stack, statics := 0 }]
      statics := #[none]
      heap := { lists := #[[.array 0, .integer 7]] } }

/-- One array is packed twice under the byte 2, and comes back twice under the integer 2.  The elements of a struct are
packed into a second list. -/
theorem packed_twice : ∃ packed restored unpacked repacked fresh,
    step Setting.blank (poised [0xC1, 0xC2] [.byteArray [2], .array 0, .array 0, .boolean true]) = .ok () packed ∧
    step Setting.blank packed = .ok () restored ∧
    restored.calls.frames.map Frame.stack = [[.integer 2, .array 0, .array 0, .boolean true]] ∧
    step Setting.blank (poised [0xC2, 0xC1] [.struct 0]) = .ok () unpacked ∧
    step Setting.blank unpacked = .ok () repacked ∧ repacked.calls.frames.map Frame.stack = [[.array fresh]] ∧
    repacked.calls.heap.list fresh = [.array 0, .integer 7] := by
  have hfree (m : Machine) : ∀ limit, Setting.blank.limits.steps = some limit → m.steps + 2 ≤ limit := nofun
  obtain ⟨hback, -⟩ := packing_inverse (m := poised [0xC1, 0xC2] [.byteArray [2], .array 0, .array 0, .boolean true])
    (Heap.resolves_of_forall (by decide) (by decide)) rfl (hfree _) (by decide)
  obtain ⟨-, hagain⟩ := packing_inverse (m := poised [0xC2, 0xC1] [.struct 0])
    (Heap.resolves_of_forall (by decide) (by decide)) rfl (hfree _) (by decide)
  obtain ⟨packed, restored, hp, hr, -, -, hrestacked⟩ :=
    hback 1 1 (.byteArray [2]) [.array 0, .array 0] [.boolean true] rfl rfl rfl rfl (by decide) (by decide)
      (by decide +kernel)
  obtain ⟨unpacked, repacked, fresh, hu, hf, -, hrepacked, -, hlist, -⟩ :=
    hagain 1 1 (.struct 0) 0 [.array 0, .integer 7] [] rfl rfl rfl rfl rfl (by decide) (by decide) (by decide +kernel)
  exact ⟨packed, restored, unpacked, repacked, fresh, hp, hr, by rw [hrestacked.frames]; rfl, hu, hf,
    by rw [hrepacked.frames]; rfl, hlist⟩

end Machine
end LedgerVM
