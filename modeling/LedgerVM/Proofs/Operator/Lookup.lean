import LedgerVM.Proofs.Operator.Maps

/-!
# Looking elements up

A key addresses an element of an array or struct, or the value of a map's entry (`Heap.addressed`).  `HASKEY` says
whether there is one and `PICKITEM` takes it.  The two check an index each in its own way, and `SETITEM` and `REMOVE`
check it as `PICKITEM` does (`elementIndex_of_addressed`).
-/

namespace LedgerVM

/-- What a key addresses in a target, if there is anything.  It fails where the question makes no sense. -/
def Heap.addressed (h : Heap) (target key : Item) : Except Fault (Option Item) :=
  match target with
  | .array ref | .struct ref =>
    match key.toInteger with
    | .ok index => if index < 0 then .error (.refused .negativeIndex) else .ok (h.list ref)[index.toNat]?
    | .error fault => .error fault
  | .map ref =>
    match MapKey.ofItem key with
    | .ok mapKey => .ok ((h.map ref).find? mapKey)
    | .error fault => .error fault
  | _ => .error (.mismatch .array)

/-- The fault for what is not in a target. -/
def Heap.Misses (h : Heap) (target : Item) (fault : Fault) : Prop :=
  match target with
  | .array ref | .struct ref => ∃ index, fault = .indexOutOfRange index (h.list ref).length
  | .map _ => fault = .keyNotFound
  | _ => False

variable {limits : Limits} {h k : Heap} {target key value copy : Item} {below : List Item} {ref : Nat}

/-- An index passes the one check if there is an element for the other. -/
theorem elementIndex_of_addressed (h : Heap) (key : Item) (htarget : target.toListRef = .ok ref) :
    match h.addressed target key with
    | .ok (some item) => ∃ i, elementIndex key (h.list ref).length = .ok i ∧ (h.list ref)[i]? = some item
    | .ok none => ∃ index, elementIndex key (h.list ref).length = .error (.indexOutOfRange index (h.list ref).length)
    | .error _ => ∃ fault, elementIndex key (h.list ref).length = .error fault := by
  have haddressed : h.addressed target key = h.addressed (.array ref) key := by
    cases target <;> cases htarget <;> rfl
  rw [haddressed]
  unfold Heap.addressed elementIndex
  cases key.toInteger with
  | error fault => exact ⟨fault, rfl⟩
  | ok index =>
    dsimp only [bind, Except.bind]
    by_cases hnegative : index < 0
    · rw [if_pos hnegative, if_neg (by omega)]
      exact ⟨_, rfl⟩
    · rw [if_neg hnegative]
      by_cases hin : index.toNat < (h.list ref).length
      · rw [List.getElem?_eq_getElem hin, if_pos (by omega)]
        exact ⟨_, rfl, List.getElem?_eq_getElem hin⟩
      · rw [List.getElem?_eq_none (by omega), if_neg (by omega)]
        exact ⟨_, rfl⟩

/-- An index passes the check exactly if there is an element. -/
theorem elementIndex_ok_iff (htarget : target.toListRef = .ok ref) :
    (∃ i, elementIndex key (h.list ref).length = .ok i) ↔ ∃ item, h.addressed target key = .ok (some item) := by
  have hindex := elementIndex_of_addressed h key htarget
  cases haddressed : h.addressed target key with
  | error fault =>
    rw [haddressed] at hindex
    obtain ⟨other, hother⟩ := hindex
    simp [hother]
  | ok found =>
    cases found with
    | none =>
      rw [haddressed] at hindex
      obtain ⟨index, hindex⟩ := hindex
      simp [hindex]
    | some item =>
      rw [haddressed] at hindex
      obtain ⟨i, hi, -⟩ := hindex
      exact iff_of_true ⟨i, hi⟩ ⟨item, rfl⟩

namespace CollectionOperator

/-- Whether a truth value is pushed, and which, hangs on what is addressed. -/
theorem hasKey_run : hasKey.run limits ⟨key :: target :: below, h⟩ =
    match h.addressed target key with
    | .ok found => .ok () ⟨.boolean found.isSome :: below, h⟩
    | .error fault => .error fault ⟨below, h⟩ := by
  have hlist (ref : Nat) : (do
      let index ← Action.ofExcept key.toInteger
      if index < 0 then throw (.refused .negativeIndex)
      Operation.pushBool (index < (h.list ref).length) : Operation Unit) ⟨below, h⟩ =
        match h.addressed (.array ref) key with
        | .ok found => .ok () ⟨.boolean found.isSome :: below, h⟩
        | .error fault => .error fault ⟨below, h⟩ := by
    unfold Heap.addressed
    cases hkey : key.toInteger with
    | error fault => rfl
    | ok index =>
      rw [Action.bind_of_ok (Action.ofExcept_eq_ok.2 ⟨rfl, rfl⟩)]
      by_cases hnegative : index < 0
      · simp only [if_pos hnegative]
        rfl
      · have hin : (h.list ref)[index.toNat]?.isSome = decide (index < (h.list ref).length) := by
          rw [Bool.eq_iff_iff, Option.isSome_iff_ne_none, ne_eq, List.getElem?_eq_none_iff, decide_eq_true_iff]
          omega
        simp only [if_neg hnegative, hin]
        rfl
  cases target with
  | array ref | struct ref => exact hlist ref
  | map ref =>
    show (Action.ofExcept (MapKey.ofItem key) >>= fun mapKey => Operation.pushBool ((h.map ref).contains mapKey))
      ⟨below, h⟩ = _
    unfold Heap.addressed
    cases MapKey.ofItem key with
    | error fault => rfl
    | ok mapKey =>
      rw [Action.bind_of_ok (Action.ofExcept_eq_ok.2 ⟨rfl, rfl⟩), Dictionary.contains_eq_isSome_find?]
      rfl
  | _ => rfl

/-- What is addressed is taken, and what is missing is a fault. -/
theorem pickItem_of_addressed (limits : Limits) (h : Heap) (target key : Item) (below : List Item) :
    match h.addressed target key with
    | .ok (some item) => pickItem.run limits ⟨key :: target :: below, h⟩ = .ok () ⟨item :: below, h⟩
    | .ok none => ∃ fault, h.Misses target fault ∧
        pickItem.run limits ⟨key :: target :: below, h⟩ = .error fault ⟨below, h⟩
    | .error _ => ∃ fault, pickItem.run limits ⟨key :: target :: below, h⟩ = .error fault ⟨below, h⟩ := by
  cases htarget : target.toListRef with
  | ok ref =>
    have hrun : pickItem.run limits ⟨key :: target :: below, h⟩ =
        (Action.ofExcept (elementIndex key (h.list ref).length) >>= fun index =>
          Operation.push ((h.list ref).getD index default)) ⟨below, h⟩ := by
      cases target <;> cases htarget <;> rfl
    have hmisses {fault : Fault} (hfault : ∃ index, fault = .indexOutOfRange index (h.list ref).length) :
        h.Misses target fault := by
      cases target <;> cases htarget <;> exact hfault
    have hindex := elementIndex_of_addressed h key htarget
    rw [hrun]
    split at hindex
    · obtain ⟨i, hi, hitem⟩ := hindex
      rw [Action.bind_of_ok (Action.ofExcept_eq_ok.2 ⟨hi, rfl⟩), List.getD_eq_getElem?_getD, hitem]
      rfl
    · obtain ⟨index, hindex⟩ := hindex
      exact ⟨_, hmisses ⟨index, rfl⟩, Action.bind_of_error (Action.ofExcept_eq_error.2 ⟨hindex, rfl⟩)⟩
    · obtain ⟨fault, hfault⟩ := hindex
      exact ⟨fault, Action.bind_of_error (Action.ofExcept_eq_error.2 ⟨hfault, rfl⟩)⟩
  | error other =>
    cases target with
    | array ref | struct ref => cases htarget
    | map ref =>
      unfold Heap.addressed
      cases hkey : MapKey.ofItem key with
      | error fault =>
        have hread : Action.ofExcept (MapKey.ofItem key) (⟨below, h⟩ : Workbench) = .error fault ⟨below, h⟩ :=
          Action.ofExcept_eq_error.2 ⟨hkey, rfl⟩
        exact ⟨fault, (Action.bind_of_error hread).trans rfl⟩
      | ok mapKey =>
        have hread : Action.ofExcept (MapKey.ofItem key) (⟨below, h⟩ : Workbench) = .ok mapKey ⟨below, h⟩ :=
          Action.ofExcept_eq_ok.2 ⟨hkey, rfl⟩
        dsimp only
        cases hfound : (h.map ref).find? mapKey with
        | some item =>
          refine (Action.bind_of_ok hread).trans ?_
          rw [hfound]
          rfl
        | none =>
          refine ⟨_, rfl, (Action.bind_of_ok hread).trans ?_⟩
          rw [hfound]
          rfl
    | _ => exact ⟨_, rfl⟩

/-- An element can be removed exactly if there is one. -/
theorem remove_ok_iff (htarget : target.toListRef = .ok ref) :
    (∃ v, remove.run limits ⟨key :: target :: below, h⟩ = .ok () v) ↔
      ∃ item, h.addressed target key = .ok (some item) := by
  have hrun : remove.run limits ⟨key :: target :: below, h⟩ =
      (Action.ofExcept (elementIndex key (h.list ref).length) >>= fun index =>
        Operation.modifyHeap (·.setList ref ((h.list ref).eraseIdx index))) ⟨below, h⟩ := by
    cases target <;> cases htarget <;> rfl
  rw [hrun, ← elementIndex_ok_iff htarget]
  cases elementIndex key (h.list ref).length <;> simp [Action.bind_apply, Action.ofExcept, Operation.modifyHeap]

/-- An element can be set exactly if there is one, once the value has been copied. -/
theorem setItem_ok_iff (htarget : target.toListRef = .ok ref) (href : ref < h.lists.size)
    (hvalue : h.duplicate value = .ok (copy, k)) :
    (∃ v, setItem.run limits ⟨value :: key :: target :: below, h⟩ = .ok () v) ↔
      ∃ item, h.addressed target key = .ok (some item) := by
  have hcopy : Operation.duplicate value ⟨key :: target :: below, h⟩ = .ok copy ⟨key :: target :: below, k⟩ := by
    unfold Operation.duplicate
    rw [hvalue]
  have hrun : setItem.run limits ⟨value :: key :: target :: below, h⟩ =
      (Action.ofExcept (elementIndex key (h.list ref).length) >>= fun index =>
        Operation.modifyHeap (·.setList ref ((h.list ref).set index copy))) ⟨below, k⟩ := by
    rw [← (Heap.duplicate_copyOf hvalue).1.list ref href]
    show (Operation.duplicate value >>= _) (⟨key :: target :: below, h⟩ : Workbench) = _
    rw [Action.bind_of_ok hcopy]
    cases target <;> cases htarget <;> rfl
  rw [hrun, ← elementIndex_ok_iff htarget]
  cases elementIndex key (h.list ref).length <;> simp [Action.bind_apply, Action.ofExcept, Operation.modifyHeap]

end CollectionOperator

end LedgerVM
