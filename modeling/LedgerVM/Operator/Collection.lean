import LedgerVM.Machine.Limits
import LedgerVM.Operator.Workbench

/-!
# Arrays, structs and maps

Elements are addressed by an index and entries by a key.  What is stored into a collection, and what
`values` takes out of one, is a duplicate; other elements move as they are.
-/

namespace LedgerVM

/-- The index a key stands for, if it is below the length of the list. -/
def elementIndex (key : Item) (length : Nat) : Except Fault Nat := do
  let index ← key.toInteger
  if 0 ≤ index ∧ index < length then return index.toNat
  else throw (.indexOutOfRange (int64Or maxInt64 index) length)

/-- What an operator finds under a reference popped from the stack. -/
inductive Collection where
  | list (ref : Nat) (items : List Item)
  | map (ref : Nat) (entries : Dictionary)

namespace Operation

/-- The collection an item refers to, if it is one. -/
def collectionOf (item : Item) : Operation (Option Collection) := do
  let h ← heap
  match item with
  | .array ref | .struct ref => return some (.list ref (h.list ref))
  | .map ref => return some (.map ref (h.map ref))
  | _ => return none

/-- Takes a collection. -/
def popCollection : Operation Collection := do
  match ← collectionOf (← pop) with
  | some collection => return collection
  | none => throw (.mismatch .array)

/-- Takes an array or struct: its reference and its elements. -/
def popList : Operation (Nat × List Item) := do
  let ref ← Action.ofExcept (← pop).toListRef
  return (ref, (← heap).list ref)

/-- Takes an array or struct, or a count of fresh elements, and gives the elements. -/
def popElements (limits : Limits) : Operation (List Item) := do
  let item ← pop
  match ← collectionOf item with
  | some (.list _ items) => return items
  | _ =>
    match index? (← Action.ofExcept item.toInteger) with
    | none => throw (.refused .negativeArraySize)
    | some count =>
      if limits.arraySize < count then throw (.arrayTooLarge count limits.arraySize)
      return List.replicate count (.boolean false)

end Operation

/-- Runs an operator on collections. -/
def CollectionOperator.run (limits : Limits) : CollectionOperator → Operation Unit
  | arraySize => do
    let item ← .pop
    match ← Operation.collectionOf item with
    | some (.list _ items) => .pushNumber (wrapInt64 items.length)
    | some (.map _ entries) => .pushNumber (wrapInt64 entries.length)
    | none => .pushNumber (wrapInt64 (← Action.ofExcept item.toBytes).length)
  | pack => do
    let size ← .popIndex
    if limits.arraySize < size then throw (.arrayTooLarge size limits.arraySize)
    .pushArray (← .popMany size)
  | unpack => do
    let (_, items) ← Operation.popList
    .pushAll items
    .pushNumber (wrapInt64 items.length)
  | pickItem => do
    let key ← .pop
    match ← Operation.popCollection with
    | .list _ items =>
      let index ← Action.ofExcept (elementIndex key items.length)
      .push (items.getD index default)
    | .map _ entries =>
      match entries.find? (← Action.ofExcept (MapKey.ofItem key)) with
      | some value => .push value
      | none => throw .keyNotFound
  | setItem => do
    let value ← .duplicate (← .pop)
    let key ← .pop
    match ← Operation.popCollection with
    | .list ref items =>
      let index ← Action.ofExcept (elementIndex key items.length)
      .modifyHeap (·.setList ref (items.set index value))
    | .map ref entries =>
      let key ← Action.ofExcept (MapKey.ofItem key)
      if !entries.contains key && limits.arraySize ≤ entries.length then
        throw (.arrayTooLarge (entries.length + 1) limits.arraySize)
      .modifyHeap (·.setMap ref (entries.insert key value))
  | newArray => do .pushArray (← .popElements limits)
  | newStruct => do .push (.struct (← .newList (← .popElements limits)))
  | newMap => do
    let (ref, h) := (← Operation.heap).newMap []
    .modifyHeap fun _ => h
    .push (.map ref)
  | append => do
    let item ← .duplicate (← .pop)
    let (ref, items) ← Operation.popList
    if limits.arraySize ≤ items.length then
      throw (.arrayTooLarge (items.length + 1) limits.arraySize)
    .modifyHeap (·.setList ref (items ++ [item]))
  | reverse => do
    let (ref, items) ← Operation.popList
    .modifyHeap (·.setList ref items.reverse)
  | remove => do
    let key ← .pop
    match ← Operation.popCollection with
    | .list ref items =>
      let index ← Action.ofExcept (elementIndex key items.length)
      .modifyHeap (·.setList ref (items.eraseIdx index))
    | .map ref entries =>
      let key ← Action.ofExcept (MapKey.ofItem key)
      .modifyHeap (·.setMap ref (entries.erase key))
  | hasKey => do
    let key ← .pop
    match ← Operation.popCollection with
    | .list _ items =>
      let index ← Action.ofExcept key.toInteger
      if index < 0 then throw (.refused .negativeIndex)
      .pushBool (index < items.length)
    | .map _ entries => .pushBool (entries.contains (← Action.ofExcept (MapKey.ofItem key)))
  | keys => do
    let ref ← Action.ofExcept (← .pop).toMapRef
    .pushArray (Dictionary.keys ((← Operation.heap).map ref))
  | values => do
    let items ← match ← Operation.popCollection with
      | .list _ items => pure items
      | .map _ entries => pure entries.values
    .pushArray (← items.mapM .duplicate)

end LedgerVM
