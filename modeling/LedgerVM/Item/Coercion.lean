import LedgerVM.Item.Basic

/-!
# Coercions of items

An operation asks an item for the shape it needs.  An item that does not have it is a mismatch that
names the shape expected; an integer wider than 32 bytes is an overflow.
-/

namespace LedgerVM.Item

/-- The widest byte string that counts as an integer. -/
def integerBytes : Nat := 32

/-- The truth value of an item: a primitive is false if it encodes zero in at most 32 bytes, and
every other item is true. -/
def toBool : Item → Bool
  | boolean value => value
  | integer value => value ≠ 0
  | byteArray bytes => integerBytes < bytes.length || bytes.any (· ≠ 0)
  | array _ | struct _ | map _ | interface _ => true

/-- The byte encoding of a primitive item. -/
def toBytes (item : Item) : Except Fault Bytes :=
  match item.encoding? with
  | some bytes => .ok bytes
  | none => .error (.mismatch .buffer)

/-- The integer that a primitive item stands for. -/
def toInteger : Item → Except Fault Int
  | integer value => .ok value
  | boolean value => .ok (if value then 1 else 0)
  | byteArray bytes =>
    if integerBytes < bytes.length then .error (.integerOverflow integerBytes) else .ok bytes.toInt
  | array _ | struct _ | map _ | interface _ => .error (.mismatch .integer)

/-- The reference of an array or a struct. -/
def toListRef : Item → Except Fault Nat
  | array ref | struct ref => .ok ref
  | _ => .error (.mismatch .array)

/-- The reference of a struct. -/
def toStructRef : Item → Except Fault Nat
  | struct ref => .ok ref
  | _ => .error (.mismatch .struct)

/-- The reference of a map. -/
def toMapRef : Item → Except Fault Nat
  | map ref => .ok ref
  | _ => .error (.mismatch .map)

/-- The handle in an interface. -/
def toHandle : Item → Except Fault Handle
  | interface handle => .ok handle
  | _ => .error (.mismatch .interface)

/-- The entity in an interface, if `select` finds it to be of the kind expected. -/
def toEntity {α : Type} (expected : Mismatch) (select : Entity → Option α) : Item → Except Fault α
  | interface handle =>
    match select handle.entity with
    | some a => .ok a
    | none => .error (.mismatch expected)
  | _ => .error (.mismatch expected)

/-- The header in an interface. -/
def toHeader : Item → Except Fault Header :=
  toEntity .header fun | .header h => some h | _ => none

/-- The block in an interface. -/
def toBlock : Item → Except Fault Block :=
  toEntity .block fun | .block b => some b | _ => none

/-- The header in an interface, or the header of the block in it. -/
def toBlockBase : Item → Except Fault Header :=
  toEntity .blockBase fun | .header h => some h | .block b => some b.header | _ => none

/-- The transaction in an interface. -/
def toTransaction : Item → Except Fault Transaction :=
  toEntity .transaction fun | .transaction tx => some tx | _ => none

/-- The attribute in an interface. -/
def toAttribute : Item → Except Fault Attribute :=
  toEntity .txAttribute fun | .txAttribute a => some a | _ => none

/-- The item itself, if it is an attribute's interface. -/
def toAttributeItem (item : Item) : Except Fault Item :=
  toEntity .txAttributeItem (fun | .txAttribute _ => some item | _ => none) item

/-- The input in an interface. -/
def toInput : Item → Except Fault Input :=
  toEntity .input fun | .input i => some i | _ => none

/-- The output in an interface. -/
def toOutput : Item → Except Fault Output :=
  toEntity .output fun | .output o => some o | _ => none

/-- The account in an interface. -/
def toAccount : Item → Except Fault Account :=
  toEntity .account fun | .account a => some a | _ => none

/-- The asset in an interface. -/
def toAsset : Item → Except Fault Asset :=
  toEntity .asset fun | .asset a => some a | _ => none

/-- The contract in an interface. -/
def toContract : Item → Except Fault Contract :=
  toEntity .contract fun | .contract c => some c | _ => none

/-- The validator in an interface. -/
def toValidator : Item → Except Fault Validator :=
  toEntity .validator fun | .validator v => some v | _ => none

/-- The storage context in an interface. -/
def toStorageContext : Item → Except Fault StorageContext :=
  toEntity .storageContext fun | .storageContext c => some c | _ => none

end LedgerVM.Item
