import LedgerVM.Service.Basic
import LedgerVM.Service.State

/-!
# Services that look up ledger entities

A look-up leaves the handle of what it finds, or the empty byte string.  An unknown account is an
account without anything in it.
-/

namespace LedgerVM

/-- The block that an operand asks for: up to five bytes are an index and 32 bytes a hash. -/
def BlockId.ofBytes (bytes : Bytes) : Except Fault BlockId :=
  match Digest.ofBytes? 32 bytes with
  | some h => .ok (.hash h)
  | none =>
    if bytes.length ≤ 5 then
      let i := bytes.toInt
      if 0 ≤ i ∧ i < UInt32.size then .ok (.index (UInt32.ofNat i.toNat))
      else .error (.refused .blockIndexRange)
    else .error (.refused .blockIdWidth)

/-- Puts the handle of an entity that was found on top, or the empty byte string. -/
def Operation.pushFound (found : Option (Entity × Origin)) : Operation Unit :=
  match found with
  | some (entity, origin) => .pushHandle entity origin
  | none => .push .empty

/-- Runs a look-up in the ledger. -/
def ChainService.run (ledger : Ledger) : ChainService → Operation Unit
  | getHeight => do .pushNumber (← .lookUp ledger.height).toNat
  | getHeader => do
    let id ← Action.ofExcept (BlockId.ofBytes (← .popBytes))
    .pushFound ((← .lookUp (ledger.header id)).map fun (height, header) =>
      (.header header, .chain height))
  | getBlock => do
    let id ← Action.ofExcept (BlockId.ofBytes (← .popBytes))
    .pushFound ((← .lookUp (ledger.block id)).map fun (height, block) =>
      (.block block, .chain height))
  | getTransaction => do
    let hash ← .popHash256
    .pushFound ((← .lookUp (ledger.transaction hash)).map fun (place, tx) =>
      (.transaction tx, place.origin))
  | getTransactionHeight => do
    let hash ← .popHash256
    match ← .lookUp (ledger.transaction hash) with
    | some (place, _) => .pushNumber (UInt32.ofNat place.height).toNat
    | none => .pushNumber (-1)
  | getAccount => do
    let hash ← .popHash160
    match ← .lookUp (ledger.account hash) with
    | some account => .pushHandle (.account account) (.table hash.bytes)
    | none => .pushFresh (.account (.empty hash))
  | getValidators => do
    let validators ← .lookUp ledger.validators
    .pushArray (validators.zipIdx.map fun (v, i) =>
      .interface { entity := .validator v, origin := .seat i })
  | getAsset => do
    let id ← .popHash256
    .pushFound ((← .lookUp (ledger.asset id)).map fun asset => (.asset asset, .table id.bytes))
  | getContract => do
    let hash ← .popHash160
    .pushFound ((← .lookUp (ledger.contract hash)).map fun contract =>
      (.contract contract, .table hash.bytes))

end LedgerVM
