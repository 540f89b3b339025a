import LedgerVM.Digest
import Std.Data.ExtTreeMap

/-!
# Accounts, assets, contracts and validators

What a ledger records besides its blocks, and the contexts through which contracts reach their
storage.
-/

namespace LedgerVM

/-- An account with the public keys it votes for and its balance of each asset. -/
structure Account where
  scriptHash : Hash160
  isFrozen : Bool := false
  votes : List Bytes := []
  balances : Std.ExtTreeMap Hash256 Int64 := ∅

namespace Account

/-- The account that a script hash without an account stands for. -/
def empty (scriptHash : Hash160) : Account := { scriptHash }

/-- The balance of an asset, zero if the account holds none. -/
def balance (a : Account) (assetId : Hash256) : Int64 := a.balances[assetId]?.getD 0

end Account

/-- What kind of asset an asset is. -/
inductive AssetType where
  | creditFlag | dutyFlag | governingToken | utilityToken | currency | share | invoice | token
  deriving DecidableEq, Repr, Inhabited

/-- The number that stands for an asset type. -/
def AssetType.toByte : AssetType → UInt8
  | creditFlag => 0x40
  | dutyFlag => 0x80
  | governingToken => 0x00
  | utilityToken => 0x01
  | currency => 0x08
  | share => 0x90
  | invoice => 0x98
  | token => 0x60

/-- A registered asset. -/
structure Asset where
  assetId : Hash256
  type : AssetType
  name : String
  /-- The amount that may exist in units of `10⁻⁸`, `-1` for no bound. -/
  amount : Int64
  available : Int64
  precision : UInt8
  /-- The owner's public key. -/
  owner : Bytes
  admin : Hash160
  issuer : Hash160
  expiration : UInt32
  isFrozen : Bool

/-- What a contract may do, one bit each. -/
structure ContractProperties where
  bits : UInt8
  deriving DecidableEq

namespace ContractProperties

/-- The contract has storage of its own. -/
def hasStorage (p : ContractProperties) : Bool := p.bits &&& 1 != 0

/-- The contract may call contracts whose hash it computes. -/
def hasDynamicInvoke (p : ContractProperties) : Bool := p.bits &&& 2 != 0

/-- The contract accepts transfers. -/
def isPayable (p : ContractProperties) : Bool := p.bits &&& 4 != 0

end ContractProperties

/-- A deployed contract. -/
structure Contract where
  scriptHash : Hash160
  script : Bytes
  parameters : Bytes
  returnType : UInt8
  properties : ContractProperties
  name : String

/-- A candidate for validating blocks. -/
structure Validator where
  publicKey : Bytes
  registered : Bool
  votes : Int64

/-- Access to the storage of one contract, for reading and writing or for reading alone. -/
structure StorageContext where
  scriptHash : Hash160
  readOnly : Bool := false
  deriving DecidableEq

/-- The same storage for reading alone. -/
def StorageContext.asReadOnly (c : StorageContext) : StorageContext := { c with readOnly := true }

end LedgerVM
