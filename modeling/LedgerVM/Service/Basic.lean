import LedgerVM.Script.ServiceId

/-!
# Services

The services that a script can call by their id.  They report on the run, look up ledger entities,
read the fields of entities and reach contract storage.

* `Service.name`, `Service.fixedPrice?`: the table of services.
* `Service.ofId?`: the service with an id.
-/

namespace LedgerVM

/-- Reports on the run. -/
inductive RuntimeService where
  | getTrigger | checkWitness | notify | log | getTime
  deriving DecidableEq, Repr

/-- Reports on the frames and the transaction of the run. -/
inductive EngineService where
  | getScriptContainer | getExecutingScriptHash | getCallingScriptHash | getEntryScriptHash
  deriving DecidableEq, Repr

/-- Look-ups in the ledger. -/
inductive ChainService where
  | getHeight | getHeader | getBlock | getTransaction | getTransactionHeight | getAccount
  | getValidators | getAsset | getContract
  deriving DecidableEq, Repr

/-- Fields of a header. -/
inductive HeaderField where
  | hash | version | prevHash | merkleRoot | timestamp | index | consensusData | nextConsensus
  deriving DecidableEq, Repr

/-- The transactions of a block. -/
inductive BlockService where
  | getTransactionCount | getTransactions | getTransaction
  deriving DecidableEq, Repr

/-- Fields of a transaction, and the outputs it spends. -/
inductive TransactionService where
  | getHash | getType | getAttributes | getInputs | getOutputs | getReferences
  deriving DecidableEq, Repr

/-- Fields of an attribute. -/
inductive AttributeField where
  | usage | data
  deriving DecidableEq, Repr

/-- Fields of an input. -/
inductive InputField where
  | hash | index
  deriving DecidableEq, Repr

/-- Fields of an output. -/
inductive OutputField where
  | assetId | value | scriptHash
  deriving DecidableEq, Repr

/-- Fields of an account, and its balances. -/
inductive AccountService where
  | getScriptHash | getVotes | getBalance
  deriving DecidableEq, Repr

/-- Fields of an asset. -/
inductive AssetField where
  | assetId | type | amount | available | precision | owner | admin | issuer
  deriving DecidableEq, Repr

/-- Fields of a contract, and access to its storage. -/
inductive ContractService where
  | getScript | isPayable | getStorageContext
  deriving DecidableEq, Repr

/-- Contract storage. -/
inductive StorageService where
  | getContext | getReadOnlyContext | get | put | delete | asReadOnly
  deriving DecidableEq, Repr

/-- A service that scripts can call. -/
inductive Service where
  | runtime (service : RuntimeService)
  | engine (service : EngineService)
  | chain (service : ChainService)
  | header (field : HeaderField)
  | block (service : BlockService)
  | transaction (service : TransactionService)
  | txAttribute (field : AttributeField)
  | input (field : InputField)
  | output (field : OutputField)
  | account (service : AccountService)
  | asset (field : AssetField)
  | contract (service : ContractService)
  | validatorKey
  | storage (service : StorageService)
  deriving DecidableEq, Repr

namespace Service

/-- The name of a service. -/
def name : Service → String
  | runtime .getTrigger => "Neo.Runtime.GetTrigger"
  | runtime .checkWitness => "Neo.Runtime.CheckWitness"
  | runtime .notify => "Neo.Runtime.Notify"
  | runtime .log => "Neo.Runtime.Log"
  | runtime .getTime => "Neo.Runtime.GetTime"
  | engine .getScriptContainer => "System.ExecutionEngine.GetScriptContainer"
  | engine .getExecutingScriptHash => "System.ExecutionEngine.GetExecutingScriptHash"
  | engine .getCallingScriptHash => "System.ExecutionEngine.GetCallingScriptHash"
  | engine .getEntryScriptHash => "System.ExecutionEngine.GetEntryScriptHash"
  | chain .getHeight => "Neo.Blockchain.GetHeight"
  | chain .getHeader => "Neo.Blockchain.GetHeader"
  | chain .getBlock => "Neo.Blockchain.GetBlock"
  | chain .getTransaction => "Neo.Blockchain.GetTransaction"
  | chain .getTransactionHeight => "Neo.Blockchain.GetTransactionHeight"
  | chain .getAccount => "Neo.Blockchain.GetAccount"
  | chain .getValidators => "Neo.Blockchain.GetValidators"
  | chain .getAsset => "Neo.Blockchain.GetAsset"
  | chain .getContract => "Neo.Blockchain.GetContract"
  | header .hash => "Neo.Header.GetHash"
  | header .version => "Neo.Header.GetVersion"
  | header .prevHash => "Neo.Header.GetPrevHash"
  | header .merkleRoot => "Neo.Header.GetMerkleRoot"
  | header .timestamp => "Neo.Header.GetTimestamp"
  | header .index => "Neo.Header.GetIndex"
  | header .consensusData => "Neo.Header.GetConsensusData"
  | header .nextConsensus => "Neo.Header.GetNextConsensus"
  | block .getTransactionCount => "Neo.Block.GetTransactionCount"
  | block .getTransactions => "Neo.Block.GetTransactions"
  | block .getTransaction => "Neo.Block.GetTransaction"
  | transaction .getHash => "Neo.Transaction.GetHash"
  | transaction .getType => "Neo.Transaction.GetType"
  | transaction .getAttributes => "Neo.Transaction.GetAttributes"
  | transaction .getInputs => "Neo.Transaction.GetInputs"
  | transaction .getOutputs => "Neo.Transaction.GetOutputs"
  | transaction .getReferences => "Neo.Transaction.GetReferences"
  | txAttribute .usage => "Neo.Attribute.GetUsage"
  | txAttribute .data => "Neo.Attribute.GetData"
  | input .hash => "Neo.Input.GetHash"
  | input .index => "Neo.Input.GetIndex"
  | output .assetId => "Neo.Output.GetAssetId"
  | output .value => "Neo.Output.GetValue"
  | output .scriptHash => "Neo.Output.GetScriptHash"
  | account .getScriptHash => "Neo.Account.GetScriptHash"
  | account .getVotes => "Neo.Account.GetVotes"
  | account .getBalance => "Neo.Account.GetBalance"
  | asset .assetId => "Neo.Asset.GetAssetId"
  | asset .type => "Neo.Asset.GetAssetType"
  | asset .amount => "Neo.Asset.GetAmount"
  | asset .available => "Neo.Asset.GetAvailable"
  | asset .precision => "Neo.Asset.GetPrecision"
  | asset .owner => "Neo.Asset.GetOwner"
  | asset .admin => "Neo.Asset.GetAdmin"
  | asset .issuer => "Neo.Asset.GetIssuer"
  | contract .getScript => "Neo.Contract.GetScript"
  | contract .isPayable => "Neo.Contract.IsPayable"
  | contract .getStorageContext => "Neo.Contract.GetStorageContext"
  | validatorKey => "Neo.Validator.GetPublicKey"
  | storage .getContext => "Neo.Storage.GetContext"
  | storage .getReadOnlyContext => "Neo.Storage.GetReadOnlyContext"
  | storage .get => "Neo.Storage.Get"
  | storage .put => "Neo.Storage.Put"
  | storage .delete => "Neo.Storage.Delete"
  | storage .asReadOnly => "Neo.StorageContext.AsReadOnly"

/-- The price of a service, none for the one whose price hangs on what it writes. -/
def fixedPrice? : Service → Option UInt64
  | runtime .checkWitness => some 200
  | chain .getHeader | chain .getTransaction | chain .getTransactionHeight | chain .getAccount
  | chain .getAsset | chain .getContract => some 100
  | chain .getBlock | chain .getValidators => some 200
  | transaction .getReferences => some 200
  | storage .get | storage .delete => some 100
  | storage .put => none
  | _ => some 1

/-- Every service. -/
def all : List Service :=
  [.getTrigger, .checkWitness, .notify, .log, .getTime].map runtime ++
  [.getScriptContainer, .getExecutingScriptHash, .getCallingScriptHash,
    .getEntryScriptHash].map engine ++
  [.getHeight, .getHeader, .getBlock, .getTransaction, .getTransactionHeight, .getAccount,
    .getValidators, .getAsset, .getContract].map chain ++
  [.hash, .version, .prevHash, .merkleRoot, .timestamp, .index, .consensusData,
    .nextConsensus].map header ++
  [.getTransactionCount, .getTransactions, .getTransaction].map block ++
  [.getHash, .getType, .getAttributes, .getInputs, .getOutputs, .getReferences].map transaction ++
  [.usage, .data].map txAttribute ++
  [.hash, .index].map input ++
  [.assetId, .value, .scriptHash].map output ++
  [.getScriptHash, .getVotes, .getBalance].map account ++
  [.assetId, .type, .amount, .available, .precision, .owner, .admin, .issuer].map asset ++
  [.getScript, .isPayable, .getStorageContext].map contract ++
  [validatorKey] ++
  [.getContext, .getReadOnlyContext, .get, .put, .delete, .asReadOnly].map storage

theorem mem_all (s : Service) : s ∈ all := by
  cases s with
  | validatorKey => decide
  | runtime s | engine s | chain s | header s | block s | transaction s | txAttribute s
  | input s | output s | account s | asset s | contract s | storage s => cases s <;> decide

/-- The id of a service. -/
def id (s : Service) : UInt32 := serviceId (Bytes.ofText s.name)

/-- Every service with its id. -/
def table : List (UInt32 × Service) := all.map fun s => (s.id, s)

/-- The service with an id, if there is one. -/
def ofId? (id : UInt32) : Option Service := table.lookup id

end Service
end LedgerVM
