import LedgerVM.Ledger.Transaction.Basic

/-!
# Blocks

A block is a header and the transactions persisted with it.
-/

namespace LedgerVM

/-- What identifies a block and ties it to the one before it. -/
structure Header where
  hash : Hash256
  version : UInt32
  prevHash : Hash256
  merkleRoot : Hash256
  /-- Seconds since the beginning of 1970. -/
  timestamp : UInt32
  index : UInt32
  consensusData : UInt64
  nextConsensus : Hash160
  deriving DecidableEq

/-- A header and its transactions, in order. -/
structure Block where
  header : Header
  transactions : List Transaction
  deriving DecidableEq

/-- A block is asked for by its hash or by its height. -/
inductive BlockId where
  | hash (hash : Hash256)
  | index (index : UInt32)
  deriving DecidableEq

end LedgerVM
