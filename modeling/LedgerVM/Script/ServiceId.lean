import LedgerVM.Hashing.Sha256

/-!
# Service ids

A script names a service by the first four bytes of the SHA-256 digest of its name.
-/

namespace LedgerVM

/-- The id of the service with this name. -/
def serviceId (name : Bytes) : UInt32 :=
  UInt32.ofNat (Bytes.toNat ((Hashing.sha256 name).bytes.take 4))

end LedgerVM
