import LedgerVM.Hashing.Sha256
import LedgerVM.Hashing.Ripemd160

/-!
# Combined hashes

A script is named by the RIPEMD-160 digest of its SHA-256 digest; the longer combined hash is
SHA-256 twice.
-/

namespace LedgerVM.Hashing

/-- RIPEMD-160 of SHA-256: the hash that names a script. -/
def hash160 (message : Bytes) : Hash160 := ripemd160 (sha256 message).bytes

/-- SHA-256 of SHA-256. -/
def hash256 (message : Bytes) : Hash256 := sha256 (sha256 message).bytes

end LedgerVM.Hashing
