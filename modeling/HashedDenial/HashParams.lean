import HashedDenial.Name.Wire
import HashedDenial.Sha1

/-!
# Hashed names

Names are hashed in canonical wire form, so names that differ only in case have one hash. The salt
is appended before every application of the hash function.
-/
namespace HashedDenial

/-- The code of SHA-1, the only hash algorithm that is defined. -/
def sha1Algorithm : UInt8 := 1

/-- How the names of a zone are hashed. -/
structure HashParams where
  algorithm : UInt8
  /-- How many times the hash function is applied again after the first. -/
  iterations : UInt16
  salt : Octets
  deriving DecidableEq

/-- The digest of the salted message, salted and hashed again the given number of times. -/
def iteratedDigest (salt message : Octets) (iterations : Nat) : Octets :=
  Nat.repeat (fun digest => Sha1.digest (digest ++ salt)) iterations (Sha1.digest (message ++ salt))

/-- The hash of a name, unless the algorithm is unknown. -/
def HashParams.hash? (params : HashParams) (name : Name) : Option Octets :=
  if params.algorithm = sha1Algorithm then
    some (iteratedDigest params.salt name.wire params.iterations.toNat)
  else none

namespace HashParams

variable {params : HashParams} {name : Name}

/-- Only one algorithm is known, and under it every name has a hash. -/
theorem hash?_eq_some_iff {hash : Octets} : params.hash? name = some hash ↔
    params.algorithm = sha1Algorithm ∧
      iteratedDigest params.salt name.wire params.iterations.toNat = hash := by
  simp [hash?]

theorem hash?_eq_none_iff : params.hash? name = none ↔ params.algorithm ≠ sha1Algorithm := by
  simp [Option.eq_none_iff_forall_ne_some, hash?_eq_some_iff]

theorem hash?_sha1 (iterations : UInt16) (salt : Octets) (name : Name) :
    (⟨sha1Algorithm, iterations, salt⟩ : HashParams).hash? name =
      some (iteratedDigest salt name.wire iterations.toNat) :=
  hash?_eq_some_iff.mpr ⟨rfl, rfl⟩

/-- Names with one wire form have one hash. -/
theorem hash?_congr {other : Name} (same : name.wire = other.wire) :
    params.hash? name = params.hash? other := by
  ext hash
  rw [hash?_eq_some_iff, hash?_eq_some_iff, same]

end HashParams

theorem length_iteratedDigest (salt message : Octets) (iterations : Nat) :
    (iteratedDigest salt message iterations).length = 20 := by
  cases iterations with
  | zero => exact Sha1.length_digest _
  | succ => exact Sha1.length_digest _

end HashedDenial
