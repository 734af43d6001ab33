import HashedDenial.Base32Hex
import HashedDenial.Denial.Basic
import HashedDenial.HashParams

/-!
# NSEC3 records

The owner of a record is the base32hex text of a hash, as one label below the zone. The record
shows that a name with that hash exists and that no name has a hash between that one and the next.

The hashes of a zone form a ring in lexicographic order. A record matches the names at its own hash
and covers those strictly between its hash and the next one; the last record of the ring leads back
to the first, and a record that is alone covers every hash but its own.
-/
namespace HashedDenial

/-- An NSEC3 record. -/
structure Nsec3 where
  owner : Name
  params : HashParams
  flags : UInt8
  /-- The hash at which the next record of the zone stands, not encoded. -/
  nextHash : Octets
  /-- The types that exist at the name whose hash the owner holds. -/
  types : List RRType
  deriving DecidableEq

namespace Nsec3

/-- The hash that the first label of the owner holds. The root has no labels and reads as the empty
hash. -/
def ownerHash? (record : Nsec3) : Option Octets :=
  match record.owner.labels with
  | [] => Base32Hex.decode? []
  | label :: _ => Base32Hex.decode? label.octets

/-- The zone of the record: all of the owner but its first label. -/
def zone (record : Nsec3) : Name := record.owner.parent?.getD Name.root

/-- Whether the lowest flag is set. -/
def optOut (record : Nsec3) : Bool := record.flags &&& 1 != 0

/-- Records are ordered by owner, then by the parameters, flags, next hash and types in the order in
which the wire form holds them. -/
instance : Ord Nsec3 where
  compare left right :=
    (compare left.owner right.owner)
    |>.then (compare left.params.algorithm right.params.algorithm)
    |>.then (compare left.flags right.flags)
    |>.then (compare left.params.iterations right.params.iterations)
    |>.then (compare left.params.salt right.params.salt)
    |>.then (compare left.nextHash right.nextHash)
    |>.then (compare left.types right.types)

/-- The records in order; equal ones keep their places. -/
def sort (records : List Nsec3) : List Nsec3 :=
  records.mergeSort fun left right => (compare left right).isLE

/-! ## What a record says about a name -/

/-- Whether a hash lies in the gap of the ring from `owner` to `next`, ends not included. -/
def inGap (owner next hash : Octets) : Bool :=
  -- a next hash that is not above the owner has come round to the start of the ring
  if owner < next then owner < hash ∧ hash < next else owner < hash ∨ hash < next

/-- The owner's hash and the hash of a name under the parameters of the record. There are none for a
name outside the zone, an owner that holds no hash or an unknown algorithm. -/
def hashes? (record : Nsec3) (name : Name) : Option (Octets × Octets) :=
  if name.inZone record.zone.text then do
    let owner ← record.ownerHash?
    let hash ← record.params.hash? name
    some (owner, hash)
  else none

/-- Whether the record stands at the hash of a name. -/
def matchesName (record : Nsec3) (name : Name) : Bool :=
  (record.hashes? name).any fun (owner, hash) => owner == hash

/-- Whether the hash of a name lies in the gap after the record. -/
def coversName (record : Nsec3) (name : Name) : Bool :=
  (record.hashes? name).any fun (owner, hash) => inGap owner record.nextHash hash

instance : DenialRecord Nsec3 where
  matchesName := matchesName
  coversName := coversName
  types := types
  optOut := optOut
  zone record := record.zone.text

/-! A record says nothing of a name outside its zone. For a name inside, where the owner holds a
hash and the name can be hashed, the two hashes alone decide what is said. -/

section Says

variable {record : Nsec3} {name : Name} {owner hash : Octets}

theorem matchesName_eq_false (outside : name.inZone record.zone.text = false) :
    record.matchesName name = false := by
  simp [matchesName, hashes?, outside]

variable (held : record.ownerHash? = some owner) (hashed : record.params.hash? name = some hash)

include held hashed

theorem hashes?_eq : record.hashes? name =
    if name.inZone record.zone.text then some (owner, hash) else none := by
  rw [hashes?, held, hashed]
  rfl

theorem matchesName_iff :
    record.matchesName name = true ↔ name.inZone record.zone.text = true ∧ owner = hash := by
  rw [matchesName, hashes?_eq held hashed]
  by_cases inside : name.inZone record.zone.text = true <;> simp [inside]

theorem coversName_iff : record.coversName name = true ↔
    name.inZone record.zone.text = true ∧ inGap owner record.nextHash hash = true := by
  rw [coversName, hashes?_eq held hashed]
  by_cases inside : name.inZone record.zone.text = true <;> simp [inside]

end Says

end Nsec3

end HashedDenial
