import HashedDenial.Nsec3.Basic
import HashedDenial.TypeBitmap

/-!
# NSEC3 records on the wire

A record is its owner, the type and class codes, a time to live and its data behind a length of two
octets. Records of other types and classes are refused. The time to live is no part of a record: it
is skipped by the reader and given to the writer.
-/
namespace HashedDenial.Nsec3

open Octets

/-- The code of the Internet class, the only one that is read and written. -/
def internetClass : Nat := 1

/-! ## Reading -/

/-- Reads the data of a record, which must fill the input. The next hash must not be empty. -/
def readData? (owner : Name) (input : Octets) : Option Nsec3 := do
  let (algorithm, input) ← readNumber? 1 input
  let (flags, input) ← readNumber? 1 input
  let (iterations, input) ← readNumber? 2 input
  let (salt, input) ← readCounted? input
  let (nextHash, input) ← readCounted? input
  let types ← TypeBitmap.read? input
  let params := ⟨UInt8.ofNat algorithm, UInt16.ofNat iterations, salt⟩
  if nextHash.isEmpty then none else some ⟨owner, params, UInt8.ofNat flags, nextHash, types⟩

/-- Reads one record and returns the octets after it. -/
def read? (input : Octets) : Option (Nsec3 × Octets) := do
  let (owner, input) ← Name.read? input
  let (type, input) ← readNumber? 2 input
  let (recordClass, input) ← readNumber? 2 input
  let (_, input) ← readNumber? 4 input
  let (length, input) ← readNumber? 2 input
  let (data, rest) ← readExactly? length input
  if type = RRType.nsec3.toNat ∧ recordClass = internetClass then do
    let record ← readData? owner data
    some (record, rest)
  else none

theorem length_of_read? {input rest : Octets} {record : Nsec3}
    (returned : read? input = some (record, rest)) : rest.length < input.length := by
  simp only [read?, bind, Option.bind_eq_some_iff] at returned
  obtain ⟨⟨owner, afterOwner⟩, owned, ⟨type, afterType⟩, typed, ⟨recordClass, afterClass⟩, classed,
    ⟨ttl, afterTtl⟩, timed, ⟨length, afterLength⟩, measured, ⟨data, tail⟩, split, read⟩ := returned
  have ownerShorter := Name.length_of_read? owned
  have typeLength := length_of_readNumber? typed
  have classLength := length_of_readNumber? classed
  have ttlLength := length_of_readNumber? timed
  have lengthLength := length_of_readNumber? measured
  have dataLength := length_of_readExactly? split
  split at read
  · obtain ⟨_, _, same⟩ := Option.bind_eq_some_iff.mp read
    cases same
    simp at *
    omega
  · cases read

/-- Reads records until the input is used up. -/
def readStream? (input : Octets) : Option (List Nsec3) :=
  if input.isEmpty then some []
  else
    match found : read? input with
    | some (record, rest) =>
      have := length_of_read? found
      (readStream? rest).map (record :: ·)
    | none => none
termination_by input.length

/-! ## Writing -/

/-- Whether the record has a wire form: the salt and the next hash must fit behind a count of one
octet, and the next hash must not be empty. -/
def IsWritable (record : Nsec3) : Prop :=
  record.params.salt.length ≤ 255 ∧ 0 < record.nextHash.length ∧ record.nextHash.length ≤ 255

instance (record : Nsec3) : Decidable record.IsWritable :=
  inferInstanceAs (Decidable (_ ∧ _ ∧ _))

/-- The data of a record, which follows the fields that all records share. -/
def data (record : Nsec3) : Octets :=
  [record.params.algorithm, record.flags] ++ toBigEndian 2 record.params.iterations.toNat ++
    counted record.params.salt ++ counted record.nextHash ++ TypeBitmap.write record.types

/-- The wire form of a record with the given time to live. -/
def wire (ttl : UInt32) (record : Nsec3) : Octets :=
  record.owner.wire ++ toBigEndian 2 RRType.nsec3.toNat ++ toBigEndian 2 internetClass ++
    toBigEndian 4 ttl.toNat ++ toBigEndian 2 record.data.length ++ record.data

/-- Appends a record to a buffer and tells whether it could be written. One that cannot leaves the
buffer as it was. -/
def write (ttl : UInt32) (record : Nsec3) : StateM Octets Bool := do
  if record.IsWritable then
    modify (· ++ record.wire ttl)
    return true
  else
    return false

/-- Appends all records that can be written, and tells of each whether it was. -/
def writeAll (ttl : UInt32) (records : List Nsec3) : StateM Octets (List Bool) :=
  records.mapM (write ttl)

end HashedDenial.Nsec3
