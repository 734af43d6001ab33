import HashedDenial.Nsec3.Wire
import HashedDenial.Proofs.Name.Wire
import HashedDenial.Proofs.TypeBitmap

/-!
# Reading records back

The reader takes the fields of a record in the form that the writer gives them, with the owner in
any case and any bitmap of the types. A record that is written from types in order is read back with
its owner in lower case and each type once.
-/
namespace HashedDenial

open Octets

namespace Nsec3

variable {record : Nsec3} {owner : Name} {ttl : UInt32} {input rest buffer : Octets}

/-! ## Forms of a record -/

/-- The data of a record with a bitmap given for its types. -/
def dataWith (bitmap : Octets) (record : Nsec3) : Octets :=
  [record.params.algorithm, record.flags] ++ toBigEndian 2 record.params.iterations.toNat ++
    counted record.params.salt ++ counted record.nextHash ++ bitmap

/-- The form of a record with its owner as it is spelled and a bitmap given for its types. -/
def wireWith (ttl : UInt32) (bitmap : Octets) (record : Nsec3) : Octets :=
  (record.owner.labels.flatMap fun label => counted label.octets) ++ [0] ++
    toBigEndian 2 RRType.nsec3.toNat ++ toBigEndian 2 internetClass ++ toBigEndian 4 ttl.toNat ++
    toBigEndian 2 (record.dataWith bitmap).length ++ record.dataWith bitmap

/-- The record with its owner in lower case and without repeated types. -/
def normal (record : Nsec3) : Nsec3 :=
  { record with owner := record.owner.canonical, types := record.types.dedup }

theorem wire_eq (ttl : UInt32) (record : Nsec3) :
    record.wire ttl = record.normal.wireWith ttl (TypeBitmap.write record.types) := rfl

/-! ## Readers -/

theorem readData?_eq_some_iff : readData? owner input = some record ↔
    record.owner = owner ∧ record.IsWritable ∧
      ∃ bitmap, TypeBitmap.read? bitmap = some record.types ∧ input = record.dataWith bitmap := by
  have one (number : Nat) : toBigEndian 1 number = [UInt8.ofNat number] := rfl
  simp only [readData?, bind, Option.bind_eq_some_iff, readNumber?_eq_some_iff,
    readCounted?_eq_some_iff, Prod.exists, Option.ite_none_left_eq_some, Option.some.injEq, one]
  constructor
  · rintro ⟨algorithm, _, ⟨_, rfl⟩, flags, _, ⟨_, rfl⟩, iterations, _, ⟨small, rfl⟩, salt, _,
      ⟨saltShort, rfl⟩, nextHash, bitmap, ⟨hashShort, rfl⟩, types, read, nonempty, rfl⟩
    have kept : (UInt16.ofNat iterations).toNat = iterations := by
      rw [UInt16.toNat_ofNat']
      omega
    refine ⟨rfl, ⟨saltShort, ?_, hashShort⟩, bitmap, read, ?_⟩
    · simpa [List.length_pos_iff] using nonempty
    · simp [dataWith, kept]
  · rintro ⟨rfl, ⟨saltShort, nonempty, hashShort⟩, bitmap, read, rfl⟩
    refine ⟨record.params.algorithm.toNat, _, ⟨record.params.algorithm.toNat_lt, ?_⟩,
      record.flags.toNat, _, ⟨record.flags.toNat_lt, rfl⟩,
      record.params.iterations.toNat, _, ⟨record.params.iterations.toNat_lt, rfl⟩,
      record.params.salt, _, ⟨saltShort, rfl⟩, record.nextHash, bitmap, ⟨hashShort, rfl⟩,
      record.types, read, ?_, ?_⟩
    · simp [dataWith]
    · simpa [List.length_pos_iff] using nonempty
    · simp

theorem read?_eq_some_iff : read? input = some (record, rest) ↔ record.IsWritable ∧
    ∃ ttl bitmap, TypeBitmap.read? bitmap = some record.types ∧
      (record.dataWith bitmap).length < 65536 ∧ input = record.wireWith ttl bitmap ++ rest := by
  simp only [read?, bind, Option.bind_eq_some_iff, Name.read?_eq_some_iff, readNumber?_eq_some_iff,
    readExactly?_eq_some_iff, Prod.exists, Option.ite_none_right_eq_some, Option.some.injEq,
    readData?_eq_some_iff, Prod.mk.injEq]
  constructor
  · rintro ⟨owner, _, rfl, type, _, ⟨_, rfl⟩, recordClass, _, ⟨_, rfl⟩, ttl, _, ⟨small, rfl⟩,
      length, _, ⟨bound, rfl⟩, data, _, ⟨rfl, rfl⟩, ⟨rfl, rfl⟩, found,
      ⟨rfl, writable, bitmap, read, rfl⟩, rfl, rfl⟩
    have kept : (UInt32.ofNat ttl).toNat = ttl := by
      rw [UInt32.toNat_ofNat']
      omega
    refine ⟨writable, UInt32.ofNat ttl, bitmap, read, bound, ?_⟩
    simp [wireWith, kept]
  · rintro ⟨writable, ttl, bitmap, read, bound, rfl⟩
    refine ⟨record.owner, _, ?_, RRType.nsec3.toNat, _, ⟨by decide, rfl⟩, internetClass, _,
      ⟨by decide, rfl⟩, ttl.toNat, _, ⟨ttl.toNat_lt, rfl⟩, (record.dataWith bitmap).length, _,
      ⟨bound, rfl⟩, record.dataWith bitmap, rest, ⟨rfl, rfl⟩, ⟨rfl, rfl⟩, record,
      ⟨rfl, writable, bitmap, read, rfl⟩, rfl, rfl⟩
    simp [wireWith]

/-! ## Writer -/

theorem length_dataWith (bitmap : Octets) (record : Nsec3) : (record.dataWith bitmap).length =
    record.params.salt.length + record.nextHash.length + bitmap.length + 6 := by
  simp [dataWith, counted]
  omega

/-- Types in order leave the data far shorter than a length of two octets can say. -/
theorem length_data_lt (writable : record.IsWritable) (sorted : record.types.Pairwise (· ≤ ·)) :
    record.data.length < 65536 := by
  obtain ⟨salt, _, nextHash⟩ := writable
  have bitmap : (TypeBitmap.write record.types).length ≤ 34 * 256 :=
    (TypeBitmap.isBitmap_blocksOf (sorted.imp TypeBitmap.window_le_of_le)).length_wire_le
  have total := length_dataWith (TypeBitmap.write record.types) record
  change record.data.length = _ at total
  omega

theorem read?_wire (writable : record.IsWritable) (sorted : record.types.Pairwise (· ≤ ·))
    (ttl : UInt32) (rest : Octets) :
    read? (record.wire ttl ++ rest) = some (record.normal, rest) :=
  read?_eq_some_iff.mpr ⟨writable, ttl, TypeBitmap.write record.types,
    TypeBitmap.read?_write sorted, length_data_lt writable sorted, by rw [wire_eq]⟩

theorem drop_wire (ttl : UInt32) (record : Nsec3) :
    (record.wire ttl).drop (record.owner.wireLength + 8) =
      toBigEndian 2 record.data.length ++ record.data := by
  rw [← Name.length_wire, wire, List.append_assoc, List.drop_left']
  simp

theorem write_of_isWritable (writable : record.IsWritable) :
    (record.write ttl).run buffer = (true, buffer ++ record.wire ttl) := by
  simp only [write, if_pos writable]
  rfl

theorem write_of_not_isWritable (unwritable : ¬ record.IsWritable) :
    (record.write ttl).run buffer = (false, buffer) := by
  simp only [write, if_neg unwritable]
  rfl

theorem not_isWritable_iff : ¬ record.IsWritable ↔
    255 < record.params.salt.length ∨ record.nextHash = [] ∨ 255 < record.nextHash.length := by
  rw [IsWritable, ← List.length_eq_zero_iff]
  omega

/-- A record whose salt and next hash can be counted is appended to the buffer in one form, whose
length field counts the data after it, and is read back from the front of that form with its owner
in lower case and each type once. Any other record leaves the buffer as it was. -/
theorem write_round_trip (ttl : UInt32) (record : Nsec3) (buffer rest : Octets) :
    (record.params.salt.length ≤ 255 → 1 ≤ record.nextHash.length →
      record.nextHash.length ≤ 255 → record.types.Pairwise (· ≤ ·) →
        (record.write ttl).run buffer = (true, buffer ++ record.wire ttl) ∧
        (∃ lengthField, (record.wire ttl).drop (record.owner.wireLength + 8) =
          lengthField ++ record.data ∧ lengthField.length = 2 ∧
          ofBigEndian lengthField = record.data.length) ∧
        read? (record.wire ttl ++ rest) = some ({ record with
          owner := record.owner.canonical, types := record.types.dedup }, rest)) ∧
    (255 < record.params.salt.length ∨ record.nextHash = [] ∨ 255 < record.nextHash.length →
      (record.write ttl).run buffer = (false, buffer)) := by
  refine ⟨fun salt nonempty nextHash sorted => ?_, fun unfit => ?_⟩
  · have writable : record.IsWritable := ⟨salt, nonempty, nextHash⟩
    have short := length_data_lt writable sorted
    exact ⟨write_of_isWritable writable, ⟨_, drop_wire ttl record, length_toBigEndian _ _,
      ofBigEndian_toBigEndian short⟩, read?_wire writable sorted ttl rest⟩
  · apply write_of_not_isWritable
    rintro ⟨salt, nonempty, nextHash⟩
    rcases unfit with long | empty | long
    · omega
    · exact List.ne_nil_of_length_pos nonempty empty
    · omega

end Nsec3

namespace Sample

/-- A record with the longest salt, the first and the last type, one of them twice, and an owner in
capital letters. -/
def longSaltRecord : Nsec3 where
  owner := ⟨[⟨[0x4e], by decide⟩], by decide⟩
  params := ⟨sha1Algorithm, 12, List.replicate 255 0xaa⟩
  flags := 1
  nextHash := [0x80]
  types := [0, 0, 65535]

end Sample

theorem Nsec3.write_round_trip_longSaltRecord :
    Sample.longSaltRecord.IsWritable ∧ Sample.longSaltRecord.types.Pairwise (· ≤ ·) ∧
      Nsec3.read? (Sample.longSaltRecord.wire 3600 ++ [0x01]) = some ({ Sample.longSaltRecord with
        owner := ⟨[⟨[0x6e], by decide⟩], by decide⟩, types := [0, 65535] }, [0x01]) := by
  have writable : Sample.longSaltRecord.IsWritable :=
    ⟨Nat.le_of_eq List.length_replicate, by decide, by decide⟩
  have sorted : Sample.longSaltRecord.types.Pairwise (· ≤ ·) := by decide
  obtain ⟨written, _⟩ := Nsec3.write_round_trip 3600 Sample.longSaltRecord [] [0x01]
  obtain ⟨_, _, read⟩ := written writable.1 writable.2.1 writable.2.2 sorted
  exact ⟨writable, sorted, read⟩

end HashedDenial
