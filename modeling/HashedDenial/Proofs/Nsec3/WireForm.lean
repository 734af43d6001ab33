import HashedDenial.Proofs.Nsec3.Wire
import HashedDenial.Proofs.TypeBitmap.Trimmed

/-!
# The forms of records that are read

The reader takes more forms of a record than the writer makes: the owner may be spelled in any case,
and its bitmap need not be trimmed. These are the only liberties. The forms are described part by
part, and no form is the beginning of another. Writing what was read from one lowers its owner,
trims its bitmap and keeps the rest.
-/
namespace HashedDenial

open Octets

namespace Nsec3

/-- The parts of a record on the wire, with the owner as it is spelled and the blocks of the bitmap.
The salt and the next hash fit behind a count of one octet, and the next hash is not empty. -/
@[ext] structure WireForm where
  owner : Name
  ttl : UInt32
  params : HashParams
  flags : UInt8
  nextHash : Octets
  blocks : List TypeBitmap.Block
  salt_le : params.salt.length ≤ 255
  nextHash_pos : 0 < nextHash.length
  nextHash_le : nextHash.length ≤ 255
  isBitmap : TypeBitmap.IsBitmap blocks

namespace WireForm

/-- The labels of the owner, each behind its length, and a zero octet. -/
def name (form : WireForm) : Octets :=
  (form.owner.labels.flatMap fun label => UInt8.ofNat label.octets.length :: label.octets) ++ [0]

/-- The data: algorithm, flags, iterations, the salt and the next hash each behind its length, and
the blocks of the bitmap. -/
def data (form : WireForm) : Octets :=
  [form.params.algorithm, form.flags] ++ toBigEndian 2 form.params.iterations.toNat ++
    counted form.params.salt ++ counted form.nextHash ++
    form.blocks.flatMap TypeBitmap.Block.wire

/-- The whole form: name, type 50, class 1, time to live, and the data behind its length. -/
def octets (form : WireForm) : Octets :=
  form.name ++ [0, 50] ++ [0, 1] ++ toBigEndian 4 form.ttl.toNat ++
    toBigEndian 2 form.data.length ++ form.data

/-- The record that the form spells. -/
def record (form : WireForm) : Nsec3 :=
  ⟨form.owner, form.params, form.flags, form.nextHash,
    form.blocks.flatMap TypeBitmap.Block.types⟩

/-- Whether a record has the fields of the form, and as its types those whose bits are set, in
increasing order. -/
structure Spells (form : WireForm) (record : Nsec3) : Prop where
  owner_eq : record.owner = form.owner
  params_eq : record.params = form.params
  flags_eq : record.flags = form.flags
  nextHash_eq : record.nextHash = form.nextHash
  increasing : record.types.Pairwise (· < ·)
  mem_types_iff : ∀ type, type ∈ record.types ↔ ∃ block ∈ form.blocks,
    TypeBitmap.window type = block.window.toNat ∧
      block.octets.toBits[TypeBitmap.position type]? = some true

variable {form other : WireForm} {record : Nsec3} {input rest rest' : Octets}

theorem spells_iff : form.Spells record ↔ form.record = record := by
  constructor
  · intro spells
    have types : form.record.types = record.types := by
      apply form.isBitmap.pairwise_types.eq_of_mem_iff spells.increasing
      intro type
      rw [spells.mem_types_iff]
      exact form.isBitmap.mem_types_iff
    cases record
    cases spells.owner_eq
    cases spells.params_eq
    cases spells.flags_eq
    cases spells.nextHash_eq
    cases types
    rfl
  · intro same
    cases same
    exact ⟨rfl, rfl, rfl, rfl, form.isBitmap.pairwise_types, fun _ => form.isBitmap.mem_types_iff⟩

/-! ## The reader takes exactly the forms -/

theorem isWritable_record (form : WireForm) : form.record.IsWritable :=
  ⟨form.salt_le, form.nextHash_pos, form.nextHash_le⟩

theorem octets_eq (form : WireForm) : form.octets =
    form.record.wireWith form.ttl (form.blocks.flatMap TypeBitmap.Block.wire) := rfl

/-- The length of the data fits into two octets. -/
theorem length_data_lt (form : WireForm) : form.data.length < 65536 := by
  have total := length_dataWith (form.blocks.flatMap TypeBitmap.Block.wire) form.record
  have bitmap := form.isBitmap.length_wire_le
  have salt : form.record.params.salt.length ≤ 255 := form.salt_le
  have nextHash : form.record.nextHash.length ≤ 255 := form.nextHash_le
  change form.data.length = _ at total
  omega

theorem read?_octets (form : WireForm) (rest : Octets) :
    read? (form.octets ++ rest) = some (form.record, rest) :=
  read?_eq_some_iff.mpr ⟨form.isWritable_record, form.ttl, _,
    form.isBitmap.read?_wire, form.length_data_lt, by rw [octets_eq]⟩

theorem exists_of_read? (returned : read? input = some (record, rest)) :
    ∃ form : WireForm, form.record = record ∧ input = form.octets ++ rest := by
  obtain ⟨⟨salt, nonempty, nextHash⟩, ttl, bitmap, read, _, spelled⟩ :=
    read?_eq_some_iff.mp returned
  obtain ⟨blocks, isBitmap, rfl, types⟩ := TypeBitmap.read?_eq_some_iff.mp read
  let form : WireForm :=
    ⟨record.owner, ttl, record.params, record.flags, record.nextHash, blocks, salt, nonempty,
      nextHash, isBitmap⟩
  have same : form.record = record := by
    cases record
    cases types
    rfl
  refine ⟨form, same, ?_⟩
  rw [octets_eq, same]
  exact spelled

/-! ## No form is the beginning of another -/

/-- The time to live and the bitmap are seen in the form of a record. -/
theorem wireWith_inj {ttl ttl' : UInt32} {bitmap bitmap' : Octets}
    (same : record.wireWith ttl bitmap = record.wireWith ttl' bitmap') :
    ttl = ttl' ∧ bitmap = bitmap' := by
  -- the parts before and between the two have the same length in both forms
  simp only [wireWith, List.append_assoc, List.append_cancel_left_eq] at same
  obtain ⟨ttls, behind⟩ := List.append_inj same (by simp)
  obtain ⟨_, data⟩ := List.append_inj behind (by simp)
  constructor
  · apply UInt32.toNat_inj.mp
    have number (ttl : UInt32) : ofBigEndian (toBigEndian 4 ttl.toNat) = ttl.toNat :=
      ofBigEndian_toBigEndian ttl.toNat_lt
    rw [← number ttl, ttls, number ttl']
  · simpa [dataWith] using data

/-- An input begins with one form at most. -/
theorem eq_of_append_eq (same : form.octets ++ rest = other.octets ++ rest') :
    form = other ∧ rest = rest' := by
  -- the reader finds one record, so the forms differ at most in what a record does not hold
  have read := form.read?_octets rest
  rw [same, other.read?_octets rest'] at read
  obtain ⟨records, rests⟩ : other.record = form.record ∧ rest' = rest := by
    simpa using read
  rw [rests, List.append_cancel_right_eq, octets_eq, octets_eq, records] at same
  obtain ⟨ttls, bitmaps⟩ := wireWith_inj same
  have blocks := TypeBitmap.IsBitmap.eq_of_wire_eq form.isBitmap other.isBitmap bitmaps
  refine ⟨WireForm.ext ?_ ttls ?_ ?_ ?_ blocks, rests.symm⟩
  · exact congrArg Nsec3.owner records.symm
  · exact congrArg Nsec3.params records.symm
  · exact congrArg Nsec3.flags records.symm
  · exact congrArg Nsec3.nextHash records.symm

/-! ## The form that is written -/

/-- The form with its owner in lower case and its bitmap trimmed. -/
def normal (form : WireForm) : WireForm :=
  { form with
    owner := form.owner.canonical
    blocks := form.blocks.filterMap TypeBitmap.Block.trimmed?
    isBitmap := form.isBitmap.filterMap_trimmed? }

/-- Writing the record of a form with the time to live of the form makes its normal form. -/
theorem wire_record (form : WireForm) : form.record.wire form.ttl = form.normal.octets := by
  have bitmap : TypeBitmap.write form.record.types =
      form.normal.blocks.flatMap TypeBitmap.Block.wire :=
    congrArg (List.flatMap TypeBitmap.Block.wire) (TypeBitmap.blocksOf_types form.isBitmap)
  rw [wire_eq, bitmap]
  rfl

theorem record_normal (form : WireForm) :
    form.normal.record = { form.record with owner := form.owner.canonical } := by
  have types := TypeBitmap.types_filterMap_trimmed? form.blocks
  simp only [record, normal, types]

theorem length_octets (form : WireForm) : form.octets.length =
    textLength form.owner.labels + form.params.salt.length + form.nextHash.length +
      (form.blocks.flatMap TypeBitmap.Block.wire).length + 17 := by
  have name : form.name.length = textLength form.owner.labels + 1 := by
    rw [WireForm.name, List.length_append]
    exact congrArg (· + 1) (Name.length_flatMap_counted form.owner.labels)
  have data : form.data.length = form.params.salt.length + form.nextHash.length +
      (form.blocks.flatMap TypeBitmap.Block.wire).length + 6 := length_dataWith _ form.record
  simp only [octets, List.length_append, name, data, length_toBigEndian, List.length_cons,
    List.length_nil]
  omega

theorem length_normal_le (form : WireForm) : form.normal.octets.length ≤ form.octets.length := by
  have bitmap := TypeBitmap.length_wire_filterMap_trimmed?_le form.blocks
  have owner := textLength_map_canonical form.owner.labels
  rw [length_octets, length_octets]
  simp only [normal, Name.labels_canonical]
  omega

theorem normal_eq_self_iff : form.normal = form ↔
    form.owner.canonical = form.owner ∧ ∀ block ∈ form.blocks, block.IsTrimmed := by
  rw [← TypeBitmap.filterMap_trimmed?_eq_self_iff form.isBitmap]
  constructor
  · intro same
    exact ⟨congrArg owner same, congrArg blocks same⟩
  · intro ⟨owner, blocks⟩
    exact WireForm.ext owner rfl rfl rfl rfl blocks

theorem octets_injective : Function.Injective octets := by
  intro form other same
  have appended : form.octets ++ [] = other.octets ++ [] := by rw [same]
  exact (eq_of_append_eq appended).1

end WireForm

end Nsec3

/-! ## Reading -/

/-- The reader accepts an input exactly if it begins with a form, which is then the only one that it
begins with. The reader returns the record that the form spells, and leaves what comes after. -/
theorem Nsec3.read?_accepts_wireForms (input : Octets) :
    (∀ record rest, read? input = some (record, rest) ↔
      ∃ form : WireForm, form.Spells record ∧ form.data.length < 65536 ∧
        input = form.octets ++ rest) ∧
    ∀ (form other : WireForm) (rest rest' : Octets), input = form.octets ++ rest →
      input = other.octets ++ rest' → form = other ∧ rest = rest' := by
  constructor
  · intro record rest
    constructor
    · intro returned
      obtain ⟨form, spelled, begins⟩ := WireForm.exists_of_read? returned
      exact ⟨form, WireForm.spells_iff.mpr spelled, form.length_data_lt, begins⟩
    · intro ⟨form, spells, _, begins⟩
      rw [begins, form.read?_octets, WireForm.spells_iff.mp spells]
  · intro form other rest rest' begins begins'
    exact WireForm.eq_of_append_eq (begins.symm.trans begins')

namespace Sample

/-- A form with a capital letter, a zero octet at the end of a block and a block of nothing else. -/
def capitalForm : Nsec3.WireForm where
  owner := longSaltRecord.owner
  ttl := 3600
  params := ⟨sha1Algorithm, 12, [0xaa, 0xbb]⟩
  flags := 1
  nextHash := [0x80]
  blocks := [⟨0, [0x40, 0x00]⟩, ⟨1, [0x00]⟩]
  salt_le := by decide
  nextHash_pos := by decide
  nextHash_le := by decide
  isBitmap := ⟨by decide, by decide⟩

/-- The octets of the form, with one more behind them. -/
def capitalInput : Octets :=
  [0x01, 0x4e, 0x00, 0x00, 0x32, 0x00, 0x01, 0x00, 0x00, 0x0e, 0x10, 0x00, 0x10, 0x01, 0x01, 0x00,
    0x0c, 0x02, 0xaa, 0xbb, 0x01, 0x80, 0x00, 0x02, 0x40, 0x00, 0x01, 0x01, 0x00, 0xff]

end Sample

theorem Nsec3.read?_accepts_wireForms_capital :
    read? Sample.capitalInput = some (Sample.capitalForm.record, [0xff]) ∧
      Sample.capitalForm.record.types = [1] ∧
      ∀ form rest, Sample.capitalInput = form.octets ++ rest → form = Sample.capitalForm := by
  have begins : Sample.capitalInput = Sample.capitalForm.octets ++ [0xff] := by decide
  obtain ⟨accepts, alone⟩ := Nsec3.read?_accepts_wireForms Sample.capitalInput
  refine ⟨(accepts _ _).mpr ⟨Sample.capitalForm, ?_, by decide, begins⟩, by decide, ?_⟩
  · exact WireForm.spells_iff.mpr rfl
  · intro form rest begins'
    exact (alone form Sample.capitalForm rest [0xff] begins' begins).1

/-! ## Writing what was read -/

/-- What was read can be written. With the time to live that was read this takes no more octets, and
they are read as the same record with its owner in lower case. They are the octets that were read
exactly if the owner has no capital letter there and no block of the bitmap ends in a zero octet. -/
theorem Nsec3.write_of_read? {input rest : Octets} {record : Nsec3}
    (returned : read? input = some (record, rest)) :
    (∀ ttl buffer, ((record.write ttl).run buffer).1 = true) ∧
    (∃ form : WireForm, input = form.octets ++ rest) ∧
    ∀ form : WireForm, input = form.octets ++ rest →
      ∃ written, (record.write form.ttl).run [] = (true, written) ∧
        written.length ≤ form.octets.length ∧
        read? written = some ({ record with owner := record.owner.canonical }, []) ∧
        (written = form.octets ↔
          (∀ label ∈ form.owner.labels, ∀ octet ∈ label.octets,
            ¬ (0x41 ≤ octet ∧ octet ≤ 0x5a)) ∧
          ∀ block ∈ form.blocks, block.octets.getLast? ≠ some 0) := by
  obtain ⟨form, spelled, begins⟩ := WireForm.exists_of_read? returned
  have writable : record.IsWritable := by
    rw [← spelled]
    exact form.isWritable_record
  refine ⟨fun ttl buffer => by rw [write_of_isWritable writable], ⟨form, begins⟩, ?_⟩
  intro other begins'
  -- the form is the only one that the input begins with
  obtain ⟨rfl, _⟩ := WireForm.eq_of_append_eq (begins.symm.trans begins')
  have written : record.wire form.ttl = form.normal.octets := by
    rw [← spelled]
    exact form.wire_record
  have read := form.normal.read?_octets []
  rw [List.append_nil, form.record_normal, spelled] at read
  refine ⟨form.normal.octets, ?_, form.length_normal_le, ?_, ?_⟩
  · rw [write_of_isWritable writable, written, List.nil_append]
  · rw [read, ← spelled]
    rfl
  · -- equal octets are of equal forms, and then the normal form changes nothing
    rw [WireForm.octets_injective.eq_iff, WireForm.normal_eq_self_iff, Name.canonical_eq_self_iff]
    rfl

/-- The sample, which is neither in lower case nor trimmed, is not written as it was read. -/
theorem Nsec3.write_of_read?_capital :
    read? (Sample.capitalForm.octets ++ [0xff]) = some (Sample.capitalForm.record, [0xff]) ∧
      ∃ written, (Sample.capitalForm.record.write 3600).run [] = (true, written) ∧
        written.length ≤ Sample.capitalForm.octets.length ∧
        written ≠ Sample.capitalForm.octets := by
  have returned := Sample.capitalForm.read?_octets [0xff]
  obtain ⟨_, _, rewritten⟩ := Nsec3.write_of_read? returned
  obtain ⟨written, wrote, shorter, _, same_iff⟩ := rewritten Sample.capitalForm rfl
  refine ⟨returned, written, wrote, shorter, fun same => ?_⟩
  obtain ⟨small, _⟩ := same_iff.mp same
  exact small _ List.mem_cons_self 0x4e (by decide) (by decide)

end HashedDenial
