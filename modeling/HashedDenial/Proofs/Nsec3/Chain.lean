import HashedDenial.Proofs.Base32Hex
import HashedDenial.Proofs.Denial.Completeness
import HashedDenial.Proofs.Nsec3.Ring
import Mathlib.Data.List.Nodup

/-!
# The chain of a zone

The chain of a zone holds one record for every name that exists, which leads from the hash of the
name to the next hash of the ring. Unless hashes collide, the chain matches the names that exist and
covers the others, each by a single record, so it decides every proof.
-/
namespace HashedDenial

open Nsec3

/-- The names of a zone, one entry for each of them, and how they are hashed. -/
structure HashedZone where
  apex : Name
  salt : Octets
  iterations : UInt16
  entries : List ZoneEntry
  apex_mem : ∃ entry ∈ entries, entry.name.canonical = apex.canonical
  inZone : ∀ entry ∈ entries, entry.name.inZone apex.text = true
  closed : ∀ entry ∈ entries, ∀ suffix ∈ entry.name.suffixes, suffix.inZone apex.text = true →
    ∃ other ∈ entries, other.name.canonical = suffix.canonical
  distinct : (entries.map fun entry => entry.name.canonical).Nodup

namespace HashedZone

variable {zone : HashedZone} {entry entry' : ZoneEntry} {record record' : Nsec3} {name other : Name}

/-- What exists in the zone. -/
def content (zone : HashedZone) : ZoneContent zone.apex.text :=
  .ofEntries zone.apex.text zone.entries zone.inZone zone.closed

/-- The hash of a name. -/
def hash (zone : HashedZone) (name : Name) : Octets :=
  iteratedDigest zone.salt name.wire zone.iterations.toNat

/-- The hashes of the names that exist. -/
def hashes (zone : HashedZone) : List Octets := zone.entries.map fun entry => zone.hash entry.name

/-- The record of an entry. There is none if its owner would be too long for a name. -/
def record? (zone : HashedZone) (entry : ZoneEntry) : Option Nsec3 := do
  let label ← Label.ofOctets? (Base32Hex.encode (zone.hash entry.name))
  let owner ← Name.ofLabels? (label :: zone.apex.labels)
  some {
    owner
    params := ⟨sha1Algorithm, zone.iterations, zone.salt⟩
    flags := entry.flags
    nextHash := successor zone.hashes (zone.hash entry.name)
    types := entry.types }

/-- Whether some records are those of the entries, in any order. -/
def IsChain (zone : HashedZone) (records : List Nsec3) : Prop :=
  (records.map some).Perm (zone.entries.map zone.record?)

/-- The names whose hashes a proof about a name compares. -/
def hashedNames (zone : HashedZone) (name : Name) : List Name :=
  zone.entries.map ZoneEntry.name ++ name.suffixes ++ name.suffixes.filterMap Name.wildcardChild?

/-- Whether names that a proof about a name compares have one hash only if they are equal up to
case. -/
def CollisionFree (zone : HashedZone) (name : Name) : Prop :=
  ∀ left ∈ zone.hashedNames name, ∀ right ∈ zone.hashedNames name,
    zone.hash left = zone.hash right → left.canonical = right.canonical

instance (zone : HashedZone) (name : Name) : Decidable (zone.CollisionFree name) :=
  inferInstanceAs (Decidable (∀ left ∈ _, ∀ right ∈ _, _ → _))

/-! ## Hashes -/

theorem hash_congr (same : name.canonical = other.canonical) :
    zone.hash name = zone.hash other := by
  rw [hash, hash, Name.wire, Name.wire, same]

theorem mem_hashes (member : entry ∈ zone.entries) : zone.hash entry.name ∈ zone.hashes :=
  List.mem_map_of_mem member

theorem entry_mem_hashedNames (name : Name) (member : entry ∈ zone.entries) :
    entry.name ∈ zone.hashedNames name :=
  List.mem_append_left _ (List.mem_append_left _ (List.mem_map_of_mem member))

theorem mem_hashedNames_of_consults (consulted : Consults name other) :
    other ∈ zone.hashedNames name := by
  rcases consulted with below | ⟨suffix, below, built⟩
  · exact List.mem_append_left _ (List.mem_append_right _ below)
  · exact List.mem_append_right _ (List.mem_filterMap.mpr ⟨suffix, below, built⟩)

theorem mem_content_iff :
    name ∈ zone.content ↔ ∃ entry ∈ zone.entries, entry.name.canonical = name.canonical :=
  ZoneContent.mem_ofEntries_iff

/-! ## Records of the chain -/

/-- What a record of the chain holds. -/
structure Describes (zone : HashedZone) (entry : ZoneEntry) (record : Nsec3) : Prop where
  zone_eq : record.zone = zone.apex
  ownerHash_eq : record.ownerHash? = some (zone.hash entry.name)
  params_eq : record.params = ⟨sha1Algorithm, zone.iterations, zone.salt⟩
  nextHash_eq : record.nextHash = successor zone.hashes (zone.hash entry.name)
  types_eq : record.types = entry.types

theorem describes_of_record? (found : zone.record? entry = some record) :
    zone.Describes entry record := by
  -- a record stands only where both its label and its owner could be built
  obtain ⟨label, labeled, rest⟩ := Option.bind_eq_some_iff.mp found
  obtain ⟨owner, named, same⟩ := Option.bind_eq_some_iff.mp rest
  cases same
  have octets := Label.ofOctets?_eq_some_iff.mp labeled
  have labels := Name.ofLabels?_eq_some_iff.mp named
  refine ⟨?_, ?_, rfl, rfl, rfl⟩
  · have parent : owner.parent? = some zone.apex := Name.parent?_eq_some_iff.mpr ⟨label, labels⟩
    rw [Nsec3.zone, parent]
    rfl
  · rw [ownerHash?, labels]
    change Base32Hex.decode? label.octets = _
    rw [octets, Base32Hex.decode?_encode]

namespace Describes

variable (describes : zone.Describes entry record)

include describes

theorem hash?_params (name : Name) : record.params.hash? name = some (zone.hash name) := by
  rw [describes.params_eq, HashParams.hash?_sha1]
  rfl

theorem matchesName_iff : record.matchesName name = true ↔
    name.inZone zone.apex.text = true ∧ zone.hash entry.name = zone.hash name := by
  rw [Nsec3.matchesName_iff describes.ownerHash_eq (describes.hash?_params name),
    describes.zone_eq]

theorem coversName_iff : record.coversName name = true ↔
    name.inZone zone.apex.text = true ∧
      inGap (zone.hash entry.name) (successor zone.hashes (zone.hash entry.name))
        (zone.hash name) = true := by
  rw [Nsec3.coversName_iff describes.ownerHash_eq (describes.hash?_params name),
    describes.zone_eq, describes.nextHash_eq]

end Describes

/-- The text of a hash is 32 digits, so only the length of the owner can rule out a record. -/
theorem exists_record? (short : textLength zone.apex.labels ≤ 222) (entry : ZoneEntry) :
    ∃ record, zone.record? entry = some record := by
  have size : (Base32Hex.encode (zone.hash entry.name)).length = 32 := by
    rw [Base32Hex.length_encode, hash, length_iteratedDigest]
  have valid : IsLabel (Base32Hex.encode (zone.hash entry.name)) := by
    refine ⟨by omega, by omega, ?_⟩
    intro octet member
    exact Base32Hex.isLabelOctet_of_mem_encode member
  have labeled := Label.ofOctets?_eq_some_iff.mpr (Eq.refl (Label.mk _ valid).octets)
  have length : textLength (⟨_, valid⟩ :: zone.apex.labels) ≤ 255 := by
    rw [textLength, size]
    omega
  have named := Name.ofLabels?_eq_some_iff.mpr (Eq.refl (Name.mk _ length).labels)
  exact ⟨_, Option.bind_eq_some_iff.mpr ⟨_, labeled, Option.bind_eq_some_iff.mpr ⟨_, named, rfl⟩⟩⟩

/-! ## Entries and their records -/

theorem entry_eq (member : entry ∈ zone.entries) (member' : entry' ∈ zone.entries)
    (same : entry.name.canonical = entry'.name.canonical) : entry = entry' :=
  List.inj_on_of_nodup_map zone.distinct member member' same

theorem types_content (member : entry ∈ zone.entries)
    (same : entry.name.canonical = name.canonical) : zone.content.types name = entry.types := by
  have typed : zone.content.types name = typesAt zone.entries name := rfl
  rw [typed, typesAt]
  split
  next first found =>
    -- the first entry that is found is the one given, since no other has its name
    have spelled := List.find?_some found
    rw [decide_eq_true_iff] at spelled
    rw [entry_eq (List.mem_of_find?_eq_some found) member (spelled.trans same.symm)]
  next none_found =>
    have differs := List.find?_eq_none.mp none_found entry member
    simp [same] at differs

namespace IsChain

variable {records : List Nsec3} (chain : zone.IsChain records)

include chain

theorem exists_entry (member : record ∈ records) :
    ∃ entry ∈ zone.entries, zone.record? entry = some record :=
  List.mem_map.mp (chain.mem_iff.mp (List.mem_map_of_mem member))

theorem exists_record (member : entry ∈ zone.entries) :
    ∃ record ∈ records, zone.record? entry = some record := by
  have listed := chain.mem_iff.mpr (List.mem_map_of_mem member)
  obtain ⟨record, present, same⟩ := List.mem_map.mp listed
  exact ⟨record, present, same.symm⟩

/-- Of the records of the chain, one alone stands for the entry that a condition picks out. -/
theorem existsUnique_record {condition : Nsec3 → Bool} (member : entry ∈ zone.entries)
    (holds : ∀ record, zone.record? entry = some record → condition record = true)
    (picks : ∀ entry' ∈ zone.entries, ∀ record, zone.record? entry' = some record →
      condition record = true → entry' = entry) :
    ∃! record, record ∈ records ∧ condition record = true := by
  obtain ⟨record, present, found⟩ := chain.exists_record member
  refine ⟨record, ⟨present, holds record found⟩, ?_⟩
  rintro record' ⟨present', met⟩
  obtain ⟨entry', member', found'⟩ := chain.exists_entry present'
  obtain rfl := picks entry' member' record' found' met
  exact Option.some.inj (found'.symm.trans found)

end IsChain

theorem exists_chain (short : textLength zone.apex.labels ≤ 222) :
    ∃ records, zone.IsChain records := by
  choose record found using exists_record? short
  refine ⟨zone.entries.map record, ?_⟩
  rw [IsChain, List.map_map]
  exact List.Perm.of_eq (List.map_congr_left fun entry _ => (found entry).symm)

/-! ## The chain decides -/

section Complete

variable {records : List Nsec3} (free : zone.CollisionFree name)

include free

theorem CollisionFree.canonical_eq (consulted : Consults name other) (member : entry ∈ zone.entries)
    (same : zone.hash entry.name = zone.hash other) : entry.name.canonical = other.canonical :=
  free entry.name (entry_mem_hashedNames name member) other
    (mem_hashedNames_of_consults consulted) same

theorem CollisionFree.entry_eq (member : entry ∈ zone.entries) (member' : entry' ∈ zone.entries)
    (same : zone.hash entry.name = zone.hash entry'.name) : entry = entry' := by
  have spelled := free _ (entry_mem_hashedNames name member) _
    (entry_mem_hashedNames name member') same
  exact HashedZone.entry_eq member member' spelled

theorem CollisionFree.hash_mem_iff (consulted : Consults name other) :
    zone.hash other ∈ zone.hashes ↔ other ∈ zone.content := by
  rw [mem_content_iff]
  constructor
  · intro listed
    obtain ⟨entry, member, same⟩ := List.mem_map.mp listed
    exact ⟨entry, member, free.canonical_eq consulted member same⟩
  · rintro ⟨entry, member, same⟩
    rw [← hash_congr same]
    exact mem_hashes member

theorem IsChain.complete (chain : zone.IsChain records) : Complete zone.content records name where
  nonempty := by
    obtain ⟨entry, member, _⟩ := zone.apex_mem
    obtain ⟨record, present, _⟩ := chain.exists_record member
    exact List.ne_nil_of_mem present
  zone_eq record member := by
    obtain ⟨entry, _, found⟩ := chain.exists_entry member
    change Octets.lower record.zone.text = _
    rw [(describes_of_record? found).zone_eq]
  matched other consulted present := by
    obtain ⟨entry, member, same⟩ := mem_content_iff.mp present
    apply chain.existsUnique_record member
    · intro record found
      exact (describes_of_record? found).matchesName_iff.mpr
        ⟨zone.content.inZone other present, hash_congr same⟩
    · -- a record of another entry would match only if two names had one hash
      intro entry' member' record found matched
      have hashed := ((describes_of_record? found).matchesName_iff.mp matched).2
      exact free.entry_eq member' member (hashed.trans (hash_congr same).symm)
  types_eq other consulted record member matched := by
    obtain ⟨entry, listed, found⟩ := chain.exists_entry member
    have describes := describes_of_record? found
    have hashed := (describes.matchesName_iff.mp matched).2
    exact describes.types_eq.trans
      (types_content listed (free.canonical_eq consulted listed hashed)).symm
  unmatched other consulted absent record member := by
    obtain ⟨entry, listed, found⟩ := chain.exists_entry member
    rw [← Bool.not_eq_true]
    intro matched
    have hashed := ((describes_of_record? found).matchesName_iff.mp matched).2
    exact absent (mem_content_iff.mpr ⟨entry, listed, free.canonical_eq consulted listed hashed⟩)
  covered other consulted inside absent := by
    -- the hash lies in one gap of the ring, whose owner has one record
    have outside : zone.hash other ∉ zone.hashes := (free.hash_mem_iff consulted).not.mpr absent
    obtain ⟨apex, apexMember, _⟩ := zone.apex_mem
    obtain ⟨owner, listed, gap⟩ :=
      exists_gap (List.ne_nil_of_mem (mem_hashes apexMember)) outside
    obtain ⟨entry, member, rfl⟩ := List.mem_map.mp listed
    have lies := gap _ (follows_successor listed)
    apply chain.existsUnique_record member
    · intro record found
      exact (describes_of_record? found).coversName_iff.mpr ⟨inside, lies⟩
    · intro entry' member' record found covered
      have lies' := ((describes_of_record? found).coversName_iff.mp covered).2
      exact free.entry_eq member' member (Follows.owner_eq (mem_hashes member') listed
        (follows_successor (mem_hashes member')) (follows_successor listed) lies' lies)
  uncovered other consulted present record member := by
    obtain ⟨entry, listed, found⟩ := chain.exists_entry member
    rw [← Bool.not_eq_true]
    intro covered
    have lies := ((describes_of_record? found).coversName_iff.mp covered).2
    exact (follows_successor (mem_hashes listed)).notMem lies
      ((free.hash_mem_iff consulted).mpr present)

end Complete

theorem exists_deepest (inside : name.inZone zone.apex.text = true) :
    ∃ deepest, zone.content.IsDeepest name deepest := by
  obtain ⟨ancestor, member, same⟩ := Name.inZone_text_iff_exists.mp inside
  obtain ⟨entry, listed, spelled⟩ := zone.apex_mem
  exact ZoneNames.exists_deepest member
    (mem_content_iff.mpr ⟨entry, listed, spelled.trans same.symm⟩)

/-- The chain of a zone decides every proof about a name in the zone, unless hashes collide: each
verifier accepts exactly what is true of the zone and of the closest encloser that exists. -/
theorem chain_decides {records : List Nsec3} {question : Question} (chain : zone.IsChain records)
    (inside : question.name.inZone zone.apex.text = true)
    (free : zone.CollisionFree question.name) :
    ∃ deepest, zone.content.IsDeepest question.name deepest ∧
      Decided zone.content records question deepest := by
  obtain ⟨deepest, existing⟩ := exists_deepest inside
  exact ⟨deepest, existing, (IsChain.complete free chain).decided existing⟩

end HashedZone

namespace Sample

/-- The name `x.`, which the zone below lacks. -/
def lone : Name := ⟨[⟨[0x78], by decide⟩], by decide⟩

/-- The root zone with the one name `m.` below its apex. -/
def rootZone : HashedZone where
  apex := Name.root
  salt := []
  iterations := 0
  entries := [⟨Name.root, [RRType.soa], 0⟩, ⟨⟨[⟨[0x6d], by decide⟩], by decide⟩, [RRType.ns], 0⟩]
  apex_mem := by decide
  inZone := by decide
  closed := by decide
  distinct := by decide

end Sample

/-- The chain of two records proves that `x.` does not exist. -/
theorem HashedZone.chain_decides_lone : Sample.rootZone.CollisionFree Sample.lone ∧
    ∃ records, Sample.rootZone.IsChain records ∧
      verifyNameError ⟨Sample.lone, RRType.ns⟩ records = .ok () := by
  have free : Sample.rootZone.CollisionFree Sample.lone := by decide +kernel
  have short : textLength Sample.rootZone.apex.labels ≤ 222 := by decide
  obtain ⟨records, chain⟩ := exists_chain short
  obtain ⟨deepest, existing, decided⟩ :=
    @chain_decides _ records ⟨Sample.lone, RRType.ns⟩ chain (by decide) free
  refine ⟨free, records, chain, decided.nameError.mpr ⟨mem_content_iff.not.mpr (by decide), ?_⟩⟩
  intro wildcard built present
  obtain ⟨entry, listed, same⟩ := mem_content_iff.mp present
  have plain : ∀ entry ∈ Sample.rootZone.entries,
      entry.name.canonical.labels.head? ≠ some Label.asterisk.canonical := by decide
  apply plain entry listed
  rw [same, Name.labels_canonical, Name.wildcardChild?_eq_some_iff.mp built]
  rfl

end HashedDenial
