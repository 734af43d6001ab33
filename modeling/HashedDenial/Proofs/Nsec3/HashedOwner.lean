import HashedDenial.Proofs.Denial.OwnerCase
import HashedDenial.Proofs.Name.Text

/-!
# Matching by owner names

A record is tested by reading the hash from its owner, but what it stands for is a name: the text of
the hash as one label below the zone. Reading undoes writing up to case and refuses every other
text, so a record matches a name of its zone exactly if its owner is the one that the hash of the
name would have there.
-/
namespace HashedDenial

namespace Nsec3

variable {record other : Nsec3} {name : Name}

/-- The hash of a name under the salt and the iterations of a record. -/
def nameHash (record : Nsec3) (name : Name) : Octets :=
  iteratedDigest record.params.salt name.wire record.params.iterations.toNat

/-- The text of the owner at the hash of a name in the zone of a record. -/
def hashedOwner (record : Nsec3) (name : Name) : Octets :=
  Base32Hex.encode (record.nameHash name) ++
    dot :: (if record.zone = Name.root then [] else record.zone.text)

theorem length_nameHash (record : Nsec3) (name : Name) : (record.nameHash name).length = 20 :=
  length_iteratedDigest _ _ _

theorem matchesName_iff_ownerHash? : record.matchesName name = true ↔
    record.params.algorithm = sha1Algorithm ∧ name.inZone record.zone.text = true ∧
      record.ownerHash? = some (record.nameHash name) := by
  rw [matchesName, hashes?]
  by_cases inside : name.inZone record.zone.text = true
  · simp only [inside, if_true, true_and, bind, Option.any_eq_true, Option.bind_eq_some_iff,
      HashParams.hash?_eq_some_iff]
    constructor
    · rintro ⟨_, ⟨owner, held, _, ⟨known, rfl⟩, same⟩, equal⟩
      cases same
      exact ⟨known, held.trans (congrArg some (eq_of_beq equal))⟩
    · rintro ⟨known, held⟩
      exact ⟨_, ⟨_, held, _, ⟨known, rfl⟩, rfl⟩, beq_self_eq_true _⟩
  · simp [inside]

/-! ## Owners that hold a hash -/

theorem labels_zone (record : Nsec3) : record.zone.labels = record.owner.labels.tail := by
  rw [zone]
  obtain ⟨_ | ⟨label, labels⟩, short⟩ := record.owner <;> rfl

/-- The root holds the empty hash. Every other hash is held by a first label, up to case. -/
theorem ownerHash?_eq_some_iff {hash : Octets} (nonempty : hash ≠ []) :
    record.ownerHash? = some hash ↔ ∃ label : Label,
      record.owner.labels = label :: record.zone.labels ∧
        label.octets.lower = Base32Hex.encode hash := by
  rw [ownerHash?, labels_zone]
  cases record.owner.labels with
  | nil =>
    have rooted : Base32Hex.decode? [] = some [] := rfl
    simp [rooted, nonempty.symm]
  | cons label labels => simp [Base32Hex.decode?_eq_some_iff]

theorem closedText_zone (record : Nsec3) : Name.closedText record.zone.labels =
    if record.zone = Name.root then [] else record.zone.text := by
  split
  next apex =>
    rw [apex]
    rfl
  next below =>
    have nonempty : record.zone.labels ≠ [] :=
      fun empty => below (Name.eq_root_of_labels_eq_nil empty)
    rw [Name.text_of_labels_ne_nil nonempty]

theorem hashedOwner_eq (record : Nsec3) (name : Name) : record.hashedOwner name =
    Base32Hex.encode (record.nameHash name) ++ dot :: Name.closedText record.zone.labels := by
  rw [hashedOwner, closedText_zone]

theorem length_hashedOwner (record : Nsec3) (name : Name) :
    32 < (record.hashedOwner name).length := by
  rw [hashedOwner_eq, List.length_append, Base32Hex.length_encode, length_nameHash,
    List.length_cons]
  omega

/-- The first label of an owner is told apart from the zone, so the owner is compared by parts. -/
theorem hasText_hashedOwner_iff : record.owner.hasText (record.hashedOwner name) = true ↔
    ∃ label : Label, record.owner.labels = label :: record.zone.labels ∧
      label.octets.lower = Base32Hex.encode (record.nameHash name) := by
  rw [Name.hasText, Octets.eqIgnoringCase_iff]
  cases split : record.owner.labels with
  | nil =>
    -- the root is too short to be the owner at a hash
    have rooted : record.owner = Name.root := Name.eq_root_of_labels_eq_nil split
    have long := record.length_hashedOwner name
    have apart : record.owner.text.lower ≠ (record.hashedOwner name).lower := by
      intro same
      have lengths := congrArg List.length same
      rw [Octets.length_lower, Octets.length_lower, rooted, Name.text_root,
        List.length_singleton] at lengths
      omega
    simpa using apart
  | cons label labels =>
    have zoned : record.zone.labels = labels := by rw [labels_zone, split, List.tail_cons]
    rw [Name.text_of_labels_ne_nil (by simp [split]), split, Name.closedText_cons, hashedOwner_eq,
      zoned, Octets.lower_append, Octets.lower_append, List.append_cancel_right_eq,
      Base32Hex.lower_encode]
    simp

/-! ## Matching -/

theorem nameHash_ne_nil (record : Nsec3) (name : Name) : record.nameHash name ≠ [] := by
  intro empty
  have length := record.length_nameHash name
  rw [empty] at length
  cases length

theorem matchesName_iff_label : record.matchesName name = true ↔
    record.params.algorithm = sha1Algorithm ∧ name.inZone record.zone.text = true ∧
      ∃ label : Label, record.owner.labels = label :: record.zone.labels ∧
        label.octets.lower = Base32Hex.encode (record.nameHash name) := by
  rw [matchesName_iff_ownerHash?, ownerHash?_eq_some_iff (record.nameHash_ne_nil name)]

/-- Owners with one first label are told apart by their zones. -/
theorem hasText_owner_iff {label label' : Label}
    (split : record.owner.labels = label :: record.zone.labels)
    (split' : other.owner.labels = label' :: other.zone.labels)
    (same : label.octets.lower = label'.octets.lower) :
    record.owner.hasText other.owner.text = true ↔ record.zone.hasText other.zone.text = true := by
  have lowered : label.canonical = label'.canonical := Label.octets_injective same
  simp only [Name.hasText_text_iff, ← Name.labels_injective.eq_iff, Name.labels_canonical, split,
    split', List.map_cons, lowered, List.cons.injEq, true_and]

/-- A record matches a name of its zone exactly if its owner is the one at the hash of the name, up
to case. Records that are hashed alike and match one name therefore have one owner, up to case,
exactly if they have one zone. -/
theorem matchesName_iff_hasText (record : Nsec3) (name : Name) :
    (record.matchesName name = true ↔ record.params.algorithm = sha1Algorithm ∧
      name.inZone record.zone.text = true ∧
      record.owner.hasText (record.hashedOwner name) = true) ∧
    ∀ other : Nsec3, other.params = record.params → record.matchesName name = true →
      other.matchesName name = true →
        (record.owner.hasText other.owner.text = true ↔
          record.zone.hasText other.zone.text = true) := by
  constructor
  · rw [matchesName_iff_label, hasText_hashedOwner_iff]
  · intro other params matched matched'
    obtain ⟨_, _, label, split, held⟩ := matchesName_iff_label.mp matched
    obtain ⟨_, _, label', split', held'⟩ := matchesName_iff_label.mp matched'
    have hashed : other.nameHash name = record.nameHash name := by
      rw [nameHash, params, nameHash]
    exact hasText_owner_iff split split' (by rw [held, held', hashed])

end Nsec3

namespace Sample

/-- The record at the hash of `e.` in the zone of the root. -/
def rootRecord : Nsec3 := ringRecord apexDigits (hashOf rootDigits)

/-- The same record with its owner in capital letters. -/
def capitalRecord : Nsec3 := ringRecord capitalDigits (hashOf rootDigits)

/-- The record at the same hash in the zone `e.` -/
def apexRecord : Nsec3 := { rootRecord with owner := ⟨apexDigits :: apex.labels, by decide⟩ }

theorem matchesName_rootRecord : rootRecord.matchesName apex = true := by decide +kernel

theorem matchesName_capitalRecord : capitalRecord.matchesName apex = true := by
  have lowered : capitalRecord.lowerOwner = rootRecord := by decide +kernel
  rw [← Nsec3.matchesName_lowerOwner, lowered, matchesName_rootRecord]

theorem matchesName_apexRecord : apexRecord.matchesName apex = true := by decide +kernel

end Sample

/-- The two spellings of the record at `e.` in the zone of the root. -/
theorem Nsec3.matchesName_iff_hasText_capital :
    Sample.rootRecord.owner.hasText (Sample.rootRecord.hashedOwner Sample.apex) = true ∧
      Sample.rootRecord.owner.hasText Sample.capitalRecord.owner.text = true := by
  obtain ⟨matches_iff, same_iff⟩ := matchesName_iff_hasText Sample.rootRecord Sample.apex
  have zones : Sample.rootRecord.zone.hasText Sample.capitalRecord.zone.text = true := by decide
  exact ⟨(matches_iff.mp Sample.matchesName_rootRecord).2.2,
    (same_iff Sample.capitalRecord rfl Sample.matchesName_rootRecord
      Sample.matchesName_capitalRecord).mpr zones⟩

/-- `e.` lies in its own zone and in that of the root, and has a record at one hash in each. -/
theorem Nsec3.matching_owners_differ :
    Sample.apexRecord.params = Sample.rootRecord.params ∧
      Sample.rootRecord.matchesName Sample.apex = true ∧
      Sample.apexRecord.matchesName Sample.apex = true ∧
      Sample.rootRecord.owner.hasText Sample.apexRecord.owner.text = false :=
  ⟨rfl, Sample.matchesName_rootRecord, Sample.matchesName_apexRecord, by decide⟩

end HashedDenial
