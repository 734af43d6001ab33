import HashedDenial.Proofs.Base32Hex
import HashedDenial.Proofs.Denial.Agreement
import HashedDenial.Proofs.Denial.QuestionCase

/-!
# The case of owners

A record says the same whatever the case of its owner, but records are compared with their owners as
they are spelled. Two spellings of one record contradict each other, which makes a proof ambiguous
that either spelling alone would complete. Nothing else shows the case of an owner.
-/
namespace HashedDenial

open Octets

namespace Nsec3

/-! ## One record in two spellings -/

/-- The record with the capital letters of its owner lowered. -/
def lowerOwner (record : Nsec3) : Nsec3 := { record with owner := record.owner.canonical }

theorem ownerHash?_lowerOwner (record : Nsec3) :
    record.lowerOwner.ownerHash? = record.ownerHash? := by
  rw [ownerHash?, ownerHash?, lowerOwner, Name.labels_canonical]
  cases record.owner.labels with
  | nil => rfl
  | cons label labels => exact Base32Hex.decode?_lower label.octets

theorem zone_lowerOwner (record : Nsec3) : record.lowerOwner.zone = record.zone.canonical := by
  rw [zone, zone, lowerOwner, Name.parent?_canonical]
  cases record.owner.parent? <;> rfl

theorem lower_zone_text_lowerOwner (record : Nsec3) :
    record.lowerOwner.zone.text.lower = record.zone.text.lower := by
  rw [zone_lowerOwner, Name.text_canonical, lower_lower]

theorem hashes?_lowerOwner (record : Nsec3) (name : Name) :
    record.lowerOwner.hashes? name = record.hashes? name := by
  have inside : name.inZone record.lowerOwner.zone.text = name.inZone record.zone.text :=
    Name.inZone_congr rfl record.lower_zone_text_lowerOwner
  rw [hashes?, hashes?, inside, ownerHash?_lowerOwner]
  rfl

theorem matchesName_lowerOwner (record : Nsec3) (name : Name) :
    record.lowerOwner.matchesName name = record.matchesName name := by
  rw [matchesName, matchesName, hashes?_lowerOwner]

theorem coversName_lowerOwner (record : Nsec3) (name : Name) :
    record.lowerOwner.coversName name = record.coversName name := by
  rw [coversName, coversName, hashes?_lowerOwner]
  rfl

end Nsec3

/-! ## Changed records -/

section Change

open DenialRecord

variable {ρ : Type} {records : List ρ} {condition : ρ → Bool} {change : ρ → ρ}

theorem filter_map_of_kept (kept : ∀ record, condition (change record) = condition record) :
    (records.map change).filter condition = (records.filter condition).map change := by
  rw [List.filter_map]
  exact congrArg (List.map change) (List.filter_congr fun record _ => kept record)

section SoleRecord

variable [BEq ρ] [LawfulBEq ρ]

/-- Equal records stay equal when they are changed. -/
theorem soleRecord_map (kept : ∀ record, condition (change record) = condition record) :
    UnlessAmbiguous ((soleRecord condition records).map change)
      (soleRecord condition (records.map change)) := by
  unfold soleRecord
  rw [filter_map_of_kept kept]
  cases records.filter condition with
  | nil => exact .refl _
  | cons first others =>
    by_cases differ : others.any (· != first) = true
    · left
      simp [differ, Except.map]
    · right
      -- all that is found equals the first, and so do the changes of it
      have equal : ∀ other ∈ others, other = first := by simpa using differ
      have alike : (others.map change).any (· != change first) = false := by
        simpa using fun other later => congrArg change (equal other later)
      simp [differ, alike, Except.map]

/-- Where different records stay different, an ambiguous answer stays one too. -/
theorem soleRecord_map_of_injOn (kept : ∀ record, condition (change record) = condition record)
    (once : ∀ left ∈ records, ∀ right ∈ records, condition left = true →
      change left = change right → left = right) :
    (soleRecord condition records).map change = soleRecord condition (records.map change) := by
  rcases soleRecord_map kept with ambiguous | same
  · -- records that agree after the change agreed before it
    rw [ambiguous, eq_comm, soleRecord_eq_multiple_iff]
    have differ := soleRecord_eq_multiple_iff.mp (map_eq_error_iff.mp ambiguous)
    intro agree
    rw [Agree, filter_map_of_kept kept, List.pairwise_map] at agree
    refine differ (agree.imp_of_mem fun hit hit' equal => beq_iff_eq.mpr ?_)
    obtain ⟨member, holds⟩ := List.mem_filter.mp hit
    obtain ⟨member', _⟩ := List.mem_filter.mp hit'
    exact once _ member _ member' holds (eq_of_beq equal)
  · exact same

end SoleRecord

variable [DenialRecord ρ]

/-- Whether records that are changed go on to say what they said, of a zone that is at most spelled
differently. -/
structure KeepsAnswers (change : ρ → ρ) : Prop where
  matchesName_eq (record : ρ) (name : Name) :
    matchesName (change record) name = matchesName record name
  coversName_eq (record : ρ) (name : Name) :
    coversName (change record) name = coversName record name
  types_eq (record : ρ) : types (change record) = types record
  optOut_eq (record : ρ) : optOut (change record) = optOut record
  zone_eq (record : ρ) : (zone (change record)).lower = (zone record).lower

/-- Whether no two records that speak about a name become equal when they are changed. -/
def KeptApart (change : ρ → ρ) (records : List ρ) (name : Name) : Prop :=
  ∀ left ∈ records, ∀ right ∈ records, (matchesName left name = true ∨ coversName left name = true) →
    change left = change right → left = right

theorem KeptApart.of_forall (apart : ∀ left ∈ records, ∀ right ∈ records,
    change left = change right → left = right) (name : Name) : KeptApart change records name :=
  fun left member right member' _ => apart left member right member'

namespace KeepsAnswers

variable (keeps : KeepsAnswers change) {name : Name}

include keeps

theorem commonZone_eq (records : List ρ) : (commonZone records).map Octets.lower =
    (commonZone (records.map change)).map Octets.lower := by
  cases records with
  | nil => rfl
  | cons first others =>
    -- every zone is compared with that of the first record, which changes with it
    have kept (record : ρ) : (zone (change record)).eqIgnoringCase (zone (change first)) =
        (zone record).eqIgnoringCase (zone first) := by
      rw [eqIgnoringCase, eqIgnoringCase, keeps.zone_eq, keeps.zone_eq]
    rw [List.map_cons, commonZone, commonZone, List.all_map]
    simp only [Function.comp_def, kept]
    cases others.all fun record => (zone record).eqIgnoringCase (zone first)
    · rfl
    · exact congrArg Except.ok (keeps.zone_eq first).symm

variable [BEq ρ]

theorem findMatching_eq (name : Name) (records : List ρ) : findMatching name records =
    ((soleRecord (matchesName · name) records).map change).map types := by
  rw [findMatching]
  cases soleRecord (matchesName · name) records with
  | error failure => rfl
  | ok record => exact congrArg Except.ok (keeps.types_eq record).symm

theorem findCoverer_eq (name : Name) (records : List ρ) : findCoverer name records =
    ((soleRecord (coversName · name) records).map change).map
      fun record => ⟨types record, optOut record⟩ := by
  rw [findCoverer]
  cases soleRecord (coversName · name) records with
  | error failure => rfl
  | ok record =>
    simp only [Except.map, keeps.types_eq, keeps.optOut_eq]

variable [LawfulBEq ρ]

theorem answersUnlessAmbiguous (records : List ρ) (name : Name) :
    AnswersUnlessAmbiguous records (records.map change) name where
  zone := keeps.commonZone_eq records
  matching other _ := by
    rw [keeps.findMatching_eq]
    exact (soleRecord_map fun record => keeps.matchesName_eq record other).map _
  covering other _ := by
    rw [keeps.findCoverer_eq]
    exact (soleRecord_map fun record => keeps.coversName_eq record other).map _

theorem sameAnswers (apart : ∀ other, Consults name other → KeptApart change records other) :
    SameAnswers records (records.map change) name where
  zone := keeps.commonZone_eq records
  matching other consulted := by
    rw [keeps.findMatching_eq, soleRecord_map_of_injOn fun record => keeps.matchesName_eq record other]
    · rfl
    · exact fun left member right member' holds =>
        apart other consulted left member right member' (Or.inl holds)
  covering other consulted := by
    rw [keeps.findCoverer_eq, soleRecord_map_of_injOn fun record => keeps.coversName_eq record other]
    · rfl
    · exact fun left member right member' holds =>
        apart other consulted left member right member' (Or.inr holds)

/-! ### Verdicts -/

variable {left right : List ρ} {kind : ProofKind} {question : Question}

/-- Lists that are equal once they are changed have one verdict, unless it is ambiguous. -/
theorem verify_eq_iff (same : left.map change = right.map change) :
    kind.verify question left = kind.verify question right ↔
      (kind.verify question left = .error .multipleCoverage ↔
        kind.verify question right = .error .multipleCoverage) := by
  constructor
  · intro equal
    rw [equal]
  · intro alike
    -- each verdict is compared with that of the changed records, which the lists share
    rcases (keeps.answersUnlessAmbiguous left _).verify kind with ambiguous | changed
    · rw [ambiguous, alike.mp ambiguous]
    rcases (keeps.answersUnlessAmbiguous right _).verify kind with ambiguous | changed'
    · rw [ambiguous, alike.mpr ambiguous]
    · rw [changed, changed', same]

/-- What is ambiguous before the change only is so because of records that the change makes equal. -/
theorem exists_made_equal (same : left.map change = right.map change)
    (ambiguous : kind.verify question left = .error .multipleCoverage)
    (clear : kind.verify question right ≠ .error .multipleCoverage) :
    ∃ name, Consults question.name name ∧ ∃ record ∈ left, ∃ other ∈ left, record ≠ other ∧
      change record = change other ∧
        (matchesName record name = true ∨ coversName record name = true) := by
  by_contra none
  have apart (name : Name) (consulted : Consults question.name name) :
      KeptApart change left name := by
    intro record member other member' speaks equal
    by_contra different
    exact none ⟨name, consulted, record, member, other, member', different, equal, speaks⟩
  -- the left verdict is that of the changed records, which is not ambiguous
  have changed := (keeps.sameAnswers apart).verify_eq kind
  rcases (keeps.answersUnlessAmbiguous right _).verify kind with ambiguous' | changed'
  · exact clear ambiguous'
  · rw [changed', ← same, ← changed] at clear
    exact clear ambiguous

theorem verify_eq_of_keptApart (same : left.map change = right.map change)
    (apart : ∀ name, Consults question.name name →
      KeptApart change left name ∧ KeptApart change right name) :
    kind.verify question left = kind.verify question right := by
  rw [(keeps.sameAnswers fun name consulted => (apart name consulted).1).verify_eq kind, same,
    ← (keeps.sameAnswers fun name consulted => (apart name consulted).2).verify_eq kind]

end KeepsAnswers

end Change

namespace Nsec3

variable {left right : List Nsec3}

theorem keepsAnswers_lowerOwner : KeepsAnswers lowerOwner where
  matchesName_eq := matchesName_lowerOwner
  coversName_eq := coversName_lowerOwner
  types_eq _ := rfl
  optOut_eq _ := rfl
  zone_eq := lower_zone_text_lowerOwner

/-- Spelling the owners in another case leaves a verdict as it is where no two records that speak
about a name that the proof may consult differ in the case of their owners alone. It changes a
verdict only to or from an ambiguity, and then the list with the ambiguous verdict holds two
spellings of a record that speaks about such a name. -/
theorem respelled_verdicts (same : left.map lowerOwner = right.map lowerOwner) (kind : ProofKind)
    (question : Question) :
    ((∀ name, Consults question.name name →
        KeptApart lowerOwner left name ∧ KeptApart lowerOwner right name) →
      kind.verify question left = kind.verify question right) ∧
    (kind.verify question left = kind.verify question right ↔
      (kind.verify question left = .error .multipleCoverage ↔
        kind.verify question right = .error .multipleCoverage)) ∧
    (kind.verify question left = .error .multipleCoverage →
      kind.verify question right ≠ .error .multipleCoverage →
        ∃ name, Consults question.name name ∧ ∃ record ∈ left, ∃ other ∈ left, record ≠ other ∧
          record.lowerOwner = other.lowerOwner ∧
            (record.matchesName name = true ∨ record.coversName name = true)) :=
  ⟨keepsAnswers_lowerOwner.verify_eq_of_keptApart same,
    keepsAnswers_lowerOwner.verify_eq_iff same,
    keepsAnswers_lowerOwner.exists_made_equal same⟩

end Nsec3

namespace Sample

/-- The text of the hash of `e.` in capital letters. -/
def capitalDigits : Label := ⟨Octets.ofString "ST9BPH2K2C8FK0RLCILF76CH6KA0P7F1", by decide +kernel⟩

/-- The ring with an owner in capital letters. -/
def capitalRing : List Nsec3 :=
  [ringRecord capitalDigits (hashOf rootDigits), ringRecord rootDigits (hashOf apexDigits)]

/-- Records of the ring, one of them twice and in two spellings. -/
def respelledRecords : List Nsec3 := namedRing ++ capitalRing.take 1

theorem map_lowerOwner_respelledRecords :
    respelledRecords.map Nsec3.lowerOwner = repeatedRecords.map Nsec3.lowerOwner := by
  decide +kernel

theorem verify_noData_respelledRecords :
    ProofKind.noData.verify ⟨apex, RRType.soa⟩ respelledRecords = .error .multipleCoverage := by
  decide +kernel

end Sample

/-- Two spellings of the record at `e.` contradict each other where two copies of it do not. -/
theorem Nsec3.respelled_verdicts_differ :
    Sample.respelledRecords.map lowerOwner = Sample.repeatedRecords.map lowerOwner ∧
      ProofKind.noData.verify ⟨Sample.apex, RRType.soa⟩ Sample.repeatedRecords = .ok () ∧
      ProofKind.noData.verify ⟨Sample.apex, RRType.soa⟩ Sample.respelledRecords =
        .error .multipleCoverage :=
  ⟨Sample.map_lowerOwner_respelledRecords, Sample.verify_noData_repeatedRecords,
    Sample.verify_noData_respelledRecords⟩

/-- The ring has one verdict in two spellings, and the list whose verdict is ambiguous holds the two
spellings of a record that speaks about a name consulted for `e.` -/
theorem Nsec3.respelled_verdicts_capital :
    ProofKind.noData.verify ⟨Sample.apex, RRType.soa⟩ Sample.capitalRing =
        ProofKind.noData.verify ⟨Sample.apex, RRType.soa⟩ Sample.namedRing ∧
      ∃ name, Consults Sample.apex name ∧ ∃ record ∈ Sample.respelledRecords,
        ∃ other ∈ Sample.respelledRecords, record ≠ other ∧
          record.lowerOwner = other.lowerOwner ∧
            (record.matchesName name = true ∨ record.coversName name = true) := by
  have ring : Sample.capitalRing.map lowerOwner = Sample.namedRing.map lowerOwner := by
    decide +kernel
  obtain ⟨unchanged, _, _⟩ := respelled_verdicts ring .noData ⟨Sample.apex, RRType.soa⟩
  obtain ⟨_, _, spelledTwice⟩ :=
    respelled_verdicts Sample.map_lowerOwner_respelledRecords .noData ⟨Sample.apex, RRType.soa⟩
  constructor
  · apply unchanged
    intro name _
    exact ⟨KeptApart.of_forall (by decide +kernel) name,
      KeptApart.of_forall (by decide +kernel) name⟩
  · apply spelledTwice Sample.verify_noData_respelledRecords
    rw [Sample.verify_noData_repeatedRecords]
    simp

end HashedDenial
