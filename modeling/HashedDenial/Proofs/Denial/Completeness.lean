import HashedDenial.Proofs.Denial.Content
import HashedDenial.Proofs.Denial.Verdicts
import Mathlib.Logic.ExistsUnique

/-!
# Records that know every name

If the records answer rightly about each name that a proof may consult, the closest encloser that is
found is the closest one that exists, and every verifier accepts exactly what is true of the zone.
-/
namespace HashedDenial

open DenialRecord

variable {zone : Octets} {ρ : Type} [DenialRecord ρ] {records : List ρ}
  {question : Question} {name deepest wildcard other : Name}

/-- Whether a proof about a name may consult another one: a suffix of it, or the wildcard directly
below a suffix. -/
def Consults (name other : Name) : Prop :=
  other ∈ name.suffixes ∨ ∃ suffix ∈ name.suffixes, suffix.wildcardChild? = some other

/-- Records of one zone that match the names that exist, with their types, and cover the others, as
far as a proof about a name may consult them. -/
structure Complete (content : ZoneContent zone) (records : List ρ) (name : Name) : Prop where
  nonempty : records ≠ []
  zone_eq : ∀ record ∈ records, Octets.lower (DenialRecord.zone record) = Octets.lower zone
  matched : ∀ other, Consults name other → other ∈ content →
    ∃! record, record ∈ records ∧ matchesName record other = true
  types_eq : ∀ other, Consults name other → ∀ record ∈ records,
    matchesName record other = true → DenialRecord.types record = content.types other
  unmatched : ∀ other, Consults name other → other ∉ content →
    ∀ record ∈ records, matchesName record other = false
  covered : ∀ other, Consults name other → other.inZone zone = true → other ∉ content →
    ∃! record, record ∈ records ∧ coversName record other = true
  uncovered : ∀ other, Consults name other → other ∈ content →
    ∀ record ∈ records, coversName record other = false

theorem Complete.exists_commonZone {content : ZoneContent zone}
    (complete : Complete content records name) : ∃ common, commonZone records = .ok common ∧
    Octets.lower common = Octets.lower zone :=
  HashedDenial.exists_commonZone complete.nonempty complete.zone_eq

variable [BEq ρ] [LawfulBEq ρ]

omit [DenialRecord ρ] in
theorem soleRecord_of_existsUnique {condition : ρ → Bool}
    (sole : ∃! record, record ∈ records ∧ condition record = true) :
    ∃ record ∈ records, condition record = true ∧ soleRecord condition records = .ok record := by
  obtain ⟨record, ⟨member, holds⟩, unique⟩ := sole
  refine ⟨record, member, holds, soleRecord_of_unique member holds ?_⟩
  intro other listed met
  exact unique other ⟨listed, met⟩

namespace Complete

variable {content : ZoneContent zone} (complete : Complete content records name)

include complete

/-! ## Answers of the finders -/

theorem findMatching_iff (consulted : Consults name other) {found : List RRType} :
    findMatching other records = .ok found ↔ other ∈ content ∧ found = content.types other := by
  constructor
  · intro returned
    obtain ⟨record, member, matched, same⟩ := findMatching_eq_ok returned
    refine ⟨?_, same.symm.trans (complete.types_eq other consulted record member matched)⟩
    by_contra absent
    rw [complete.unmatched other consulted absent record member] at matched
    cases matched
  · rintro ⟨present, rfl⟩
    obtain ⟨record, member, matched, sole⟩ :=
      soleRecord_of_existsUnique (complete.matched other consulted present)
    exact map_eq_ok_iff.mpr ⟨record, sole, complete.types_eq other consulted record member matched⟩

theorem findMatching_missing_iff (consulted : Consults name other) :
    findMatching other records = .error .missingCoverage ↔ other ∉ content := by
  constructor
  · intro missing present
    rw [(complete.findMatching_iff consulted).mpr ⟨present, rfl⟩] at missing
    cases missing
  · intro absent
    exact findMatching_eq_missing_iff.mpr (complete.unmatched other consulted absent)

theorem findCoverer_iff (consulted : Consults name other) (inside : other.inZone zone = true) :
    (∃ coverage, findCoverer other records = .ok coverage) ↔ other ∉ content := by
  constructor
  · rintro ⟨coverage, returned⟩ present
    obtain ⟨record, member, covered, _⟩ := findCoverer_eq_ok returned
    rw [complete.uncovered other consulted present record member] at covered
    cases covered
  · intro absent
    obtain ⟨record, _, _, sole⟩ :=
      soleRecord_of_existsUnique (complete.covered other consulted inside absent)
    exact ⟨_, map_eq_ok_iff.mpr ⟨record, sole, rfl⟩⟩

theorem findCoverer_optOut_iff (consulted : Consults name other)
    (inside : other.inZone zone = true) (absent : other ∉ content) :
    (∃ coverage, findCoverer other records = .ok coverage ∧ coverage.optOut = true) ↔
      ∃ record ∈ records, coversName record other = true ∧ optOut record = true := by
  have unique := complete.covered other consulted inside absent
  constructor
  · rintro ⟨coverage, returned, flagged⟩
    obtain ⟨record, member, covered, rfl⟩ := findCoverer_eq_ok returned
    exact ⟨record, member, covered, flagged⟩
  · rintro ⟨record, member, covered, flagged⟩
    obtain ⟨record', member', covered', sole⟩ := soleRecord_of_existsUnique unique
    obtain rfl := unique.unique ⟨member, covered⟩ ⟨member', covered'⟩
    exact ⟨_, map_eq_ok_iff.mpr ⟨record, sole, rfl⟩, flagged⟩

/-! ## The encloser found -/

theorem closest_eq {encloser : Encloser} (existing : content.IsDeepest name deepest)
    (encloses : Encloses records name encloser) : encloser.closest = deepest := by
  obtain ⟨found, matched⟩ := encloses.matched
  have told := (complete.findMatching_iff (Or.inl encloses.closest_mem)).mp matched
  have closest : content.IsDeepest name encloser.closest := by
    refine ⟨encloses.closest_mem, told.1, fun other member present => ?_⟩
    by_contra longer
    -- a longer suffix would have been matched before the encloser
    have passed := encloses.unmatched other member (Nat.lt_of_not_le longer)
    exact (complete.findMatching_missing_iff (Or.inl member)).mp passed present
  exact closest.eq existing

theorem encloses_iff (existing : content.IsDeepest name deepest) {encloser : Encloser} :
    Encloses records name encloser ↔ encloser.closest = deepest ∧
      encloser.nextCloser ∈ name.suffixes ∧
      encloser.nextCloser.labelCount = min name.labelCount (deepest.labelCount + 1) := by
  constructor
  · intro encloses
    have same := complete.closest_eq existing encloses
    have count := encloses.nextCloser_count
    rw [same] at count
    exact ⟨same, encloses.nextCloser_mem, count⟩
  · rintro ⟨rfl, nextMember, count⟩
    refine ⟨existing.mem_suffixes, ?_, ?_, nextMember, count⟩
    · exact ⟨_, (complete.findMatching_iff (Or.inl existing.mem_suffixes)).mpr ⟨existing.mem, rfl⟩⟩
    · intro closer member longer
      apply (complete.findMatching_missing_iff (Or.inl member)).mpr
      intro present
      have bound := existing.longest closer member present
      omega

end Complete

/-! ## Verdicts -/

/-- Whether a record with the opt-out flag covers the suffix of a name that is one label longer than
its closest encloser. -/
def InOptOutSpan (records : List ρ) (name deepest : Name) : Prop :=
  ∃ closer ∈ name.suffixes, closer.labelCount = deepest.labelCount + 1 ∧
    ∃ record ∈ records, coversName record closer = true ∧ optOut record = true

/-- The verdicts that are right for a question whose name has the closest encloser `deepest`. -/
structure Decided (content : ZoneContent zone) (records : List ρ) (question : Question)
    (deepest : Name) : Prop where
  nameError : verifyNameError question records = .ok () ↔ question.name ∉ content ∧
    ∀ wildcard, deepest.wildcardChild? = some wildcard → wildcard ∉ content
  noData : verifyNoData question records = .ok () ↔
    (question.name ∈ content ∧ question.type ∉ content.types question.name ∧
      RRType.cname ∉ content.types question.name) ∨
    (question.name ∉ content ∧ question.type = RRType.ds ∧
      InOptOutSpan records question.name deepest)
  delegation : verifyDelegation question.name records = .ok () ↔
    (question.name ∈ content ∧ RRType.ds ∉ content.types question.name ∧
      RRType.soa ∉ content.types question.name ∧ RRType.ns ∈ content.types question.name) ∨
    (question.name ∉ content ∧ InOptOutSpan records question.name deepest)
  wildcardNoData : verifyWildcardNoData question records = .ok () ↔ question.name ∉ content ∧
    ∃ wildcard, deepest.wildcardChild? = some wildcard ∧ wildcard ∈ content ∧
      question.type ∉ content.types wildcard ∧ RRType.cname ∉ content.types wildcard
  wildcardAnswer : ∀ wildcard, verifyWildcardAnswer question wildcard records = .ok () ↔
    ∃ encloser : Name, encloser.wildcardChild? = some wildcard ∧ encloser.inZone zone = true ∧
      (∃ ancestor ∈ question.name.suffixes, ancestor ≠ question.name ∧
        ancestor.canonical = encloser.canonical) ∧
      ∀ closer ∈ question.name.suffixes, encloser.labelCount < closer.labelCount →
        closer ∉ content

namespace Complete

variable {content : ZoneContent zone} (complete : Complete content records name)

include complete

/-- Where the name does not exist, the search ends at the encloser with the next closer name. -/
theorem exists_encloses (existing : content.IsDeepest name deepest) (absent : name ∉ content) :
    ∃ closer, Encloses records name ⟨deepest, closer⟩ ∧
      ∃ coverage, findCoverer closer records = .ok coverage := by
  have shorter := Name.labelCount_lt_of_ne existing.mem_suffixes (existing.ne_of_notMem absent)
  -- the next closer name lies in the zone below the encloser, where nothing longer exists
  obtain ⟨closer, member, next⟩ := Name.exists_suffix shorter
  have count : closer.labelCount = min name.labelCount (deepest.labelCount + 1) := by omega
  refine ⟨closer, (complete.encloses_iff existing).mpr ⟨rfl, member, count⟩, ?_⟩
  apply (complete.findCoverer_iff (Or.inl member) _).mpr
  · exact existing.notMem_of_longer member (by omega)
  · exact existing.inZone_of_longer member (by omega)

theorem verifyOptOut_iff (existing : content.IsDeepest name deepest) (absent : name ∉ content) :
    verifyOptOut name records = .ok () ↔ InOptOutSpan records name deepest := by
  have shorter := Name.labelCount_lt_of_ne existing.mem_suffixes (existing.ne_of_notMem absent)
  -- a next closer name is covered, so only the flag of its record is left to ask for
  have spans {closer : Name} (member : closer ∈ name.suffixes)
      (count : closer.labelCount = deepest.labelCount + 1) :=
    complete.findCoverer_optOut_iff (Or.inl member) (existing.inZone_of_longer member (by omega))
      (existing.notMem_of_longer member (by omega))
  rw [verifyOptOut_eq_ok_iff]
  constructor
  · rintro ⟨encloser, encloses, covered⟩
    obtain ⟨_, member, count⟩ := (complete.encloses_iff existing).mp encloses
    have next : encloser.nextCloser.labelCount = deepest.labelCount + 1 := by omega
    exact ⟨encloser.nextCloser, member, next, (spans member next).mp covered⟩
  · rintro ⟨closer, member, next, flagged⟩
    have count : closer.labelCount = min name.labelCount (deepest.labelCount + 1) := by omega
    exact ⟨⟨deepest, closer⟩, (complete.encloses_iff existing).mpr ⟨rfl, member, count⟩,
      (spans member next).mpr flagged⟩

end Complete

namespace Complete

variable {content : ZoneContent zone} (complete : Complete content records question.name)
  (existing : content.IsDeepest question.name deepest)

include complete existing

theorem verifyNameError_iff :
    verifyNameError question records = .ok () ↔ question.name ∉ content ∧
      ∀ wildcard, deepest.wildcardChild? = some wildcard → wildcard ∉ content := by
  obtain ⟨common, zoned, _⟩ := complete.exists_commonZone
  have below {wildcard : Name} (built : deepest.wildcardChild? = some wildcard) :=
    complete.findCoverer_iff (Or.inr ⟨deepest, existing.mem_suffixes, built⟩)
      (existing.inZone_of_wildcardChild? built)
  rw [verifyNameError_eq_ok_iff]
  constructor
  · rintro ⟨_, encloser, encloses, proper, wildcard, built, covered⟩
    obtain rfl := complete.closest_eq existing encloses
    refine ⟨existing.notMem proper, fun other built' => ?_⟩
    -- there is only one wildcard below the encloser
    cases built.symm.trans built'
    exact (below built).mp covered
  · rintro ⟨absent, denied⟩
    have proper := existing.ne_of_notMem absent
    obtain ⟨closer, encloses, _⟩ := complete.exists_encloses existing absent
    obtain ⟨wildcard, built⟩ := Name.exists_wildcardChild existing.mem_suffixes proper
    exact ⟨⟨common, zoned⟩, ⟨deepest, closer⟩, encloses, proper, wildcard, built,
      (below built).mpr (denied wildcard built)⟩

theorem verifyWildcardNoData_iff :
    verifyWildcardNoData question records = .ok () ↔ question.name ∉ content ∧
      ∃ wildcard, deepest.wildcardChild? = some wildcard ∧ wildcard ∈ content ∧
        question.type ∉ content.types wildcard ∧ RRType.cname ∉ content.types wildcard := by
  obtain ⟨common, zoned, _⟩ := complete.exists_commonZone
  have below {wildcard : Name} (built : deepest.wildcardChild? = some wildcard)
      {found : List RRType} :
      findMatching wildcard records = .ok found ↔
        wildcard ∈ content ∧ found = content.types wildcard :=
    complete.findMatching_iff (Or.inr ⟨deepest, existing.mem_suffixes, built⟩)
  rw [verifyWildcardNoData_eq_ok_iff]
  constructor
  · rintro ⟨_, encloser, encloses, proper, _, wildcard, built, found, matched, missing, noAlias⟩
    obtain rfl := complete.closest_eq existing encloses
    obtain ⟨present, rfl⟩ := (below built).mp matched
    exact ⟨existing.notMem proper, wildcard, built, present, missing, noAlias⟩
  · rintro ⟨absent, wildcard, built, present, missing, noAlias⟩
    obtain ⟨closer, encloses, covered⟩ := complete.exists_encloses existing absent
    exact ⟨⟨common, zoned⟩, ⟨deepest, closer⟩, encloses, existing.ne_of_notMem absent, covered,
      wildcard, built, _, (below built).mpr ⟨present, rfl⟩, missing, noAlias⟩

theorem verifyNoData_iff :
    verifyNoData question records = .ok () ↔
      (question.name ∈ content ∧ question.type ∉ content.types question.name ∧
        RRType.cname ∉ content.types question.name) ∨
      (question.name ∉ content ∧ question.type = RRType.ds ∧
        InOptOutSpan records question.name deepest) := by
  obtain ⟨common, zoned, _⟩ := complete.exists_commonZone
  have self : Consults question.name question.name := Or.inl (Name.self_mem_suffixes _)
  rw [verifyNoData_eq_ok_iff, and_iff_right ⟨common, zoned⟩]
  -- the finder answers for the zone, and the name exists in one half and is missing in the other
  simp only [complete.findMatching_missing_iff self, complete.findMatching_iff self]
  by_cases present : question.name ∈ content
  · simp [present]
  · simp [present, complete.verifyOptOut_iff existing present]

theorem verifyDelegation_iff :
    verifyDelegation question.name records = .ok () ↔
      (question.name ∈ content ∧ RRType.ds ∉ content.types question.name ∧
        RRType.soa ∉ content.types question.name ∧ RRType.ns ∈ content.types question.name) ∨
      (question.name ∉ content ∧ InOptOutSpan records question.name deepest) := by
  obtain ⟨common, zoned, _⟩ := complete.exists_commonZone
  have self : Consults question.name question.name := Or.inl (Name.self_mem_suffixes _)
  rw [verifyDelegation_eq_ok_iff, and_iff_right ⟨common, zoned⟩]
  simp only [complete.findMatching_missing_iff self, complete.findMatching_iff self]
  by_cases present : question.name ∈ content
  · simp [present]
  · simp [present, complete.verifyOptOut_iff existing present]

omit existing in
theorem verifyWildcardAnswer_iff (wildcard : Name) :
    verifyWildcardAnswer question wildcard records = .ok () ↔
      ∃ encloser : Name, encloser.wildcardChild? = some wildcard ∧ encloser.inZone zone = true ∧
        (∃ ancestor ∈ question.name.suffixes, ancestor ≠ question.name ∧
          ancestor.canonical = encloser.canonical) ∧
        ∀ closer ∈ question.name.suffixes, encloser.labelCount < closer.labelCount →
          closer ∉ content := by
  obtain ⟨common, zoned, spelled⟩ := complete.exists_commonZone
  rw [verifyWildcardAnswer_eq_ok_iff]
  constructor
  · rintro ⟨common', zoned', encloser, built, inside, below, shorter, unmatched, _⟩
    cases zoned.symm.trans zoned'
    rw [Name.inZone_congr rfl spelled] at inside
    obtain ⟨ancestor, member, same⟩ := Name.inZone_text_iff_exists.mp below
    have count := Name.labelCount_eq_of_canonical_eq same
    refine ⟨encloser, built, inside, ⟨ancestor, member, ?_, same⟩, ?_⟩
    · rintro rfl
      omega
    · intro closer closerMember longer
      exact (complete.findMatching_missing_iff (Or.inl closerMember)).mp
        (unmatched closer closerMember longer)
  · rintro ⟨encloser, built, inside, ⟨ancestor, member, proper, same⟩, denied⟩
    -- the shortest suffix that is denied is the next closer name, which the records cover
    have count := Name.labelCount_eq_of_canonical_eq same
    have shorter := Name.labelCount_lt_of_ne member proper
    obtain ⟨nextCloser, nextMember, next⟩ := Name.exists_suffix shorter
    have ancestorInside : ancestor.inZone zone = true := by
      rw [Name.inZone_congr same rfl]
      exact inside
    have nextInside : nextCloser.inZone zone = true :=
      Name.inZone_of_suffix (Name.mem_suffixes_of_le member nextMember (by omega)) ancestorInside
    have below := Name.inZone_text_iff_exists.mpr ⟨ancestor, member, same⟩
    refine ⟨common, zoned, encloser, built, ?_, below, by omega, ?_, nextCloser, nextMember,
      by omega, ?_⟩
    · rw [Name.inZone_congr rfl spelled]
      exact inside
    · intro closer closerMember longer
      exact (complete.findMatching_missing_iff (Or.inl closerMember)).mpr
        (denied closer closerMember longer)
    · exact (complete.findCoverer_iff (Or.inl nextMember) nextInside).mpr
        (denied nextCloser nextMember (by omega))

theorem decided : Decided content records question deepest where
  nameError := complete.verifyNameError_iff existing
  noData := complete.verifyNoData_iff existing
  delegation := complete.verifyDelegation_iff existing
  wildcardNoData := complete.verifyWildcardNoData_iff existing
  wildcardAnswer := complete.verifyWildcardAnswer_iff

end Complete

end HashedDenial
