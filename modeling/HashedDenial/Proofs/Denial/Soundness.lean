import HashedDenial.Proofs.Denial.PlainRecord
import HashedDenial.Proofs.Denial.Verdicts

/-!
# What accepted wildcard proofs say about the zone

The records behind a proof are any choice of truthful ones. A wildcard answer and a wildcard without
data rest on a covered next closer name, so the encloser of the proof is the closest one that
exists.
-/
namespace HashedDenial

open DenialRecord

variable {zone : Octets} {ρ : Type} [DenialRecord ρ] [BEq ρ] {records : List ρ}
  {question : Question} {name wildcard : Name} {encloser : Encloser}

theorem Encloses.mem {existing : ZoneNames zone} (truthful : Truthful existing records)
    (encloses : Encloses records name encloser) : encloser.closest ∈ existing := by
  obtain ⟨found, matched⟩ := encloses.matched
  exact truthful.mem_of_findMatching matched

/-- The encloser found is the closest one that exists as soon as the next closer name does not. -/
theorem Encloses.isDeepest_iff {existing : ZoneNames zone} (truthful : Truthful existing records)
    (encloses : Encloses records name encloser) (proper : encloser.closest ≠ name) :
    encloser.nextCloser ∉ existing ↔ existing.IsDeepest name encloser.closest := by
  have count := encloses.nextCloser_of_ne proper
  constructor
  · intro absent
    exact ZoneNames.isDeepest_of_next_notMem encloses.closest_mem (encloses.mem truthful)
      encloses.nextCloser_mem count absent
  · intro deepest present
    have bound := deepest.longest encloser.nextCloser encloses.nextCloser_mem present
    omega

/-! ## Wildcards without data -/

/-- An accepted proof of no data at a wildcard denies the name, names its closest encloser, and
shows the wildcard there without the type asked for and without an alias. -/
theorem verifyWildcardNoData_sound {content : ZoneContent zone}
    (faithful : Faithful content records)
    (accepted : verifyWildcardNoData question records = .ok ()) :
    question.name ∉ content ∧
      ∃ encloser, findClosestEncloser question.name records = .ok (some encloser) ∧
        content.IsDeepest question.name encloser.closest ∧
        ∃ wildcard, encloser.closest.wildcardChild? = some wildcard ∧ wildcard ∈ content ∧
          question.type ∉ content.types wildcard ∧ RRType.cname ∉ content.types wildcard := by
  obtain ⟨_, encloser, encloses, proper, ⟨coverage, covered⟩, wildcard, built, found, matched,
    absent, noAlias⟩ := verifyWildcardNoData_eq_ok_iff.mp accepted
  have truthful := faithful.toTruthful
  have uncovered := truthful.notMem_of_findCoverer covered
  have deepest := (encloses.isDeepest_iff truthful proper).mp uncovered
  have same := faithful.types_of_findMatching matched
  rw [same] at absent noAlias
  refine ⟨deepest.notMem proper, encloser, findClosestEncloser_eq_some_iff.mpr encloses, deepest,
    wildcard, built, ?_, absent, noAlias⟩
  exact truthful.mem_of_findMatching matched

theorem verifyWildcardNoData_sound_belowMissing :
    Faithful Sample.wildcardContent Sample.wildcardRecords ∧
      verifyWildcardNoData ⟨Sample.belowMissing, RRType.ds⟩ Sample.wildcardRecords = .ok () ∧
      Sample.belowMissing ∉ Sample.wildcardContent := by
  have accepted :
      verifyWildcardNoData ⟨Sample.belowMissing, RRType.ds⟩ Sample.wildcardRecords = .ok () := by
    decide
  have sound := verifyWildcardNoData_sound Sample.faithful_wildcardRecords accepted
  exact ⟨Sample.faithful_wildcardRecords, accepted, sound.1⟩

/-! ## Wildcard answers -/

/-- An accepted wildcard answer was made from a wildcard below a proper ancestor of the name, and no
name between the two exists. If the wildcard exists, it is the one at the closest encloser. -/
theorem verifyWildcardAnswer_sound {existing : ZoneNames zone}
    (truthful : Truthful existing records)
    (accepted : verifyWildcardAnswer question wildcard records = .ok ()) :
    ∃ encloser : Name, encloser.wildcardChild? = some wildcard ∧ encloser.inZone zone = true ∧
      ∃ ancestor ∈ question.name.suffixes, ancestor ≠ question.name ∧
        ancestor.canonical = encloser.canonical ∧
        (∀ longer ∈ question.name.suffixes, encloser.labelCount < longer.labelCount →
          longer ∉ existing) ∧
        (wildcard ∈ existing → existing.IsDeepest question.name ancestor) := by
  obtain ⟨common, zoned, encloser, built, inside, below, shorter, _, nextCloser, nextMember, count,
    coverage, covered⟩ := verifyWildcardAnswer_eq_ok_iff.mp accepted
  -- the zone that the records name is the zone of the content, in some spelling
  have zones : Octets.lower common = Octets.lower zone := by
    obtain ⟨first, others, list, rfl, _⟩ := commonZone_eq_ok_iff.mp zoned
    exact truthful.zone_eq first (list ▸ List.mem_cons_self)
  rw [Name.inZone_congr rfl zones] at inside
  obtain ⟨ancestor, member, same⟩ := Name.inZone_text_iff_exists.mp below
  have sameCount := Name.labelCount_eq_of_canonical_eq same
  have ancestorInside : ancestor.inZone zone = true := by
    rw [Name.inZone_congr same rfl]
    exact inside
  have absent := truthful.notMem_of_findCoverer covered
  have nextCount : nextCloser.labelCount = ancestor.labelCount + 1 := by omega
  refine ⟨encloser, built, inside, ancestor, member, ?_, same, ?_, ?_⟩
  · rintro rfl
    omega
  · intro longer longerMember above
    exact ZoneNames.notMem_of_longer member ancestorInside nextMember nextCount absent longerMember
      (by omega)
  · -- the wildcard exists, and with it its parent
    intro present
    have exists_ : encloser ∈ existing := existing.closed wildcard present encloser
      (Name.mem_suffixes_of_wildcardChild? built) inside
    exact ZoneNames.isDeepest_of_next_notMem member ((ZoneNames.mem_congr same).mpr exists_)
      nextMember nextCount absent

/-- The spelling of the wildcard does not matter: no name below `e.` exists on the way. -/
theorem verifyWildcardAnswer_sound_capitalWildcard :
    Truthful Sample.wildcardContent.toZoneNames Sample.wildcardRecords ∧
      verifyWildcardAnswer ⟨Sample.belowMissing, RRType.ns⟩ Sample.capitalWildcard
        Sample.wildcardRecords = .ok () ∧
      Sample.missing ∉ Sample.wildcardContent.toZoneNames := by
  have truthful := Sample.faithful_wildcardRecords.toTruthful
  have accepted : verifyWildcardAnswer ⟨Sample.belowMissing, RRType.ns⟩ Sample.capitalWildcard
      Sample.wildcardRecords = .ok () := by
    decide
  obtain ⟨encloser, built, _, _, _, _, _, absent, _⟩ := verifyWildcardAnswer_sound truthful accepted
  have labels := Name.wildcardChild?_eq_some_iff.mp built
  have count : 2 = encloser.labelCount + 1 := congrArg List.length labels
  have longer : encloser.labelCount < Sample.missing.labelCount := by
    have two : Sample.missing.labelCount = 2 := rfl
    omega
  exact ⟨truthful, accepted, absent Sample.missing (by decide) longer⟩

end HashedDenial
