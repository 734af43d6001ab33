import HashedDenial.Denial.Audit
import HashedDenial.Proofs.Denial.PlainRecord
import HashedDenial.Proofs.Denial.Verdicts
import HashedDenial.Proofs.Nsec3.Partition

/-!
# Names outside the zone of the records

No verifier asks whether the name in question lies in the zone of the records. A record speaks only
of names in its own zone, though, and a name outside has no suffix inside, so the search for the
closest encloser comes to the root without a match. A wildcard answer fails earlier, as the parent
of the wildcard would have to lie in the zone and above the name.
-/
namespace HashedDenial

open DenialRecord

/-- How the proofs fail for a name outside the zone of the records. -/
def ProofKind.failureOutside : ProofKind → DenialError
  | wildcardAnswer _ => .mismatch
  | _ => .missingCoverage

section Unmatched

variable {ρ : Type} [DenialRecord ρ] [BEq ρ] {records : List ρ} {question : Question}
  {name wildcard : Name} {common : Octets}

/-! ## Names without a matched suffix -/

section

variable (unmatched : ∀ suffix ∈ name.suffixes,
  findMatching suffix records = .error .missingCoverage)

include unmatched

theorem requireEncloser_of_unmatched :
    requireEncloser name records = .error .missingCoverage := by
  rw [requireEncloser, findClosestEncloser_eq_none_iff.mpr unmatched]
  rfl

theorem verifyOptOut_of_unmatched : verifyOptOut name records = .error .missingCoverage := by
  rw [verifyOptOut, requireEncloser_of_unmatched unmatched]
  rfl

theorem verifyDelegation_of_unmatched (zoned : commonZone records = .ok common) :
    verifyDelegation name records = .error .missingCoverage := by
  rw [verifyDelegation_eq_verdictAt, verdictAt_of_missing (unmatched _ (Name.self_mem_suffixes _)),
    verifyOptOut_of_unmatched unmatched, zoned]
  rfl

end

section

variable (zoned : commonZone records = .ok common)
  (unmatched : ∀ suffix ∈ question.name.suffixes,
    findMatching suffix records = .error .missingCoverage)

include zoned unmatched

theorem verifyNameError_of_unmatched :
    verifyNameError question records = .error .missingCoverage := by
  rw [verifyNameError, zoned, requireEncloser_of_unmatched unmatched]
  rfl

theorem verifyWildcardNoData_of_unmatched :
    verifyWildcardNoData question records = .error .missingCoverage := by
  rw [verifyWildcardNoData, zoned, requireEncloser_of_unmatched unmatched]
  rfl

/-- Delegation signers are looked for in an opt-out span, which needs an encloser as well. -/
theorem verifyNoData_of_unmatched : verifyNoData question records = .error .missingCoverage := by
  rw [verifyNoData_eq_verdictAt, verdictAt_of_missing (unmatched _ (Name.self_mem_suffixes _)),
    verifyOptOut_of_unmatched unmatched, ite_self, zoned]
  rfl

end

/-! ## Wildcard answers -/

theorem verifyWildcardAnswer_of_outside (zoned : commonZone records = .ok common)
    (outside : question.name.inZone common = false) :
    verifyWildcardAnswer question wildcard records = .error .mismatch := by
  rw [verifyWildcardAnswer, zoned]
  by_cases starred : wildcard.isWildcard = true
  · cases parent : wildcard.parent? with
    | none => simp [starred, ensure, valueOr, bind, Except.bind]
    | some encloser =>
      -- an encloser in the zone with the name below it would put the name into the zone
      have apart : ¬ (encloser.inZone common = true ∧
          question.name.inZone encloser.text = true ∧
          encloser.labelCount < question.name.labelCount) := by
        rintro ⟨upper, below, _⟩
        rw [Name.inZone_trans below upper] at outside
        cases outside
      simp only [starred, ensure, valueOr, bind, Except.bind, apart, if_true, if_false]
  · simp [starred, ensure, bind, Except.bind]

end Unmatched

/-! ## Records of one zone -/

namespace Nsec3

variable {zone : Octets} {records : List Nsec3} {record : Nsec3} {name : Name}

/-- The zone of a record is that of a name, so whatever lies in it has a suffix that spells it. -/
theorem not_inZone_of_hasText (spelled : record.zone.hasText zone = true)
    (outside : ∀ ancestor ∈ name.suffixes, ancestor.hasText zone = false) :
    name.inZone record.zone.text = false := by
  rw [← Bool.not_eq_true, Name.inZone_text_iff_exists]
  rintro ⟨ancestor, member, same⟩
  have reached : ancestor.hasText zone = true := by
    rw [Name.hasText_iff] at spelled ⊢
    rw [same, spelled]
  rw [outside ancestor member] at reached
  cases reached

/-- Records of one zone prove nothing about a name that is neither the apex of the zone nor below
it: the search finds no encloser, a wildcard answer contradicts the zone, and all other proofs lack
a record. -/
theorem unproved_of_outside (nonempty : records ≠ [])
    (spelled : ∀ record ∈ records, record.zone.hasText zone = true)
    (outside : ∀ ancestor ∈ name.suffixes, ancestor.hasText zone = false) :
    findClosestEncloser name records = .ok none ∧
      ∀ (kind : ProofKind) (type : RRType),
        kind.verify ⟨name, type⟩ records = .error kind.failureOutside := by
  have zones : ∀ record ∈ records, Octets.lower (DenialRecord.zone record) = Octets.lower zone := by
    intro record member
    exact (Octets.eqIgnoringCase_iff _ _).mp (spelled record member)
  obtain ⟨common, zoned, _⟩ := exists_commonZone nonempty zones
  have unmatched : ∀ suffix ∈ name.suffixes,
      findMatching suffix records = .error .missingCoverage := by
    intro suffix below
    apply findMatching_eq_missing_iff.mpr
    intro record member
    -- the suffixes of a suffix are suffixes of the name, so it lies outside as well
    apply matchesName_eq_false
    apply not_inZone_of_hasText (spelled record member)
    intro ancestor above
    exact outside ancestor (Name.suffixes_trans above below)
  have apart : name.inZone common = false := by
    obtain ⟨first, others, rfl, rfl, _⟩ := commonZone_eq_ok_iff.mp zoned
    exact not_inZone_of_hasText (spelled first List.mem_cons_self) outside
  refine ⟨findClosestEncloser_eq_none_iff.mpr unmatched, fun kind type => ?_⟩
  cases kind with
  | nameError => exact verifyNameError_of_unmatched zoned unmatched
  | noData => exact verifyNoData_of_unmatched zoned unmatched
  | delegation => exact verifyDelegation_of_unmatched unmatched zoned
  | wildcardNoData => exact verifyWildcardNoData_of_unmatched zoned unmatched
  | wildcardAnswer wildcard => exact verifyWildcardAnswer_of_outside zoned apart

end Nsec3

namespace Sample

/-- The name `f.ee.`, whose text ends like those of the names below `e.` -/
def lookalike : Name := ⟨[⟨[0x66], by decide⟩, ⟨[0x65, 0x65], by decide⟩], by decide⟩

/-- Records of the zone `e.`, which the second spells `E.` -/
def spelledRecords : List Nsec3 :=
  [{ lowRecord with owner := ⟨lowRecord.owner.labels ++ apex.labels, by decide⟩ },
    { highRecord with owner := ⟨highRecord.owner.labels ++ capitalApex.labels, by decide⟩ }]

end Sample

/-- The likeness of the texts is not enough: `f.ee.` does not end with a label `e`. -/
theorem Nsec3.unproved_of_outside_lookalike :
    Sample.spelledRecords ≠ [] ∧
      (∀ record ∈ Sample.spelledRecords, record.zone.hasText Sample.apex.text = true) ∧
      (∀ ancestor ∈ Sample.lookalike.suffixes, ancestor.hasText Sample.apex.text = false) ∧
      findClosestEncloser Sample.lookalike Sample.spelledRecords = .ok none ∧
      verifyNoData ⟨Sample.lookalike, RRType.ds⟩ Sample.spelledRecords =
        .error .missingCoverage ∧
      verifyWildcardAnswer ⟨Sample.lookalike, RRType.ds⟩ Sample.wildcard Sample.spelledRecords =
        .error .mismatch := by
  have nonempty : Sample.spelledRecords ≠ [] := by decide
  have spelled : ∀ record ∈ Sample.spelledRecords,
      record.zone.hasText Sample.apex.text = true := by
    decide
  have outside : ∀ ancestor ∈ Sample.lookalike.suffixes,
      ancestor.hasText Sample.apex.text = false := by
    decide
  obtain ⟨unfound, fails⟩ := unproved_of_outside nonempty spelled outside
  exact ⟨nonempty, spelled, outside, unfound, fails .noData RRType.ds,
    fails (.wildcardAnswer Sample.wildcard) RRType.ds⟩

end HashedDenial
