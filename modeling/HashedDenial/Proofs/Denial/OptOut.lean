import HashedDenial.Proofs.Denial.Completeness
import HashedDenial.Proofs.Denial.Soundness

/-!
# What accepted proofs about types say about the zone

That a type is missing is shown by the record of the name, or by an opt-out record that covers the
next closer name. The second way asks for no record of the name itself, but a covered next closer
name rules out all names below it, so nothing that exists is denied even if its own record was left
out.
-/
namespace HashedDenial

open DenialRecord

variable {zone : Octets} {ρ : Type} [DenialRecord ρ] [BEq ρ] {records : List ρ}
  {question : Question} {name : Name} {content : ZoneContent zone}

/-! ## Opt-out spans -/

/-- A name that no record matches is not its own encloser. -/
theorem Encloses.closest_ne {encloser : Encloser} (encloses : Encloses records name encloser)
    (unmatched : findMatching name records = .error .missingCoverage) :
    encloser.closest ≠ name := by
  obtain ⟨found, matched⟩ := encloses.matched
  rintro rfl
  rw [unmatched] at matched
  cases matched

/-- A name that no record matches and that is accepted as lying in an opt-out span does not exist,
and the span is the one below its closest encloser. -/
theorem verifyOptOut_sound {existing : ZoneNames zone} (truthful : Truthful existing records)
    (unmatched : findMatching name records = .error .missingCoverage)
    (accepted : verifyOptOut name records = .ok ()) :
    name ∉ existing ∧
      ∃ deepest, existing.IsDeepest name deepest ∧ InOptOutSpan records name deepest := by
  obtain ⟨encloser, encloses, coverage, covered, flagged⟩ := verifyOptOut_eq_ok_iff.mp accepted
  have proper := encloses.closest_ne unmatched
  have absent := truthful.notMem_of_findCoverer covered
  have deepest := (encloses.isDeepest_iff truthful proper).mp absent
  obtain ⟨record, member, covers, rfl⟩ := findCoverer_eq_ok covered
  exact ⟨deepest.notMem proper, encloser.closest, deepest, encloser.nextCloser,
    encloses.nextCloser_mem, encloses.nextCloser_of_ne proper, record, member, covers, flagged⟩

/-! ## No data and unsigned delegations -/

theorem verifyNoData_sound (faithful : Faithful content records)
    (accepted : verifyNoData question records = .ok ()) :
    (question.name ∈ content ∧ question.type ∉ content.types question.name ∧
      RRType.cname ∉ content.types question.name) ∨
    (question.name ∉ content ∧ question.type = RRType.ds ∧
      ∃ deepest, content.IsDeepest question.name deepest ∧
        InOptOutSpan records question.name deepest) := by
  have truthful := faithful.toTruthful
  obtain ⟨_, ⟨found, matched, absent, noAlias⟩ | ⟨unmatched, signer, spanned⟩⟩ :=
    verifyNoData_eq_ok_iff.mp accepted
  · rw [faithful.types_of_findMatching matched] at absent noAlias
    exact Or.inl ⟨truthful.mem_of_findMatching matched, absent, noAlias⟩
  · obtain ⟨missing, span⟩ := verifyOptOut_sound truthful unmatched spanned
    exact Or.inr ⟨missing, signer, span⟩

theorem verifyDelegation_sound (faithful : Faithful content records)
    (accepted : verifyDelegation name records = .ok ()) :
    (name ∈ content ∧ RRType.ds ∉ content.types name ∧ RRType.soa ∉ content.types name ∧
      RRType.ns ∈ content.types name) ∨
    (name ∉ content ∧
      ∃ deepest, content.IsDeepest name deepest ∧ InOptOutSpan records name deepest) := by
  have truthful := faithful.toTruthful
  obtain ⟨_, ⟨found, matched, unsigned, below, delegated⟩ | ⟨unmatched, spanned⟩⟩ :=
    verifyDelegation_eq_ok_iff.mp accepted
  · rw [faithful.types_of_findMatching matched] at unsigned below delegated
    exact Or.inl ⟨truthful.mem_of_findMatching matched, unsigned, below, delegated⟩
  · exact Or.inr (verifyOptOut_sound truthful unmatched spanned)

/-- No type that exists is denied, nor any type at an alias. No name is called an unsigned
delegation that has a delegation signer, is the apex of a zone or is no delegation. -/
theorem accepted_spares_existing_types (faithful : Faithful content records) :
    (∀ question : Question, verifyNoData question records = .ok () →
      ¬ (question.name ∈ content ∧ (question.type ∈ content.types question.name ∨
        RRType.cname ∈ content.types question.name))) ∧
    ∀ name, verifyDelegation name records = .ok () →
      ¬ (name ∈ content ∧ (RRType.ds ∈ content.types name ∨ RRType.soa ∈ content.types name)) ∧
      ¬ (name ∈ content ∧ RRType.ns ∉ content.types name) := by
  refine ⟨fun question accepted => ?_, fun name accepted => ?_⟩
  · rintro ⟨present, exists_⟩
    rcases verifyNoData_sound faithful accepted with ⟨_, absent, noAlias⟩ | ⟨missing, _⟩
    · exact exists_.elim absent noAlias
    · exact missing present
  · rcases verifyDelegation_sound faithful accepted with
      ⟨_, unsigned, below, delegated⟩ | ⟨missing, _⟩
    · exact ⟨fun ⟨_, exists_⟩ => exists_.elim unsigned below, fun ⟨_, bare⟩ => bare delegated⟩
    · exact ⟨fun ⟨present, _⟩ => missing present, fun ⟨present, _⟩ => missing present⟩

namespace Sample

/-- Records that show the apex and the delegation `h.e.`, and that `n.e.` lies in an opt-out
span. -/
def optOutRecords : List PlainRecord :=
  [.matching apex apex [RRType.soa], .matching apex host [RRType.ns],
    { PlainRecord.covering apex [missing] with optOut := true }]

theorem faithful_optOutRecords : Faithful hostContent optOutRecords :=
  PlainRecord.faithful_ofEntries (by decide) (by decide) (by decide)

end Sample

/-- Both ways to accept: `h.n.e.` has no record and lies in the opt-out span, and `h.e.` has one. -/
theorem accepted_spares_existing_types_host :
    Faithful Sample.hostContent Sample.optOutRecords ∧
      verifyNoData ⟨Sample.belowMissing, RRType.ds⟩ Sample.optOutRecords = .ok () ∧
      ¬ (Sample.belowMissing ∈ Sample.hostContent ∧
        (RRType.ds ∈ Sample.hostContent.types Sample.belowMissing ∨
          RRType.cname ∈ Sample.hostContent.types Sample.belowMissing)) ∧
      verifyDelegation Sample.host Sample.optOutRecords = .ok () ∧
      ¬ (Sample.host ∈ Sample.hostContent ∧ RRType.ns ∉ Sample.hostContent.types Sample.host) := by
  have denied : verifyNoData ⟨Sample.belowMissing, RRType.ds⟩ Sample.optOutRecords = .ok () := by
    decide
  have delegated : verifyDelegation Sample.host Sample.optOutRecords = .ok () := by decide
  obtain ⟨noData, delegation⟩ := accepted_spares_existing_types Sample.faithful_optOutRecords
  exact ⟨Sample.faithful_optOutRecords, denied, noData _ denied, delegated,
    (delegation _ delegated).2⟩

end HashedDenial
