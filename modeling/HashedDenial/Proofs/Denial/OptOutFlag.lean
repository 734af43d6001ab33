import HashedDenial.Proofs.Denial.OwnerCase
import HashedDenial.Proofs.Denial.UnsignedDelegation

/-!
# What the opt-out flag is good for

The flag is read in one place, where the next closer name of an unmatched name is covered, and there
it is the last thing that is asked. Records that lose the flag thus complete every proof they
completed before, except that no name can be shown to lie in an opt-out span.
-/
namespace HashedDenial

open DenialRecord

/-! ## Records without the flag -/

theorem bind_error_eq {verdict : Except DenialError Unit} {failure : DenialError} :
    (verdict >>= fun _ => .error failure) =
      if verdict = .ok () then .error failure else verdict := by
  cases verdict <;> simp [bind, Except.bind]

/-- Whether some records answer the finders as others do, but without opt-out records. -/
structure LosesOptOut {ρ : Type} [DenialRecord ρ] [BEq ρ] (records closed : List ρ) : Prop where
  zone : commonZone closed = commonZone records
  matching : ∀ name, findMatching name closed = findMatching name records
  covering : ∀ name, findCoverer name closed =
    (findCoverer name records).map fun coverage => { coverage with optOut := false }

namespace LosesOptOut

variable {ρ : Type} [DenialRecord ρ] [BEq ρ] {records closed : List ρ} {question : Question}
  {name : Name} (loses : LosesOptOut records closed)

include loses

theorem findClosestEncloser : findClosestEncloser name closed = findClosestEncloser name records :=
  UnlessAmbiguous.antisymm (.firstMatched fun other _ => Or.inr (loses.matching other))
    (.firstMatched fun other _ => Or.inr (loses.matching other).symm)

theorem requireEncloser : requireEncloser name closed = requireEncloser name records := by
  rw [HashedDenial.requireEncloser, loses.findClosestEncloser, HashedDenial.requireEncloser]

theorem ensureUnmatched : ensureUnmatched name closed = ensureUnmatched name records := by
  rw [HashedDenial.ensureUnmatched, loses.matching, HashedDenial.ensureUnmatched]

/-! ### Proofs that do not ask for the flag -/

theorem verifyNameError : verifyNameError question closed = verifyNameError question records := by
  simp only [HashedDenial.verifyNameError, loses.zone, loses.requireEncloser, loses.covering,
    except_map_bind]

theorem verifyWildcardNoData :
    verifyWildcardNoData question closed = verifyWildcardNoData question records := by
  simp only [HashedDenial.verifyWildcardNoData, loses.zone, loses.requireEncloser, loses.covering,
    loses.matching, except_map_bind]

theorem verifyWildcardAnswer (wildcard : Name) :
    verifyWildcardAnswer question wildcard closed =
      verifyWildcardAnswer question wildcard records := by
  simp only [HashedDenial.verifyWildcardAnswer, loses.zone, loses.ensureUnmatched, loses.covering,
    except_map_bind]

/-! ### Proofs that do -/

/-- The flag is asked for last, so without it everything else still fails as it did. -/
theorem verifyOptOut : verifyOptOut name closed =
    (verifyOptOut name records >>= fun _ => .error .optOut) := by
  simp only [HashedDenial.verifyOptOut, loses.requireEncloser, loses.covering, except_map_bind,
    bind_assoc]
  refine bind_congr_of_ok fun encloser _ => bind_congr_of_ok fun coverage _ => ?_
  by_cases flagged : coverage.optOut = true <;> simp [ensure, flagged, bind, Except.bind]

theorem verdictAt {recorded : List RRType → Except DenialError Unit}
    {unrecorded : Except DenialError Unit} :
    verdictAt name closed recorded (unrecorded >>= fun _ => .error .optOut) =
      if verdictAt name records recorded unrecorded = .ok () ∧ ¬ Matched records name
      then .error .optOut else verdictAt name records recorded unrecorded := by
  have asked (unrecorded : Except DenialError Unit) :
      HashedDenial.verdictAt name closed recorded unrecorded =
        HashedDenial.verdictAt name records recorded unrecorded := by
    rw [HashedDenial.verdictAt, loses.zone, loses.matching, HashedDenial.verdictAt]
  rw [asked]
  by_cases present : Matched records name
  · rw [if_neg fun both => both.2 present]
    exact verdictAt_of_matched present unrecorded
  · rw [verdictAt_of_not_matched present, verdictAt_of_not_matched present, ← bind_assoc,
      bind_error_eq]
    simp only [present, not_false_eq_true, and_true]

theorem verifyDelegation : verifyDelegation name closed =
    if verifyDelegation name records = .ok () ∧ ¬ Matched records name
    then .error .optOut else verifyDelegation name records := by
  rw [verifyDelegation_eq_verdictAt, verifyDelegation_eq_verdictAt, loses.verifyOptOut,
    loses.verdictAt]

theorem verifyNoData : verifyNoData question closed =
    if verifyNoData question records = .ok () ∧ ¬ Matched records question.name
    then .error .optOut else verifyNoData question records := by
  rw [verifyNoData_eq_verdictAt, verifyNoData_eq_verdictAt, ← loses.verdictAt]
  by_cases signer : question.type = RRType.ds
  · rw [if_pos signer, if_pos signer, loses.verifyOptOut]
  · -- without a record no other type is denied, whatever the records flag
    rw [if_neg signer, if_neg signer]
    rfl

/-- Records that lose the flag change a verdict in one way only: no data and unsigned delegations
are no longer accepted for a name that no record matches. -/
theorem verify (kind : ProofKind) : kind.verify question closed =
    if (kind = .noData ∨ kind = .delegation) ∧ kind.verify question records = .ok () ∧
      ¬ Matched records question.name
    then .error .optOut else kind.verify question records := by
  cases kind with
  | nameError => simpa [ProofKind.verify] using loses.verifyNameError
  | noData => simpa [ProofKind.verify] using loses.verifyNoData
  | delegation => simpa [ProofKind.verify] using loses.verifyDelegation
  | wildcardNoData => simpa [ProofKind.verify] using loses.verifyWildcardNoData
  | wildcardAnswer wildcard =>
    simpa [ProofKind.verify] using loses.verifyWildcardAnswer wildcard

end LosesOptOut

/-! ## Clearing the flag -/

namespace Nsec3

/-- The record with its lowest flag cleared and the others kept. -/
def clearOptOut (record : Nsec3) : Nsec3 := { record with flags := record.flags &&& 0xfe }

theorem optOut_clearOptOut (record : Nsec3) : record.clearOptOut.optOut = false := by
  have apart : (0xfe : UInt8) &&& 1 = 0 := by decide
  rw [optOut, clearOptOut, UInt8.and_assoc, apart, UInt8.and_zero]
  rfl

variable {records : List Nsec3}

/-- Whether no two records differ in the lowest flag alone. -/
def ApartFromOptOut (records : List Nsec3) : Prop :=
  ∀ left ∈ records, ∀ right ∈ records, left.clearOptOut = right.clearOptOut → left = right

theorem ApartFromOptOut.soleRecord_map (apart : ApartFromOptOut records) {condition : Nsec3 → Bool}
    (kept : ∀ record, condition (clearOptOut record) = condition record) :
    soleRecord condition (records.map clearOptOut) =
      (soleRecord condition records).map clearOptOut :=
  (soleRecord_map_of_injOn kept fun left member right member' _ =>
    apart left member right member').symm

/-- Where no records become equal, nothing that was ambiguous becomes clear. -/
theorem ApartFromOptOut.losesOptOut (apart : ApartFromOptOut records) :
    LosesOptOut records (records.map clearOptOut) where
  zone := by
    cases records with
    | nil => rfl
    | cons first others =>
      rw [List.map_cons, commonZone, commonZone, List.all_map]
      rfl
  matching name := by
    rw [findMatching, apart.soleRecord_map fun record => rfl, findMatching]
    cases soleRecord (DenialRecord.matchesName · name) records <;> rfl
  covering name := by
    rw [findCoverer, apart.soleRecord_map fun record => rfl, findCoverer]
    cases soleRecord (DenialRecord.coversName · name) records with
    | error failure => rfl
    | ok record =>
      have lowered : DenialRecord.optOut record.clearOptOut = false := record.optOut_clearOptOut
      simp only [Except.map, lowered]
      rfl

/-- Clearing the flag of all records changes no name error and no proof about a wildcard. It changes
no data and an unsigned delegation only where they are accepted for a name that no record matches,
and then the flag is what is missing. No two records may differ in the flag alone, since they are
ambiguous only as long as they keep it. -/
theorem clearOptOut_verdicts (apart : ApartFromOptOut records) (kind : ProofKind)
    (question : Question) :
    kind.verify question (records.map clearOptOut) =
      if (kind = .noData ∨ kind = .delegation) ∧ kind.verify question records = .ok () ∧
        ¬ Matched records question.name
      then .error .optOut else kind.verify question records :=
  apart.losesOptOut.verify kind

end Nsec3

namespace Sample

/-- The record of a zone that holds `e.` alone, with the opt-out flag and another one set. -/
def flaggedRecord : Nsec3 := { ringRecord apexDigits (hashOf apexDigits) with flags := 3 }

/-- The record and one by an unknown algorithm, with the flag as well. -/
def flaggedRecords : List Nsec3 :=
  [flaggedRecord, { flaggedRecord with params := { flaggedRecord.params with algorithm := 2 } }]

end Sample

/-- `h.e.` lies in the opt-out span of the records until the flag is cleared. -/
theorem Nsec3.clearOptOut_verdicts_flagged :
    ProofKind.delegation.verify ⟨Sample.host, RRType.ns⟩ Sample.flaggedRecords = .ok () ∧
      ProofKind.delegation.verify ⟨Sample.host, RRType.ns⟩
        (Sample.flaggedRecords.map clearOptOut) = .error .optOut := by
  have apart : ApartFromOptOut Sample.flaggedRecords := by
    unfold ApartFromOptOut
    decide +kernel
  have spanned : ProofKind.delegation.verify ⟨Sample.host, RRType.ns⟩ Sample.flaggedRecords =
      .ok () := by
    decide +kernel
  have absent : ¬ Matched Sample.flaggedRecords Sample.host := by decide +kernel
  have cleared := clearOptOut_verdicts apart .delegation ⟨Sample.host, RRType.ns⟩
  rw [if_pos ⟨Or.inr rfl, spanned, absent⟩] at cleared
  exact ⟨spanned, cleared⟩

end HashedDenial
