import HashedDenial.Denial.Verify
import HashedDenial.Proofs.Denial.Finders
import Mathlib.Logic.Unique

/-!
# When the verifiers accept

Each verifier is a chain of steps that may fail. It accepts exactly if all its steps succeed, and
the conditions below say what the steps ask of the records.
-/
namespace HashedDenial

open DenialRecord

variable {ρ : Type} [DenialRecord ρ] {records : List ρ}

/-! ## Steps of the verifiers -/

theorem commonZone_eq_ok_iff {common : Octets} :
    commonZone records = .ok common ↔ ∃ first others, records = first :: others ∧
      common = zone first ∧
      ∀ record ∈ records, Octets.lower (zone record) = Octets.lower common := by
  cases records with
  | nil => simp [commonZone]
  | cons first others =>
    have alike : (others.all fun record => (zone record).eqIgnoringCase (zone first)) = true ↔
        ∀ record ∈ first :: others, Octets.lower (zone record) = Octets.lower (zone first) := by
      rw [List.all_eq_true, List.forall_mem_cons]
      simp only [Octets.eqIgnoringCase_iff, true_and]
    rw [commonZone]
    -- the first record agrees with itself, so the test of the others is a test of all
    constructor
    · intro returned
      split at returned
      next same =>
        cases returned
        exact ⟨first, others, rfl, rfl, alike.mp same⟩
      · cases returned
    · rintro ⟨first', others', list, rfl, same⟩
      obtain ⟨rfl, rfl⟩ := List.cons.inj list
      rw [if_pos (alike.mpr same)]

theorem exists_commonZone {zoneText : Octets} (nonempty : records ≠ [])
    (zones : ∀ record ∈ records, Octets.lower (zone record) = Octets.lower zoneText) :
    ∃ common, commonZone records = .ok common ∧ Octets.lower common = Octets.lower zoneText := by
  obtain ⟨first, others, rfl⟩ := List.exists_cons_of_ne_nil nonempty
  have here := zones first List.mem_cons_self
  refine ⟨zone first, commonZone_eq_ok_iff.mpr ⟨first, others, rfl, rfl, ?_⟩, here⟩
  intro record member
  exact (zones record member).trans here.symm

theorem commonZone_eq_error {failure : DenialError} (failed : commonZone records = .error failure) :
    failure = if records.isEmpty then .missingCoverage else .mismatch := by
  cases records with
  | nil =>
    cases failed
    rfl
  | cons first others =>
    rw [commonZone] at failed
    split at failed <;> cases failed
    rfl

theorem not_answers_iff {found : List RRType} {type : RRType} :
    ¬ answers found type = true ↔ type ∉ found ∧ RRType.cname ∉ found := by
  simp [answers]

theorem forM_eq_ok_iff {α ε : Type} {step : α → Except ε Unit} {items : List α} :
    items.forM step = .ok () ↔ ∀ item ∈ items, step item = .ok () := by
  rw [List.forM_eq_forM]
  induction items with
  | nil => simp [pure, Except.pure]
  | cons item items ih =>
    rw [List.forM_cons, bind_eq_ok_iff, Unique.exists_iff, PUnit.default_eq_unit, ih,
      List.forall_mem_cons]

variable [BEq ρ] {question : Question} {name wildcard : Name}

theorem ensureUnmatched_eq_ok_iff :
    ensureUnmatched name records = .ok () ↔
      findMatching name records = .error .missingCoverage := by
  unfold ensureUnmatched
  split
  next found matched => simp [matched]
  next missing => simp [missing]
  next failure other failed => simpa [failed] using other

theorem verifyOptOut_eq_ok_iff :
    verifyOptOut name records = .ok () ↔ ∃ encloser, Encloses records name encloser ∧
      ∃ coverage, findCoverer encloser.nextCloser records = .ok coverage ∧
        coverage.optOut = true := by
  simp only [verifyOptOut, bind_eq_ok_iff, requireEncloser_eq_ok_iff, ensure_eq_ok_iff]

/-! ## Verdicts at a name -/

/-- A verdict that depends on the types at a name, and on something else if no record matches the
name. -/
def verdictAt (name : Name) (records : List ρ) (recorded : List RRType → Except DenialError Unit)
    (unrecorded : Except DenialError Unit) : Except DenialError Unit := do
  let _ ← commonZone records
  match findMatching name records with
  | .ok types => recorded types
  | .error .missingCoverage => unrecorded
  | .error failure => .error failure

/-- What no data asks of the types at a name. -/
def lacksType (type : RRType) (types : List RRType) : Except DenialError Unit :=
  ensure (¬ answers types type) .typeExists

/-- What an unsigned delegation asks of the types at a name. -/
def delegatesUnsigned (types : List RRType) : Except DenialError Unit := do
  ensure (¬ types.contains RRType.ds ∧ ¬ types.contains RRType.soa) .badDelegation
  ensure (types.contains RRType.ns) .nsMissing

theorem verifyNoData_eq_verdictAt (question : Question) (records : List ρ) :
    verifyNoData question records = verdictAt question.name records (lacksType question.type)
      (if question.type = RRType.ds then verifyOptOut question.name records
        else .error .missingCoverage) :=
  rfl

theorem verifyDelegation_eq_verdictAt (name : Name) (records : List ρ) :
    verifyDelegation name records =
      verdictAt name records delegatesUnsigned (verifyOptOut name records) :=
  rfl

section VerdictAt

variable {recorded : List RRType → Except DenialError Unit} {unrecorded : Except DenialError Unit}

theorem verdictAt_of_missing (missing : findMatching name records = .error .missingCoverage) :
    verdictAt name records recorded unrecorded = (commonZone records >>= fun _ => unrecorded) := by
  rw [verdictAt, missing]

theorem verdictAt_eq_ok_iff :
    verdictAt name records recorded unrecorded = .ok () ↔
      (∃ common, commonZone records = .ok common) ∧
      ((∃ found, findMatching name records = .ok found ∧ recorded found = .ok ()) ∨
        (findMatching name records = .error .missingCoverage ∧ unrecorded = .ok ())) := by
  simp only [verdictAt, bind_eq_ok_iff, exists_and_right]
  refine and_congr_right fun _ => ?_
  -- what is found at the name tells which half of the condition is meant
  split
  next found matched => simp [matched]
  next missing => simp [missing]
  next failure other failed =>
    have absent : failure ≠ .missingCoverage := other
    simp [failed, absent]

end VerdictAt

theorem lacksType_eq_ok_iff {type : RRType} {types : List RRType} :
    lacksType type types = .ok () ↔ type ∉ types ∧ RRType.cname ∉ types := by
  rw [lacksType, ensure_eq_ok_iff, not_answers_iff]

theorem delegatesUnsigned_eq_ok_iff {types : List RRType} : delegatesUnsigned types = .ok () ↔
    RRType.ds ∉ types ∧ RRType.soa ∉ types ∧ RRType.ns ∈ types := by
  simp [delegatesUnsigned, bind_eq_ok_iff, Unique.exists_iff, and_assoc]

/-! ## The verifiers -/

theorem verifyNameError_eq_ok_iff :
    verifyNameError question records = .ok () ↔ (∃ common, commonZone records = .ok common) ∧
      ∃ encloser, Encloses records question.name encloser ∧ encloser.closest ≠ question.name ∧
        ∃ wildcard, encloser.closest.wildcardChild? = some wildcard ∧
          ∃ coverage, findCoverer wildcard records = .ok coverage := by
  simp only [verifyNameError, bind_eq_ok_iff, requireEncloser_eq_ok_iff, Unique.exists_iff,
    PUnit.default_eq_unit, ensure_eq_ok_iff, valueOr_eq_ok_iff, pure, Except.pure, and_true,
    exists_and_right]

theorem verifyNoData_eq_ok_iff :
    verifyNoData question records = .ok () ↔ (∃ common, commonZone records = .ok common) ∧
      ((∃ found, findMatching question.name records = .ok found ∧
          question.type ∉ found ∧ RRType.cname ∉ found) ∨
        (findMatching question.name records = .error .missingCoverage ∧
          question.type = RRType.ds ∧ verifyOptOut question.name records = .ok ())) := by
  rw [verifyNoData_eq_verdictAt, verdictAt_eq_ok_iff]
  by_cases signer : question.type = RRType.ds <;> simp [lacksType_eq_ok_iff, signer]

theorem verifyDelegation_eq_ok_iff :
    verifyDelegation name records = .ok () ↔ (∃ common, commonZone records = .ok common) ∧
      ((∃ found, findMatching name records = .ok found ∧
          RRType.ds ∉ found ∧ RRType.soa ∉ found ∧ RRType.ns ∈ found) ∨
        (findMatching name records = .error .missingCoverage ∧
          verifyOptOut name records = .ok ())) := by
  simp only [verifyDelegation_eq_verdictAt, verdictAt_eq_ok_iff, delegatesUnsigned_eq_ok_iff]

theorem verifyWildcardNoData_eq_ok_iff :
    verifyWildcardNoData question records = .ok () ↔
      (∃ common, commonZone records = .ok common) ∧
      ∃ encloser, Encloses records question.name encloser ∧ encloser.closest ≠ question.name ∧
        (∃ coverage, findCoverer encloser.nextCloser records = .ok coverage) ∧
        ∃ wildcard, encloser.closest.wildcardChild? = some wildcard ∧
          ∃ found, findMatching wildcard records = .ok found ∧
            question.type ∉ found ∧ RRType.cname ∉ found := by
  simp only [verifyWildcardNoData, bind_eq_ok_iff, requireEncloser_eq_ok_iff, Unique.exists_iff,
    PUnit.default_eq_unit, ensure_eq_ok_iff, valueOr_eq_ok_iff, not_answers_iff, exists_and_right]

/-- The names that the verifier asks about are the suffixes longer than the parent of the
wildcard, and the shortest of them is the next closer name. -/
theorem verifyWildcardAnswer_eq_ok_iff :
    verifyWildcardAnswer question wildcard records = .ok () ↔
      ∃ common, commonZone records = .ok common ∧
      ∃ encloser : Name, encloser.wildcardChild? = some wildcard ∧ encloser.inZone common = true ∧
        question.name.inZone encloser.text = true ∧
        encloser.labelCount < question.name.labelCount ∧
        (∀ closer ∈ question.name.suffixes, encloser.labelCount < closer.labelCount →
          findMatching closer records = .error .missingCoverage) ∧
        ∃ nextCloser ∈ question.name.suffixes,
          nextCloser.labelCount = encloser.labelCount + 1 ∧
          ∃ coverage, findCoverer nextCloser records = .ok coverage := by
  simp only [verifyWildcardAnswer, bind_eq_ok_iff, Unique.exists_iff, PUnit.default_eq_unit,
    ensure_eq_ok_iff, valueOr_eq_ok_iff, forM_eq_ok_iff, ensureUnmatched_eq_ok_iff, pure,
    Except.pure, and_true]
  refine exists_congr fun common => and_congr_right fun _ => ?_
  rw [← exists_and_left]
  refine exists_congr fun encloser => ?_
  rw [← and_assoc, Name.isWildcard_and_parent?_iff]
  refine and_congr_right fun _ => ?_
  simp only [and_assoc]
  refine and_congr_right fun _ => and_congr_right fun _ => and_congr_right fun below => ?_
  -- the names taken are the suffixes with more labels than the encloser
  have counts {closer : Name} :
      question.name.labelCount < closer.labelCount +
        (question.name.labelCount - encloser.labelCount) ↔
      encloser.labelCount < closer.labelCount := by
    omega
  simp only [Name.mem_take_suffixes_iff, counts, and_imp]
  refine and_congr_right fun _ => ?_
  have within : question.name.labelCount - encloser.labelCount ≤ question.name.labelCount :=
    Nat.sub_le _ _
  obtain ⟨last, member, found, lastCount⟩ :=
    Name.exists_getLast_take_suffixes (Nat.sub_pos_of_lt below) within
  rw [found]
  constructor
  · rintro ⟨_, same, covered⟩
    cases same
    exact ⟨last, member, by omega, covered⟩
  · rintro ⟨nextCloser, inside, count, covered⟩
    have same : nextCloser = last := Name.eq_of_labelCount_eq inside member (by omega)
    exact ⟨nextCloser, by rw [same], covered⟩

end HashedDenial
