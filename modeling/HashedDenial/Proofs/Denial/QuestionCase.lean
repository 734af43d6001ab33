import HashedDenial.Proofs.Denial.Ambiguity
import HashedDenial.Proofs.Denial.Exclusion
import HashedDenial.Proofs.Name.Case

/-!
# The case of a question

A question may spell its name in any case, and so may the wildcard that an answer came from. Where
the records do not see the case, the finders return the same for all spellings, the encloser is
found in the spelling of the question, and every verdict is the one on the lowered question.
-/
namespace HashedDenial

open DenialRecord

/-- Records that say the same of a name in every case. -/
class CaselessRecord (ρ : Type) [DenialRecord ρ] : Prop where
  matchesName_canonical (record : ρ) (name : Name) :
    matchesName record name.canonical = matchesName record name
  coversName_canonical (record : ρ) (name : Name) :
    coversName record name.canonical = coversName record name

/-! ## Lowered questions -/

def Question.canonical (question : Question) : Question := ⟨question.name.canonical, question.type⟩

def Encloser.canonical (encloser : Encloser) : Encloser :=
  ⟨encloser.closest.canonical, encloser.nextCloser.canonical⟩

/-- The kind of proof with the wildcard of an answer lowered. -/
def ProofKind.canonical : ProofKind → ProofKind
  | wildcardAnswer wildcard => wildcardAnswer wildcard.canonical
  | kind => kind

/-! ## Computations that may fail -/

section Except

variable {ε α β γ : Type}

/-- The law of lawful monads, for the map in which the finders are written. -/
theorem except_map_bind {computed : Except ε α} {f : α → β} {next : β → Except ε γ} :
    (computed.map f >>= next) = (computed >>= fun value => next (f value)) :=
  bind_map_left f computed next

theorem valueOr_map {found : Option α} {f : α → β} {failure : DenialError} :
    valueOr failure (found.map f) = (valueOr failure found).map f := by
  cases found <;> rfl

theorem ensure_congr {left right : Prop} [Decidable left] [Decidable right] {failure : DenialError}
    (same : left ↔ right) : ensure left failure = ensure right failure := by
  simp [ensure, same]

end Except

variable {ρ : Type} [DenialRecord ρ] [CaselessRecord ρ] [BEq ρ]

/-! ## The finders -/

@[simp] theorem findMatching_canonical (name : Name) (records : List ρ) :
    findMatching name.canonical records = findMatching name records := by
  simp only [findMatching, CaselessRecord.matchesName_canonical]

@[simp] theorem findCoverer_canonical (name : Name) (records : List ρ) :
    findCoverer name.canonical records = findCoverer name records := by
  simp only [findCoverer, CaselessRecord.coversName_canonical]

theorem firstMatched_canonical (records : List ρ) (before : Name) (names : List Name) :
    firstMatched records before.canonical (names.map Name.canonical) =
      (firstMatched records before names).map (Option.map Encloser.canonical) := by
  induction names generalizing before with
  | nil => rfl
  | cons name names ih =>
    rw [List.map_cons, firstMatched, firstMatched, findMatching_canonical]
    -- the search stops at the same suffix, and only what it returns is spelled differently
    split
    · rfl
    · exact ih name
    · rfl

/-- The search takes the same steps for every spelling and returns names in the one it was given. -/
theorem findClosestEncloser_canonical (name : Name) (records : List ρ) :
    findClosestEncloser name.canonical records =
      (findClosestEncloser name records).map (Option.map Encloser.canonical) := by
  rw [findClosestEncloser, Name.suffixes_canonical, firstMatched_canonical, findClosestEncloser]

theorem requireEncloser_canonical (name : Name) (records : List ρ) :
    requireEncloser name.canonical records =
      (requireEncloser name records).map Encloser.canonical := by
  rw [requireEncloser, requireEncloser, findClosestEncloser_canonical, except_map_bind]
  cases findClosestEncloser name records with
  | error failure => rfl
  | ok found => exact valueOr_map

/-- What follows the search depends on the spelling only through the encloser. -/
theorem requireEncloser_bind_canonical {name : Name} {records : List ρ} {γ : Type}
    {next next' : Encloser → Except DenialError γ}
    (same : ∀ encloser, Encloses records name encloser →
      next encloser.canonical = next' encloser) :
    (requireEncloser name.canonical records >>= next) =
      (requireEncloser name records >>= next') := by
  rw [requireEncloser_canonical, except_map_bind]
  refine bind_congr_of_ok fun encloser found => ?_
  exact same encloser (requireEncloser_eq_ok_iff.mp found)

omit [CaselessRecord ρ] in
/-- Only the name itself has its number of labels among the suffixes, whatever the case. -/
theorem Encloses.canonical_ne_iff {records : List ρ} {name : Name} {encloser : Encloser}
    (encloses : Encloses records name encloser) :
    encloser.canonical.closest ≠ name.canonical ↔ encloser.closest ≠ name := by
  refine not_congr ⟨fun same => ?_, fun same => ?_⟩
  · have count := Name.labelCount_eq_of_canonical_eq same
    exact Name.eq_self_of_labelCount_eq encloses.closest_mem count
  · rw [← same]
    rfl

/-! ## The verifiers -/

theorem ensureUnmatched_canonical (name : Name) (records : List ρ) :
    ensureUnmatched name.canonical records = ensureUnmatched name records := by
  rw [ensureUnmatched, ensureUnmatched, findMatching_canonical]

theorem verifyOptOut_canonical (name : Name) (records : List ρ) :
    verifyOptOut name.canonical records = verifyOptOut name records := by
  refine requireEncloser_bind_canonical fun encloser _ => ?_
  simp only [Encloser.canonical, findCoverer_canonical]

theorem verifyDelegation_canonical (name : Name) (records : List ρ) :
    verifyDelegation name.canonical records = verifyDelegation name records := by
  rw [verifyDelegation, verifyDelegation, findMatching_canonical, verifyOptOut_canonical]

theorem verifyNoData_canonical (question : Question) (records : List ρ) :
    verifyNoData question.canonical records = verifyNoData question records := by
  rw [verifyNoData, verifyNoData, Question.canonical, findMatching_canonical,
    verifyOptOut_canonical]

theorem verifyNameError_canonical (question : Question) (records : List ρ) :
    verifyNameError question.canonical records = verifyNameError question records := by
  refine bind_congr_of_ok fun _ _ => requireEncloser_bind_canonical fun encloser encloses => ?_
  rw [Question.canonical, ensure_congr encloses.canonical_ne_iff]
  simp only [Encloser.canonical, Name.wildcardChild?_map_canonical, valueOr_map, except_map_bind,
    findCoverer_canonical]

theorem verifyWildcardNoData_canonical (question : Question) (records : List ρ) :
    verifyWildcardNoData question.canonical records = verifyWildcardNoData question records := by
  refine bind_congr_of_ok fun _ _ => requireEncloser_bind_canonical fun encloser encloses => ?_
  rw [Question.canonical, ensure_congr encloses.canonical_ne_iff]
  simp only [Encloser.canonical, Name.wildcardChild?_map_canonical, valueOr_map, except_map_bind,
    findCoverer_canonical, findMatching_canonical]

theorem verifyWildcardAnswer_canonical (question : Question) (wildcard : Name) (records : List ρ) :
    verifyWildcardAnswer question.canonical wildcard.canonical records =
      verifyWildcardAnswer question wildcard records := by
  refine bind_congr_of_ok fun common _ => ?_
  rw [Name.isWildcard_canonical, Name.parent?_canonical, valueOr_map, except_map_bind]
  refine bind_congr_of_ok fun _ _ => bind_congr_of_ok fun encloser _ => ?_
  -- the conditions on the encloser do not see the case
  have below : question.name.canonical.inZone encloser.canonical.text =
      question.name.inZone encloser.text :=
    Name.inZone_congr question.name.canonical_canonical
      (by rw [Name.text_canonical, Octets.lower_lower])
  simp only [Question.canonical, Name.inZone_canonical, below, Name.labelCount_canonical,
    Name.suffixes_canonical, ← List.map_take, List.forM_eq_forM, List.forM_map,
    ensureUnmatched_canonical, List.getLast?_map, valueOr_map, except_map_bind,
    findCoverer_canonical]

/-- Every verdict is the one on the lowered question. -/
theorem verify_canonical (kind : ProofKind) (question : Question) (records : List ρ) :
    kind.canonical.verify question.canonical records = kind.verify question records := by
  cases kind with
  | nameError => exact verifyNameError_canonical question records
  | noData => exact verifyNoData_canonical question records
  | delegation => exact verifyDelegation_canonical question.name records
  | wildcardNoData => exact verifyWildcardNoData_canonical question records
  | wildcardAnswer wildcard => exact verifyWildcardAnswer_canonical question wildcard records

/-! ## Records with hashed owners -/

namespace Nsec3

theorem hashes?_canonical (record : Nsec3) (name : Name) :
    record.hashes? name.canonical = record.hashes? name := by
  rw [hashes?, hashes?, Name.inZone_canonical, HashParams.hash?_congr name.wire_canonical]

/-- Names are hashed in lower case, and the zone test does not see the case. -/
instance : CaselessRecord Nsec3 where
  matchesName_canonical record name :=
    congrArg (Option.any _) (record.hashes?_canonical name)
  coversName_canonical record name :=
    congrArg (Option.any _) (record.hashes?_canonical name)

variable {records : List Nsec3} {name other : Name}

/-- Two spellings of a name are answered alike by the finders and by every verifier, errors
included. The enclosers found are equal up to case, and each is a suffix of the name as it was
given. -/
theorem spellings_answered_alike (same : name.canonical = other.canonical) :
    findMatching name records = findMatching other records ∧
      findCoverer name records = findCoverer other records ∧
      (findClosestEncloser name records).map (Option.map Encloser.canonical) =
        (findClosestEncloser other records).map (Option.map Encloser.canonical) ∧
      (∀ encloser, findClosestEncloser name records = .ok (some encloser) →
        encloser.closest ∈ name.suffixes ∧ encloser.nextCloser ∈ name.suffixes) ∧
      ∀ (kind kind' : ProofKind) (type : RRType), kind.canonical = kind'.canonical →
        kind.verify ⟨name, type⟩ records = kind'.verify ⟨other, type⟩ records := by
  refine ⟨?_, ?_, ?_, ?_, ?_⟩
  · rw [← findMatching_canonical name, same, findMatching_canonical]
  · rw [← findCoverer_canonical name, same, findCoverer_canonical]
  · rw [← findClosestEncloser_canonical, same, findClosestEncloser_canonical]
  · intro encloser found
    have encloses := findClosestEncloser_eq_some_iff.mp found
    exact ⟨encloses.closest_mem, encloses.nextCloser_mem⟩
  · -- both questions have the verdict of the lowered one
    intro kind kind' type sameKind
    have lowered : Question.canonical ⟨name, type⟩ = Question.canonical ⟨other, type⟩ :=
      congrArg (Question.mk · type) same
    rw [← verify_canonical kind, sameKind, lowered, verify_canonical]

end Nsec3

/-- The records deny a type at `E.` because they do at `e.`, and the wildcard of an answer may be
spelled either way. -/
theorem Nsec3.spellings_answered_alike_capital :
    Sample.capitalApex.canonical = Sample.apex.canonical ∧
      verifyNoData ⟨Sample.capitalApex, RRType.soa⟩ Sample.repeatedRecords = .ok () ∧
      verifyWildcardAnswer ⟨Sample.capitalApex, RRType.soa⟩ Sample.wildcard
          Sample.repeatedRecords =
        verifyWildcardAnswer ⟨Sample.apex, RRType.soa⟩ Sample.capitalWildcard
          Sample.repeatedRecords := by
  have same : Sample.capitalApex.canonical = Sample.apex.canonical := by decide
  obtain ⟨_, _, _, _, alike⟩ := @spellings_answered_alike Sample.repeatedRecords _ _ same
  refine ⟨same, ?_, alike (.wildcardAnswer Sample.wildcard) (.wildcardAnswer Sample.capitalWildcard)
    RRType.soa (by decide)⟩
  exact (alike .noData .noData RRType.soa rfl).trans Sample.verify_noData_repeatedRecords

end HashedDenial
