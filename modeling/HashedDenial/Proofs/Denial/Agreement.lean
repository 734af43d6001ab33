import HashedDenial.Proofs.Denial.Finders
import Mathlib.Data.List.Pairwise

/-!
# Records that agree about a name

A finder compares the first record that meets its condition with the later ones only. Comparing is
symmetric and transitive, so this settles whether any two of the records differ, and a finder fails
in two ways: no record meets the condition, or two that meet it compare unequal.
-/
namespace HashedDenial

open DenialRecord

variable {ρ : Type}

/-- Whether some record matches a name. -/
def Matched [DenialRecord ρ] (records : List ρ) (name : Name) : Prop :=
  ∃ record ∈ records, matchesName record name = true

instance [DenialRecord ρ] (records : List ρ) (name : Name) : Decidable (Matched records name) :=
  inferInstanceAs (Decidable (∃ record ∈ records, matchesName record name = true))

variable [BEq ρ] {records : List ρ}

/-! ## Single records -/

/-- Whether any two of the records that meet a condition compare equal. -/
def Agree (condition : ρ → Bool) (records : List ρ) : Prop :=
  (records.filter condition).Pairwise fun left right => (left == right) = true

instance (condition : ρ → Bool) (records : List ρ) : Decidable (Agree condition records) :=
  inferInstanceAs (Decidable (List.Pairwise _ _))

theorem pairwise_beq_iff [PartialEquivBEq ρ] {first : ρ} {others : List ρ} :
    (first :: others).Pairwise (fun left right => (left == right) = true) ↔
      others.any (· != first) = false := by
  rw [any_bne_eq_false_iff, List.pairwise_cons]
  constructor
  · intro ⟨equal, _⟩ other later
    exact BEq.symm (equal other later)
  · intro equal
    constructor
    · intro other later
      exact BEq.symm (equal other later)
    · -- two later records are equal because both equal the first
      apply List.pairwise_of_forall_mem_list
      intro left later right later'
      exact BEq.trans (equal left later) (BEq.symm (equal right later'))

theorem soleRecord_eq_multiple_iff [PartialEquivBEq ρ] {condition : ρ → Bool} :
    soleRecord condition records = .error .multipleCoverage ↔ ¬ Agree condition records := by
  unfold soleRecord Agree
  split
  next hits => simp [hits]
  next first others hits =>
    rw [hits, pairwise_beq_iff]
    split
    next differ => simp [differ]
    next alike => simp [alike]

/-- No failure of a finder but these two. -/
theorem soleRecord_eq_error {condition : ρ → Bool} {failure : DenialError}
    (failed : soleRecord condition records = .error failure) :
    failure = .missingCoverage ∨ failure = .multipleCoverage := by
  unfold soleRecord at failed
  split at failed
  · cases failed
    exact Or.inl rfl
  · split at failed
    · cases failed
      exact Or.inr rfl
    · cases failed

theorem exists_soleRecord_iff [PartialEquivBEq ρ] {condition : ρ → Bool} :
    (∃ record, soleRecord condition records = .ok record) ↔
      (∃ record ∈ records, condition record = true) ∧ Agree condition records := by
  constructor
  · intro ⟨record, found⟩
    refine ⟨⟨record, soleRecord_eq_ok found⟩, ?_⟩
    by_contra differ
    cases found.symm.trans (soleRecord_eq_multiple_iff.mpr differ)
  · intro ⟨⟨record, member, holds⟩, agree⟩
    cases found : soleRecord condition records with
    | ok record => exact ⟨record, rfl⟩
    | error failure =>
      -- neither of the two failures is possible
      rcases soleRecord_eq_error found with rfl | rfl
      · rw [soleRecord_eq_missing_iff.mp found record member] at holds
        cases holds
      · exact absurd agree (soleRecord_eq_multiple_iff.mp found)

theorem Agree.beq_of_ne [PartialEquivBEq ρ] {condition : ρ → Bool} {left right : ρ}
    (agree : Agree condition records) (member : left ∈ records) (holds : condition left = true)
    (member' : right ∈ records) (holds' : condition right = true) (different : left ≠ right) :
    (left == right) = true := by
  have symmetric : Std.Symm fun left right : ρ => (left == right) = true :=
    ⟨fun _ _ equal => BEq.symm equal⟩
  exact agree.forall (List.mem_filter.mpr ⟨member, holds⟩) (List.mem_filter.mpr ⟨member', holds'⟩)
    different

/-! ## The finders -/

variable [DenialRecord ρ] {name : Name}

/-- Whether any two records that match a name compare equal. -/
def MatchesAgree (records : List ρ) (name : Name) : Prop := Agree (matchesName · name) records

instance (records : List ρ) (name : Name) : Decidable (MatchesAgree records name) :=
  inferInstanceAs (Decidable (Agree _ _))

/-- Whether any two records that cover a name compare equal. -/
def CoversAgree (records : List ρ) (name : Name) : Prop := Agree (coversName · name) records

instance (records : List ρ) (name : Name) : Decidable (CoversAgree records name) :=
  inferInstanceAs (Decidable (Agree _ _))

theorem findMatching_eq_missing_iff_not_matched :
    findMatching name records = .error .missingCoverage ↔ ¬ Matched records name := by
  rw [findMatching_eq_missing_iff, Matched]
  simp

theorem findMatching_eq_multiple_iff [PartialEquivBEq ρ] :
    findMatching name records = .error .multipleCoverage ↔ ¬ MatchesAgree records name :=
  map_eq_error_iff.trans soleRecord_eq_multiple_iff

theorem findMatching_eq_error {failure : DenialError}
    (failed : findMatching name records = .error failure) :
    failure = .missingCoverage ∨ failure = .multipleCoverage :=
  soleRecord_eq_error (map_eq_error_iff.mp failed)

theorem findCoverer_eq_error {failure : DenialError}
    (failed : findCoverer name records = .error failure) :
    failure = .missingCoverage ∨ failure = .multipleCoverage :=
  soleRecord_eq_error (map_eq_error_iff.mp failed)

theorem exists_findMatching_iff [PartialEquivBEq ρ] :
    (∃ found, findMatching name records = .ok found) ↔
      Matched records name ∧ MatchesAgree records name := by
  rw [Matched, MatchesAgree, ← exists_soleRecord_iff]
  simp only [findMatching, map_eq_ok_iff]
  constructor
  · intro ⟨_, record, found, _⟩
    exact ⟨record, found⟩
  · intro ⟨record, found⟩
    exact ⟨_, record, found, rfl⟩

end HashedDenial
