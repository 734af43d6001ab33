import HashedDenial.Proofs.Denial.Agreement
import HashedDenial.Proofs.Denial.PlainRecord
import HashedDenial.Proofs.Name.Walk

/-!
# What the search for the closest encloser finds

The suffixes of a name are tried from the longest on, and the first that some record matches decides
the search: it is the closest encloser if the records that match it agree, and an ambiguity if they
do not. The suffixes after it are never looked at.
-/
namespace HashedDenial

open DenialRecord

variable {ρ : Type} [DenialRecord ρ] {records : List ρ} {name : Name}

/-- Whether a name is the longest suffix of another that some record matches. -/
structure LongestMatched (records : List ρ) (name longest : Name) : Prop where
  mem_suffixes : longest ∈ name.suffixes
  matched : Matched records longest
  unmatched : ∀ longer ∈ name.suffixes, longest.labelCount < longer.labelCount →
    ¬ Matched records longer

/-- Whether a name is the next closer one: the name itself if that is the closest encloser, and
otherwise the suffix below the closest encloser, which no record matches. -/
def IsNextCloser (records : List ρ) (name closest nextCloser : Name) : Prop :=
  if closest = name then nextCloser = name
  else nextCloser ∈ name.suffixes ∧ nextCloser.parent? = some closest ∧ ¬ Matched records nextCloser

instance (records : List ρ) (name closest nextCloser : Name) :
    Decidable (IsNextCloser records name closest nextCloser) :=
  inferInstanceAs (Decidable (ite _ _ _))

theorem isNextCloser_iff {closest nextCloser : Name} (member : closest ∈ name.suffixes)
    (unmatched : ∀ longer ∈ name.suffixes, closest.labelCount < longer.labelCount →
      ¬ Matched records longer) :
    IsNextCloser records name closest nextCloser ↔ nextCloser ∈ name.suffixes ∧
      nextCloser.labelCount = min name.labelCount (closest.labelCount + 1) := by
  rw [IsNextCloser]
  split
  next same =>
    -- no suffix is longer than the name, which is thus the only one that counts as its next closer
    subst same
    constructor
    · rintro rfl
      exact ⟨member, by omega⟩
    · intro ⟨inside, count⟩
      exact Name.eq_self_of_labelCount_eq inside (by omega)
  next proper =>
    have shorter := Name.labelCount_lt_of_ne member proper
    constructor
    · intro ⟨inside, parent, _⟩
      have count := (Name.parent?_eq_some_iff_mem_suffixes.mp parent).2
      exact ⟨inside, by omega⟩
    · intro ⟨inside, count⟩
      have below : nextCloser.labelCount = closest.labelCount + 1 := by omega
      have above := Name.mem_suffixes_of_le member inside (by omega)
      exact ⟨inside, Name.parent?_eq_some_iff_mem_suffixes.mpr ⟨above, below⟩,
        unmatched nextCloser inside (by omega)⟩

variable [BEq ρ]

/-! ## Searches that fail -/

/-- The search fails at the first name that is not passed over, and as that name does. -/
theorem firstMatched_eq_error_iff {before : Name} {names : List Name} {failure : DenialError} :
    firstMatched records before names = .error failure ↔ failure ≠ .missingCoverage ∧
      StopsAt (fun name => findMatching name records = .error .missingCoverage)
        (fun name => findMatching name records = .error failure) names := by
  induction names generalizing before with
  | nil => simp [firstMatched]
  | cons name names ih =>
    rw [firstMatched, stopsAt_cons_iff]
    split
    next found matched => simp [matched]
    next missing =>
      -- a missing record is no failure of the search, which goes on
      rw [ih]
      refine and_congr_right fun other => ?_
      simp [missing, other.symm]
    next failure' other failed =>
      have absent : failure' ≠ .missingCoverage := other
      simp only [failed, Except.error.injEq, absent, false_and, or_false]
      constructor
      · rintro rfl
        exact ⟨absent, rfl⟩
      · exact And.right

section Agreement

variable [PartialEquivBEq ρ]

/-- Records that disagree about a name match it. -/
theorem Matched.of_not_agree (disagree : ¬ MatchesAgree records name) : Matched records name := by
  by_contra absent
  have missing := findMatching_eq_missing_iff_not_matched.mpr absent
  cases missing.symm.trans (findMatching_eq_multiple_iff.mpr disagree)

theorem findClosestEncloser_eq_error_iff {failure : DenialError} :
    findClosestEncloser name records = .error failure ↔ failure = .multipleCoverage ∧
      ∃ longest, LongestMatched records name longest ∧ ¬ MatchesAgree records longest := by
  rw [findClosestEncloser, firstMatched_eq_error_iff, Name.stopsAt_suffixes_iff]
  simp only [findMatching_eq_missing_iff_not_matched]
  constructor
  · intro ⟨other, longest, member, failed, unmatched⟩
    obtain rfl := (findMatching_eq_error failed).resolve_left other
    have disagree := findMatching_eq_multiple_iff.mp failed
    exact ⟨rfl, longest, ⟨member, .of_not_agree disagree, unmatched⟩, disagree⟩
  · rintro ⟨rfl, longest, ⟨member, _, unmatched⟩, disagree⟩
    exact ⟨by simp, longest, member, findMatching_eq_multiple_iff.mpr disagree, unmatched⟩

/-! ## Searches that succeed -/

theorem encloses_iff_longestMatched {encloser : Encloser} :
    Encloses records name encloser ↔ LongestMatched records name encloser.closest ∧
      MatchesAgree records encloser.closest ∧
      IsNextCloser records name encloser.closest encloser.nextCloser := by
  constructor
  · intro encloses
    obtain ⟨matched, agree⟩ := exists_findMatching_iff.mp encloses.matched
    have unmatched : ∀ longer ∈ name.suffixes, encloser.closest.labelCount < longer.labelCount →
        ¬ Matched records longer := by
      intro longer inside count
      exact findMatching_eq_missing_iff_not_matched.mp (encloses.unmatched longer inside count)
    exact ⟨⟨encloses.closest_mem, matched, unmatched⟩, agree,
      (isNextCloser_iff encloses.closest_mem unmatched).mpr
        ⟨encloses.nextCloser_mem, encloses.nextCloser_count⟩⟩
  · intro ⟨longest, agree, next⟩
    obtain ⟨inside, count⟩ := (isNextCloser_iff longest.mem_suffixes longest.unmatched).mp next
    refine ⟨longest.mem_suffixes, exists_findMatching_iff.mpr ⟨longest.matched, agree⟩, ?_, inside,
      count⟩
    intro longer member above
    exact findMatching_eq_missing_iff_not_matched.mpr (longest.unmatched longer member above)

end Agreement

/-! ## All searches -/

/-- The search finds nothing exactly if no suffix is matched. Otherwise the longest matched suffix
decides: records that disagree about it are the only way to fail, and if they agree the search
returns it together with the next closer name. Records that match shorter suffixes have no say. -/
theorem findClosestEncloser_exact [PartialEquivBEq ρ] (records : List ρ) (name : Name) :
    (findClosestEncloser name records = .ok none ↔
      ∀ suffix ∈ name.suffixes, ¬ Matched records suffix) ∧
    (∀ failure, findClosestEncloser name records = .error failure ↔
      failure = .multipleCoverage ∧
        ∃ longest, LongestMatched records name longest ∧ ¬ MatchesAgree records longest) ∧
    ∀ closest nextCloser, findClosestEncloser name records = .ok (some ⟨closest, nextCloser⟩) ↔
      LongestMatched records name closest ∧ MatchesAgree records closest ∧
        IsNextCloser records name closest nextCloser := by
  refine ⟨?_, fun failure => findClosestEncloser_eq_error_iff, fun closest nextCloser => ?_⟩
  · rw [findClosestEncloser_eq_none_iff]
    simp only [findMatching_eq_missing_iff_not_matched]
  · rw [findClosestEncloser_eq_some_iff, encloses_iff_longestMatched]

namespace Sample

/-- Records that disagree about the apex and agree about `n.e.` below it. -/
def disagreeing : List PlainRecord :=
  [.matching apex apex [RRType.soa], .matching apex missing [RRType.ns], .matching apex apex []]

end Sample

/-- The disagreement about `e.` ends the search for `h.e.`, but not that for `h.n.e.`, which stops
before it gets there. -/
theorem findClosestEncloser_exact_disagreeing :
    findClosestEncloser Sample.belowMissing Sample.disagreeing =
        .ok (some ⟨Sample.missing, Sample.belowMissing⟩) ∧
      findClosestEncloser Sample.host Sample.disagreeing = .error .multipleCoverage := by
  obtain ⟨_, _, found⟩ := findClosestEncloser_exact Sample.disagreeing Sample.belowMissing
  obtain ⟨_, failed, _⟩ := findClosestEncloser_exact Sample.disagreeing Sample.host
  constructor
  · apply (found _ _).mpr
    exact ⟨⟨by decide, by decide, by decide⟩, by decide, by decide⟩
  · apply (failed _).mpr
    exact ⟨rfl, Sample.apex, ⟨by decide, by decide, by decide⟩, by decide⟩

end HashedDenial
