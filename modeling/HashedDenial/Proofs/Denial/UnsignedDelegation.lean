import HashedDenial.Proofs.Denial.Mismatch
import HashedDenial.Proofs.Denial.OptOut

/-!
# Two ways to learn that a delegation is unsigned

That a name has no delegation signer is what the denial of the type and the proof of an unsigned
delegation have in common. Where no record matches the name, both come down to one opt-out span.
Where one does, both read its types, and their answers differ by the types that only one of them
looks at.
-/
namespace HashedDenial

open DenialRecord

variable {ρ : Type} [DenialRecord ρ] [BEq ρ] {records : List ρ} {name : Name}

/-! ## Verdicts at a name -/

/-- Signers are denied by what the other proof asks for too where no record matches the name. -/
theorem verifyNoData_ds_eq_verdictAt (name : Name) (records : List ρ) :
    verifyNoData ⟨name, RRType.ds⟩ records =
      verdictAt name records (lacksType RRType.ds) (verifyOptOut name records) :=
  rfl

section Verdict

variable {recorded : List RRType → Except DenialError Unit} {unrecorded : Except DenialError Unit}

theorem verdictAt_of_not_matched (absent : ¬ Matched records name) :
    verdictAt name records recorded unrecorded = (commonZone records >>= fun _ => unrecorded) :=
  verdictAt_of_missing (findMatching_eq_missing_iff_not_matched.mpr absent)

/-- What would be asked without a record does not show in the verdict on a matched name. -/
theorem verdictAt_of_matched (present : Matched records name)
    (unrecorded' : Except DenialError Unit) :
    verdictAt name records recorded unrecorded = verdictAt name records recorded unrecorded' := by
  rw [verdictAt, verdictAt]
  split
  · rfl
  next missing => exact absurd present (findMatching_eq_missing_iff_not_matched.mp missing)
  · rfl

/-- An accepted verdict on a matched name comes from the types found there, and so does every other
verdict on the name. -/
theorem exists_verdictAt_eq (present : Matched records name)
    (accepted : verdictAt name records recorded unrecorded = .ok ()) :
    ∃ found, findMatching name records = .ok found ∧ recorded found = .ok () ∧
      ∀ recorded' unrecorded', verdictAt name records recorded' unrecorded' = recorded' found := by
  obtain ⟨⟨common, zoned⟩, ⟨found, matched, answered⟩ | ⟨missing, _⟩⟩ :=
    verdictAt_eq_ok_iff.mp accepted
  · refine ⟨found, matched, answered, fun recorded' unrecorded' => ?_⟩
    rw [verdictAt, zoned, matched]
    rfl
  · exact absurd present (findMatching_eq_missing_iff_not_matched.mp missing)

end Verdict

/-! ## Types at the name -/

/-- Without a delegation signer only an alias is in the way of denying the type. -/
theorem lacksType_ds_of_notMem {types : List RRType} (unsigned : RRType.ds ∉ types) :
    lacksType RRType.ds types =
      if RRType.cname ∈ types then .error .typeExists else .ok () := by
  by_cases alias_ : RRType.cname ∈ types <;> simp [lacksType, answers, ensure, unsigned, alias_]

/-- Without a delegation signer only the apex of a zone is a bad delegation. -/
theorem delegatesUnsigned_of_notMem {types : List RRType} (unsigned : RRType.ds ∉ types) :
    delegatesUnsigned types =
      if RRType.soa ∈ types then .error .badDelegation
      else if RRType.ns ∈ types then .ok () else .error .nsMissing := by
  by_cases apex : RRType.soa ∈ types <;> by_cases delegated : RRType.ns ∈ types <;>
    simp [delegatesUnsigned, ensure, bind, Except.bind, unsigned, apex, delegated]

/-! ## Opt-out spans -/

/-- Whether records show that a name lies in an opt-out span: its longest matched suffix is an
ancestor, and the suffix below that is covered, by opt-out records only. Neither name may be one
that the records disagree about. -/
structure ShowsOptOut (records : List ρ) (name closest nextCloser : Name) : Prop where
  longest : LongestMatched records name closest
  matchesAgree : MatchesAgree records closest
  nextCloser_mem : nextCloser ∈ name.suffixes
  parent?_eq : nextCloser.parent? = some closest
  covered : ∃ record ∈ records, coversName record nextCloser = true
  coversAgree : CoversAgree records nextCloser
  flagged : ∀ record ∈ records, coversName record nextCloser = true → optOut record = true

section Spans

variable [PartialEquivBEq ρ]
  (flags : ∀ left right : ρ, (left == right) = true → optOut left = optOut right)

include flags

/-- A finder looks at the flag of one record only, but all that it finds agree. -/
theorem exists_findCoverer_optOut_iff :
    (∃ coverage, findCoverer name records = .ok coverage ∧ coverage.optOut = true) ↔
      (∃ record ∈ records, coversName record name = true) ∧ CoversAgree records name ∧
        ∀ record ∈ records, coversName record name = true → optOut record = true := by
  constructor
  · intro ⟨_, returned, flagged⟩
    obtain ⟨record, sole, rfl⟩ := map_eq_ok_iff.mp returned
    obtain ⟨covered, agree⟩ := exists_soleRecord_iff.mp ⟨record, sole⟩
    obtain ⟨member, covers⟩ := soleRecord_eq_ok sole
    refine ⟨covered, agree, fun other member' covers' => ?_⟩
    by_cases same : other = record
    · rw [same]
      exact flagged
    · rw [flags other record (agree.beq_of_ne member' covers' member covers same)]
      exact flagged
  · intro ⟨covered, agree, flagged⟩
    obtain ⟨record, sole⟩ := exists_soleRecord_iff.mpr ⟨covered, agree⟩
    obtain ⟨member, covers⟩ := soleRecord_eq_ok sole
    exact ⟨_, map_eq_ok_iff.mpr ⟨record, sole, rfl⟩, flagged record member covers⟩

theorem verifyOptOut_eq_ok_iff_showsOptOut (absent : ¬ Matched records name) :
    verifyOptOut name records = .ok () ↔
      ∃ closest nextCloser, ShowsOptOut records name closest nextCloser := by
  rw [verifyOptOut_eq_ok_iff]
  simp only [encloses_iff_longestMatched, exists_findCoverer_optOut_iff flags]
  constructor
  · rintro ⟨⟨closest, nextCloser⟩, ⟨longest, agree, next⟩, covered, agree', flagged⟩
    have proper : closest ≠ name := by
      rintro rfl
      exact absent longest.matched
    rw [IsNextCloser, if_neg proper] at next
    obtain ⟨member, parent, _⟩ := next
    exact ⟨closest, nextCloser, longest, agree, member, parent, covered, agree', flagged⟩
  · rintro ⟨closest, nextCloser, shows⟩
    have proper : closest ≠ name := by
      rintro rfl
      exact absent shows.longest.matched
    have count := (Name.parent?_eq_some_iff_mem_suffixes.mp shows.parent?_eq).2
    have unmatched : ¬ Matched records nextCloser :=
      shows.longest.unmatched nextCloser shows.nextCloser_mem (by omega)
    refine ⟨⟨closest, nextCloser⟩, ⟨shows.longest, shows.matchesAgree, ?_⟩, shows.covered,
      shows.coversAgree, shows.flagged⟩
    rw [IsNextCloser, if_neg proper]
    exact ⟨shows.nextCloser_mem, shows.parent?_eq, unmatched⟩

end Spans

/-! ## Both proofs -/

/-- For a name that no record matches the two proofs have one verdict, and records of one zone
complete them exactly if they show that the name lies in an opt-out span. For a matched name the
types found there decide: an accepted delegation may be an alias, which has no data of any type to
deny, and a name without a delegation signer may be the apex or no delegation at all. -/
theorem unsigned_delegation_verdicts [PartialEquivBEq ρ] (records : List ρ) (name : Name) :
    (¬ Matched records name →
      verifyDelegation name records = verifyNoData ⟨name, RRType.ds⟩ records ∧
      (records ≠ [] → ¬ ZonesDiffer records →
        (∀ left right : ρ, (left == right) = true → optOut left = optOut right) →
          (verifyDelegation name records = .ok () ↔
            ∃ closest nextCloser, ShowsOptOut records name closest nextCloser))) ∧
    (Matched records name →
      (verifyDelegation name records = .ok () →
        ∃ found, findMatching name records = .ok found ∧
          verifyNoData ⟨name, RRType.ds⟩ records =
            if RRType.cname ∈ found then .error .typeExists else .ok ()) ∧
      (verifyNoData ⟨name, RRType.ds⟩ records = .ok () →
        ∃ found, findMatching name records = .ok found ∧
          verifyDelegation name records =
            if RRType.soa ∈ found then .error .badDelegation
            else if RRType.ns ∈ found then .ok () else .error .nsMissing)) := by
  rw [verifyDelegation_eq_verdictAt, verifyNoData_ds_eq_verdictAt]
  constructor
  · intro absent
    rw [verdictAt_of_not_matched absent, verdictAt_of_not_matched absent]
    refine ⟨rfl, fun nonempty alike flags => ?_⟩
    obtain ⟨common, zoned⟩ := exists_commonZone_iff.mpr ⟨nonempty, alike⟩
    rw [zoned]
    exact verifyOptOut_eq_ok_iff_showsOptOut flags absent
  · intro present
    constructor
    · intro accepted
      obtain ⟨found, matched, delegated, verdict⟩ := exists_verdictAt_eq present accepted
      refine ⟨found, matched, ?_⟩
      rw [verdict, lacksType_ds_of_notMem (delegatesUnsigned_eq_ok_iff.mp delegated).1]
    · intro accepted
      obtain ⟨found, matched, denied, verdict⟩ := exists_verdictAt_eq present accepted
      refine ⟨found, matched, ?_⟩
      rw [verdict, delegatesUnsigned_of_notMem (lacksType_eq_ok_iff.mp denied).1]

/-- `h.n.e.` has no record and lies in the opt-out span below `e.` `h.e.` is a delegation without an
alias, and `e.` is the apex. -/
theorem unsigned_delegation_verdicts_optOut :
    verifyDelegation Sample.belowMissing Sample.optOutRecords = .ok () ∧
      verifyNoData ⟨Sample.belowMissing, RRType.ds⟩ Sample.optOutRecords = .ok () ∧
      verifyNoData ⟨Sample.host, RRType.ds⟩ Sample.optOutRecords = .ok () ∧
      verifyDelegation Sample.apex Sample.optOutRecords = .error .badDelegation := by
  obtain ⟨equal, spanned⟩ :=
    (unsigned_delegation_verdicts Sample.optOutRecords Sample.belowMissing).1 (by decide)
  obtain ⟨host, matched, denied⟩ :=
    ((unsigned_delegation_verdicts Sample.optOutRecords Sample.host).2 (by decide)).1 (by decide)
  obtain ⟨apex, matched', delegated⟩ :=
    ((unsigned_delegation_verdicts Sample.optOutRecords Sample.apex).2 (by decide)).2 (by decide)
  have accepted : verifyDelegation Sample.belowMissing Sample.optOutRecords = .ok () :=
    (spanned (by decide) (by decide) fun _ _ same => congrArg optOut (eq_of_beq same)).mpr
      ⟨Sample.apex, Sample.missing, ⟨by decide, by decide, by decide⟩, by decide, by decide,
        by decide, by decide, by decide, by decide⟩
  have types : findMatching Sample.host Sample.optOutRecords = .ok [RRType.ns] := by decide
  have types' : findMatching Sample.apex Sample.optOutRecords = .ok [RRType.soa] := by decide
  cases types.symm.trans matched
  cases types'.symm.trans matched'
  exact ⟨accepted, equal ▸ accepted, denied, delegated⟩

end HashedDenial
