import HashedDenial.Denial.Audit
import HashedDenial.Proofs.Denial.EncloserSearch
import HashedDenial.Proofs.Denial.Verdicts

/-!
# When a proof is called a mismatch

A mismatch says that the records contradict the kind of response, and never that a record is
missing. Records of several zones contradict every kind. Apart from that, a name that exists
contradicts the two kinds that deny it, and a wildcard contradicts its answer if it does not lie in
the zone and above the name, or if a closer name exists. The finders raise no mismatch, so each
verifier raises it only in checks of its own.
-/
namespace HashedDenial

open DenialRecord

/-! ## Steps that fail -/

section Steps

variable {ε α β : Type}

theorem bind_eq_error_iff {first : Except ε α} {next : α → Except ε β} {failure : ε} :
    (first >>= next) = .error failure ↔
      first = .error failure ∨ ∃ value, first = .ok value ∧ next value = .error failure := by
  cases first with
  | error other => simp [bind, Except.bind]
  | ok value => simp [bind, Except.bind]

theorem ensure_eq_error_iff {condition : Prop} [Decidable condition]
    {failure failure' : DenialError} :
    ensure condition failure = .error failure' ↔ ¬ condition ∧ failure = failure' := by
  unfold ensure
  split <;> simp [*]

theorem valueOr_eq_error_iff {failure failure' : DenialError} {found : Option α} :
    valueOr failure found = .error failure' ↔ found = none ∧ failure = failure' := by
  cases found <;> simp [valueOr]

theorem ensure_bind_eq_error_iff {condition : Prop} [Decidable condition]
    {failure failure' : DenialError} {next : Unit → Except DenialError β} :
    (ensure condition failure >>= next) = .error failure' ↔
      (¬ condition ∧ failure = failure') ∨ (condition ∧ next () = .error failure') := by
  simp only [bind_eq_error_iff, ensure_eq_error_iff, Unique.exists_iff, PUnit.default_eq_unit,
    ensure_eq_ok_iff]

theorem valueOr_bind_eq_error_iff {failure failure' : DenialError} {found : Option α}
    {next : α → Except DenialError β} : (valueOr failure found >>= next) = .error failure' ↔
      (found = none ∧ failure = failure') ∨
        ∃ value, found = some value ∧ next value = .error failure' := by
  simp only [bind_eq_error_iff, valueOr_eq_error_iff, valueOr_eq_ok_iff]

/-- A loop fails at the first item whose step fails. -/
theorem forM_eq_error_iff {step : α → Except ε Unit} {items : List α} {failure : ε} :
    items.forM step = .error failure ↔
      StopsAt (fun item => step item = .ok ()) (fun item => step item = .error failure) items := by
  rw [List.forM_eq_forM]
  induction items with
  | nil => simp [pure, Except.pure]
  | cons item items ih =>
    rw [List.forM_cons, bind_eq_error_iff, Unique.exists_iff, PUnit.default_eq_unit, ih,
      stopsAt_cons_iff]

end Steps

variable {ρ : Type} [DenialRecord ρ] {records : List ρ}

/-! ## Contradictions -/

/-- Whether two of the records are of zones that differ in more than case. -/
def ZonesDiffer (records : List ρ) : Prop :=
  ∃ left ∈ records, ∃ right ∈ records, Octets.lower (zone left) ≠ Octets.lower (zone right)

instance (records : List ρ) : Decidable (ZonesDiffer records) :=
  inferInstanceAs (Decidable (∃ left ∈ records, ∃ right ∈ records, _ ≠ _))

/-- Whether a name lies above another one, up to case. -/
def IsProperAncestor (ancestor name : Name) : Prop :=
  ∃ suffix ∈ name.suffixes, suffix ≠ name ∧ suffix.canonical = ancestor.canonical

instance (ancestor name : Name) : Decidable (IsProperAncestor ancestor name) :=
  inferInstanceAs (Decidable (∃ suffix ∈ name.suffixes, _ ∧ _))

/-- Whether a wildcard is the one below an encloser that lies in the zone of the records and above
the name in question. -/
structure Synthesizes (records : List ρ) (name encloser wildcard : Name) : Prop where
  wildcardChild?_eq : encloser.wildcardChild? = some wildcard
  inZone : ∀ record ∈ records, encloser.inZone (zone record) = true
  above : IsProperAncestor encloser name

section Contradicted

variable [BEq ρ]

/-- What contradicts a kind of response, records of several zones apart. -/
def ProofKind.Contradicted (records : List ρ) (question : Question) : ProofKind → Prop
  | nameError | wildcardNoData =>
    Matched records question.name ∧ MatchesAgree records question.name
  | noData | delegation => False
  | wildcardAnswer wildcard => records ≠ [] ∧
    ((¬ ∃ encloser, Synthesizes records question.name encloser wildcard) ∨
      ∃ encloser longest : Name, encloser.wildcardChild? = some wildcard ∧
        encloser.labelCount < longest.labelCount ∧
        LongestMatched records question.name longest ∧ MatchesAgree records longest)

end Contradicted

/-! ## Zones -/

theorem commonZone_eq_mismatch_iff :
    commonZone records = .error .mismatch ↔ ZonesDiffer records := by
  constructor
  · intro failed
    by_contra alike
    -- records of one zone fail for no other reason than that there are none
    cases records with
    | nil => cases failed
    | cons first others =>
      have zoned : commonZone (first :: others) = .ok (zone first) := by
        refine commonZone_eq_ok_iff.mpr ⟨first, others, rfl, rfl, fun record member => ?_⟩
        by_contra differ
        exact alike ⟨record, member, first, List.mem_cons_self, differ⟩
      cases failed.symm.trans zoned
  · intro ⟨left, member, right, member', differ⟩
    cases zoned : commonZone records with
    | ok common =>
      obtain ⟨_, _, _, _, alike⟩ := commonZone_eq_ok_iff.mp zoned
      exact absurd ((alike left member).trans (alike right member').symm) differ
    | error failure =>
      have nonempty : records.isEmpty = false := List.isEmpty_eq_false_iff.mpr
        (List.ne_nil_of_mem member)
      rw [commonZone_eq_error zoned, nonempty]
      rfl

theorem exists_commonZone_iff :
    (∃ common, commonZone records = .ok common) ↔ records ≠ [] ∧ ¬ ZonesDiffer records := by
  constructor
  · intro ⟨common, zoned⟩
    refine ⟨?_, fun differ => ?_⟩
    · rintro rfl
      cases zoned
    · cases zoned.symm.trans (commonZone_eq_mismatch_iff.mpr differ)
  · intro ⟨nonempty, alike⟩
    cases zoned : commonZone records with
    | ok common => exact ⟨common, rfl⟩
    | error failure =>
      have same := commonZone_eq_error zoned
      rw [if_neg (by simpa using nonempty)] at same
      rw [same, commonZone_eq_mismatch_iff] at zoned
      exact absurd zoned alike

/-- What a verifier does once the zones agree tells whether it raises a mismatch. -/
theorem zoned_eq_mismatch_iff {next : Octets → Except DenialError Unit} {contradicted : Prop}
    (nonempty : contradicted → records ≠ [])
    (same : ∀ common, commonZone records = .ok common →
      (next common = .error .mismatch ↔ contradicted)) :
    (commonZone records >>= next) = .error .mismatch ↔ ZonesDiffer records ∨ contradicted := by
  rw [bind_eq_error_iff, commonZone_eq_mismatch_iff]
  constructor
  · intro failed
    rcases failed with differ | ⟨common, zoned, failed⟩
    · exact Or.inl differ
    · exact Or.inr ((same common zoned).mp failed)
  · intro reason
    rcases reason with differ | holds
    · exact Or.inl differ
    · -- there are records, so where they share no zone, their zones differ
      by_cases differ : ZonesDiffer records
      · exact Or.inl differ
      · obtain ⟨common, zoned⟩ := exists_commonZone_iff.mpr ⟨nonempty holds, differ⟩
        exact Or.inr ⟨common, zoned, (same common zoned).mpr holds⟩

/-! ## Steps that raise no mismatch -/

section Steps

variable [BEq ρ] {name : Name}

theorem ne_mismatch_of_findMatching {failure : DenialError}
    (failed : findMatching name records = .error failure) : failure ≠ .mismatch := by
  rcases findMatching_eq_error failed with rfl | rfl <;> simp

@[simp] theorem findMatching_ne_mismatch : findMatching name records ≠ .error .mismatch :=
  fun failed => ne_mismatch_of_findMatching failed rfl

@[simp] theorem findCoverer_ne_mismatch : findCoverer name records ≠ .error .mismatch := by
  intro failed
  rcases findCoverer_eq_error failed with same | same <;> cases same

@[simp] theorem requireEncloser_ne_mismatch :
    requireEncloser name records ≠ .error .mismatch := by
  rw [requireEncloser, ne_eq, bind_eq_error_iff, findClosestEncloser, firstMatched_eq_error_iff]
  -- the search fails as a finder does, and without an encloser a record is missing
  simp [valueOr_eq_error_iff, StopsAt]

@[simp] theorem verifyOptOut_ne_mismatch : verifyOptOut name records ≠ .error .mismatch := by
  simp [verifyOptOut, bind_eq_error_iff, ensure_eq_error_iff]

end Steps

/-! ## The verifiers -/

section Verifiers

variable [BEq ρ] {question : Question} {name wildcard : Name}

theorem verdictAt_eq_mismatch_iff {recorded : List RRType → Except DenialError Unit}
    {unrecorded : Except DenialError Unit} (spared : ∀ found, recorded found ≠ .error .mismatch)
    (spared' : unrecorded ≠ .error .mismatch) :
    verdictAt name records recorded unrecorded = .error .mismatch ↔
      ZonesDiffer records ∨ False := by
  refine zoned_eq_mismatch_iff (by simp) fun common _ => ?_
  split
  next found matched => simpa using spared found
  next missing => simpa using spared'
  next failure other failed => simpa using ne_mismatch_of_findMatching failed

theorem verifyNoData_eq_mismatch_iff :
    verifyNoData question records = .error .mismatch ↔ ZonesDiffer records ∨ False := by
  apply verdictAt_eq_mismatch_iff
  · simp [ensure_eq_error_iff]
  · split <;> simp

theorem verifyDelegation_eq_mismatch_iff :
    verifyDelegation name records = .error .mismatch ↔ ZonesDiffer records ∨ False := by
  apply verdictAt_eq_mismatch_iff
  · simp [bind_eq_error_iff, ensure_eq_error_iff]
  · simp

section Agreement

variable [PartialEquivBEq ρ]

/-- The search returns the name itself exactly if records match it and agree. -/
theorem exists_encloses_self_iff :
    (∃ encloser, Encloses records name encloser ∧ encloser.closest = name) ↔
      Matched records name ∧ MatchesAgree records name := by
  constructor
  · rintro ⟨encloser, encloses, rfl⟩
    exact exists_findMatching_iff.mp encloses.matched
  · intro ⟨matched, agree⟩
    refine ⟨⟨name, name⟩, encloses_iff_longestMatched.mpr ⟨⟨Name.self_mem_suffixes name, matched, ?_⟩,
      agree, by simp [IsNextCloser]⟩, rfl⟩
    intro longer member above
    exact absurd (Name.labelCount_le member) (Nat.not_le.mpr above)

theorem verifyNameError_eq_mismatch_iff : verifyNameError question records = .error .mismatch ↔
    ZonesDiffer records ∨ Matched records question.name ∧ MatchesAgree records question.name := by
  refine zoned_eq_mismatch_iff (fun holds => List.ne_nil_of_mem holds.1.choose_spec.1) fun _ _ => ?_
  rw [← exists_encloses_self_iff]
  simp [bind_eq_error_iff, requireEncloser_eq_ok_iff, ensure_eq_error_iff, valueOr_eq_error_iff,
    pure, Except.pure]

theorem verifyWildcardNoData_eq_mismatch_iff :
    verifyWildcardNoData question records = .error .mismatch ↔ ZonesDiffer records ∨
      Matched records question.name ∧ MatchesAgree records question.name := by
  refine zoned_eq_mismatch_iff (fun holds => List.ne_nil_of_mem holds.1.choose_spec.1) fun _ _ => ?_
  rw [← exists_encloses_self_iff]
  simp [bind_eq_error_iff, requireEncloser_eq_ok_iff, ensure_eq_error_iff, valueOr_eq_error_iff]

theorem ensureUnmatched_eq_mismatch_iff : ensureUnmatched name records = .error .mismatch ↔
    Matched records name ∧ MatchesAgree records name := by
  rw [← exists_findMatching_iff]
  unfold ensureUnmatched
  split
  next found matched => simp [matched]
  next missing => simp [missing]
  next failure other failed => simpa [failed] using ne_mismatch_of_findMatching failed

/-! ### Wildcard answers -/

omit [DenialRecord ρ] [BEq ρ] [PartialEquivBEq ρ] in
theorem isProperAncestor_iff {ancestor : Name} : IsProperAncestor ancestor name ↔
    name.inZone ancestor.text = true ∧ ancestor.labelCount < name.labelCount := by
  rw [Name.inZone_text_iff_exists, IsProperAncestor]
  constructor
  · intro ⟨suffix, member, proper, same⟩
    refine ⟨⟨suffix, member, same⟩, ?_⟩
    rw [← Name.labelCount_eq_of_canonical_eq same]
    exact Name.labelCount_lt_of_ne member proper
  · intro ⟨⟨suffix, member, same⟩, shorter⟩
    rw [← Name.labelCount_eq_of_canonical_eq same] at shorter
    refine ⟨suffix, member, ?_, same⟩
    rintro rfl
    exact absurd shorter (Nat.lt_irrefl _)

omit [BEq ρ] [PartialEquivBEq ρ] in
/-- The checks that the verifier makes of the parent of the wildcard. -/
theorem synthesizes_iff {common : Octets} {encloser : Name}
    (zoned : commonZone records = .ok common) (built : encloser.wildcardChild? = some wildcard) :
    Synthesizes records name encloser wildcard ↔ encloser.inZone common = true ∧
      name.inZone encloser.text = true ∧ encloser.labelCount < name.labelCount := by
  obtain ⟨first, others, list, same, alike⟩ := commonZone_eq_ok_iff.mp zoned
  rw [← isProperAncestor_iff]
  constructor
  · intro synthesizes
    have here := synthesizes.inZone first (by rw [list]; exact List.mem_cons_self)
    exact ⟨by rwa [same], synthesizes.above⟩
  · intro ⟨inside, above⟩
    refine ⟨built, fun record member => ?_, above⟩
    -- the zones of the records are spelled differently at most
    rwa [Name.inZone_congr rfl (alike record member)]

/-- The loop over the closer names raises a mismatch at the longest of them that exists. -/
theorem forM_ensureUnmatched_eq_mismatch_iff {encloser : Name}
    (below : encloser.labelCount < name.labelCount) :
    ((name.suffixes.take (name.labelCount - encloser.labelCount)).forM
        fun closer => ensureUnmatched closer records) = .error .mismatch ↔
      ∃ longest : Name, encloser.labelCount < longest.labelCount ∧
        LongestMatched records name longest ∧ MatchesAgree records longest := by
  rw [forM_eq_error_iff, Name.stopsAt_take_suffixes_iff]
  refine exists_congr fun longest => ?_
  simp only [ensureUnmatched_eq_ok_iff, findMatching_eq_missing_iff_not_matched,
    ensureUnmatched_eq_mismatch_iff]
  -- the closer names are the suffixes that are longer than the encloser
  have taken : name.labelCount < longest.labelCount + (name.labelCount - encloser.labelCount) ↔
      encloser.labelCount < longest.labelCount := by
    omega
  rw [taken]
  constructor
  · intro ⟨member, longer, ⟨matched, agree⟩, unmatched⟩
    exact ⟨longer, ⟨member, matched, unmatched⟩, agree⟩
  · intro ⟨longer, ⟨member, matched, unmatched⟩, agree⟩
    exact ⟨member, longer, ⟨matched, agree⟩, unmatched⟩

/-- With a wildcard that may have answered, it is the closer names that decide. There is always a
next closer name, so its absence is never the reason. -/
theorem afterParent_eq_mismatch_iff {common : Octets} {encloser : Name}
    (zoned : commonZone records = .ok common) (built : encloser.wildcardChild? = some wildcard) :
    (do
      ensure (encloser.inZone common ∧ name.inZone encloser.text ∧
        encloser.labelCount < name.labelCount) .mismatch
      let closer := name.suffixes.take (name.labelCount - encloser.labelCount)
      closer.forM fun name => ensureUnmatched name records
      let nextCloser ← valueOr .mismatch closer.getLast?
      let _ ← findCoverer nextCloser records
      : Except DenialError Unit) = .error .mismatch ↔
    ¬ Synthesizes records name encloser wildcard ∨
      ∃ longest : Name, encloser.labelCount < longest.labelCount ∧
        LongestMatched records name longest ∧ MatchesAgree records longest := by
  rw [ensure_bind_eq_error_iff, ← synthesizes_iff zoned built, and_iff_left rfl]
  by_cases fits : Synthesizes records name encloser wildcard
  · -- the checks of the encloser pass, and there is a name for the coverer to be looked up
    obtain ⟨_, _, below⟩ := (synthesizes_iff zoned built).mp fits
    obtain ⟨last, _, found, _⟩ := Name.exists_getLast_take_suffixes (Nat.sub_pos_of_lt below)
      (Nat.sub_le name.labelCount encloser.labelCount)
    rw [← forM_ensureUnmatched_eq_mismatch_iff below]
    simp [fits, bind_eq_error_iff, valueOr_eq_error_iff, found, pure, Except.pure]
  · simp [fits]

theorem verifyWildcardAnswer_eq_mismatch_iff :
    verifyWildcardAnswer question wildcard records = .error .mismatch ↔ ZonesDiffer records ∨
      ProofKind.Contradicted records question (.wildcardAnswer wildcard) := by
  refine zoned_eq_mismatch_iff And.left fun common zoned => ?_
  have nonempty : records ≠ [] := by
    rintro rfl
    cases zoned
  rw [ProofKind.Contradicted, and_iff_right nonempty, ensure_bind_eq_error_iff,
    valueOr_bind_eq_error_iff]
  by_cases starred : ∃ encloser : Name, encloser.wildcardChild? = some wildcard
  · obtain ⟨encloser, built⟩ := starred
    obtain ⟨asterisk, parent⟩ := Name.isWildcard_and_parent?_iff.mpr built
    have only (other : Name) (built' : other.wildcardChild? = some wildcard) : other = encloser :=
      Option.some.inj ((Name.isWildcard_and_parent?_iff.mpr built').2.symm.trans parent)
    simp only [asterisk, parent, not_true_eq_false, false_and, false_or, true_and, reduceCtorEq,
      Option.some.injEq, exists_eq_left', afterParent_eq_mismatch_iff zoned built]
    -- the wildcard is below one encloser only
    refine or_congr (not_congr ?_) ?_
    · constructor
      · exact fun fits => ⟨encloser, fits⟩
      · intro exists_other
        obtain ⟨other, fits⟩ := exists_other
        rwa [only other fits.wildcardChild?_eq] at fits
    · constructor
      · intro exists_longer
        obtain ⟨longest, longer⟩ := exists_longer
        exact ⟨encloser, longest, built, longer⟩
      · intro exists_longer
        obtain ⟨other, longest, built', longer⟩ := exists_longer
        rw [only other built'] at longer
        exact ⟨longest, longer⟩
  · -- what is no wildcard is no wildcard below an encloser
    have unfit : ¬ ∃ encloser, Synthesizes records question.name encloser wildcard := by
      intro synthesized
      obtain ⟨encloser, fits⟩ := synthesized
      exact starred ⟨encloser, fits.wildcardChild?_eq⟩
    refine iff_of_true ?_ (Or.inl unfit)
    by_cases asterisk : wildcard.isWildcard = true
    · refine Or.inr ⟨asterisk, Or.inl ⟨?_, rfl⟩⟩
      cases parent : wildcard.parent? with
      | none => rfl
      | some encloser =>
        exact absurd ⟨encloser, Name.isWildcard_and_parent?_iff.mp ⟨asterisk, parent⟩⟩ starred
    · exact Or.inl ⟨asterisk, rfl⟩

end Agreement

end Verifiers

/-! ## All kinds of proof -/

theorem verify_nil [BEq ρ] (kind : ProofKind) (question : Question) :
    kind.verify question ([] : List ρ) = .error .missingCoverage := by
  cases kind <;> rfl

/-- A mismatch is raised exactly where the zones of the records differ or the records contradict
the kind of response. Without records every proof lacks one. -/
theorem verify_eq_mismatch_iff [BEq ρ] [PartialEquivBEq ρ] (kind : ProofKind) (question : Question)
    (records : List ρ) :
    (kind.verify question records = .error .mismatch ↔
      ZonesDiffer records ∨ kind.Contradicted records question) ∧
    kind.verify question ([] : List ρ) = .error .missingCoverage := by
  refine ⟨?_, verify_nil kind question⟩
  cases kind with
  | nameError => exact verifyNameError_eq_mismatch_iff
  | noData => exact verifyNoData_eq_mismatch_iff
  | delegation => exact verifyDelegation_eq_mismatch_iff
  | wildcardNoData => exact verifyWildcardNoData_eq_mismatch_iff
  | wildcardAnswer wildcard => exact verifyWildcardAnswer_eq_mismatch_iff

namespace Sample

/-- Records that disagree about `h.e.` and agree about the apex. -/
def contested : List PlainRecord :=
  [.matching apex apex [RRType.soa], .matching apex host [RRType.ns], .matching apex host []]

end Sample

/-- A wildcard above `h.n.e.` does not answer for it once `n.e.` exists. Records that disagree about
`h.e.` do not show that it exists, so nothing contradicts an answer for it. -/
theorem verify_eq_mismatch_iff_contested :
    verifyWildcardAnswer ⟨Sample.belowMissing, RRType.ns⟩ Sample.wildcard Sample.disagreeing =
        .error .mismatch ∧
      verifyNameError ⟨Sample.apex, RRType.ns⟩ Sample.contested = .error .mismatch ∧
      verifyNameError ⟨Sample.host, RRType.ns⟩ Sample.contested ≠ .error .mismatch := by
  have answer := (verify_eq_mismatch_iff (.wildcardAnswer Sample.wildcard)
    ⟨Sample.belowMissing, RRType.ns⟩ Sample.disagreeing).1
  have standing := (verify_eq_mismatch_iff .nameError ⟨Sample.apex, RRType.ns⟩ Sample.contested).1
  have unclear := (verify_eq_mismatch_iff .nameError ⟨Sample.host, RRType.ns⟩ Sample.contested).1
  refine ⟨answer.mpr (Or.inr ⟨by decide, Or.inr ⟨Sample.apex, Sample.missing, by decide, by decide,
    ⟨by decide, by decide, by decide⟩, by decide⟩⟩), standing.mpr (Or.inr ⟨by decide, by decide⟩), ?_⟩
  intro raised
  rcases unclear.mp raised with differ | ⟨_, agree⟩
  · exact absurd differ (by decide)
  · exact absurd agree (by decide)

end HashedDenial
