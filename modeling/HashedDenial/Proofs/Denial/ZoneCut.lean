import HashedDenial.Proofs.Denial.Soundness

/-!
# Denials below a zone cut

At a delegation point a zone has a name server but no start of authority, and what lies below
belongs to another zone, of which the records of this one say nothing. No verifier looks at the
types of the closest encloser, though. A proof of no data at a wildcard is safe all the same, since
it rests on a record for a name below the encloser, and a zone holds none below its delegation
points. A name error rests on a gap there, which shows nothing: its encloser is a delegation point
whenever the records match one above the name.
-/
namespace HashedDenial

open DenialRecord

/-- Whether the types at a name are those of a delegation point. -/
def IsCut (types : List RRType) : Prop := RRType.ns ∈ types ∧ RRType.soa ∉ types

instance (types : List RRType) : Decidable (IsCut types) := inferInstanceAs (Decidable (_ ∧ _))

variable {zone : Octets}

/-- Whether nothing exists in a zone below its delegation points. -/
def ZoneContent.EndsAtCuts (content : ZoneContent zone) : Prop :=
  ∀ name ∈ content, ∀ ancestor ∈ name.suffixes, ancestor ≠ name → ancestor ∈ content →
    ¬ IsCut (content.types ancestor)

theorem ZoneContent.endsAtCuts_ofEntries {entries : List ZoneEntry} {inZone closed}
    (ends : ∀ entry ∈ entries, ∀ ancestor ∈ entry.name.suffixes, ancestor ≠ entry.name →
      ¬ IsCut (typesAt entries ancestor)) :
    (ZoneContent.ofEntries zone entries inZone closed).EndsAtCuts := by
  intro name present ancestor above proper _
  obtain ⟨entry, listed, same⟩ := ZoneContent.mem_ofEntries_iff.mp present
  -- the ancestor is spelled as an ancestor of the name that the entry lists
  obtain ⟨ancestor', above', same'⟩ := Name.exists_suffix_of_canonical_eq same.symm above
  have proper' : ancestor' ≠ entry.name := by
    rintro rfl
    have count := Name.labelCount_eq_of_canonical_eq (same'.symm.trans same)
    exact proper (Name.eq_self_of_labelCount_eq above count)
  have spelled := ZoneContent.types_caseless (ZoneContent.ofEntries zone entries inZone closed)
    ancestor ancestor' same'.symm
  rw [spelled]
  exact ends entry listed ancestor' above' proper'

/-! ## Records at and below a cut -/

variable {ρ : Type} [DenialRecord ρ] [BEq ρ] {records : List ρ} {question : Question}

/-- Whether the records show a name to be a delegation point. -/
def ShowsCut (records : List ρ) (cut : Name) : Prop :=
  ∃ found, findMatching cut records = .ok found ∧ IsCut found

/-- Whether no record matches a name below one that the records show to be a delegation point. -/
def RespectsCuts (records : List ρ) : Prop :=
  ∀ cut, ShowsCut records cut → ∀ name, cut ∈ name.suffixes → cut ≠ name →
    ∀ record ∈ records, matchesName record name = false

/-- The records of a zone respect its cuts, whichever of them are given. -/
theorem Faithful.respectsCuts {content : ZoneContent zone} (faithful : Faithful content records)
    (ends : content.EndsAtCuts) : RespectsCuts records := by
  rintro cut ⟨found, matched, delegated⟩ name above proper record member
  rw [← Bool.not_eq_true]
  intro below
  have present := faithful.toTruthful.mem_of_findMatching matched
  have present' := faithful.mem_of_matches record member name below
  rw [faithful.types_of_findMatching matched] at delegated
  exact ends name present' cut above proper present delegated

namespace RespectsCuts

variable (respects : RespectsCuts records)

include respects

theorem findMatching_eq_missing {cut name : Name} (shown : ShowsCut records cut)
    (above : cut ∈ name.suffixes) (proper : cut ≠ name) :
    findMatching name records = .error .missingCoverage :=
  findMatching_eq_missing_iff.mpr (respects cut shown name above proper)

/-- A delegation point above a name is its closest encloser: what lies between the two is not
matched. -/
theorem eq_closest {name cut : Name} {encloser : Encloser}
    (encloses : Encloses records name encloser) (above : cut ∈ name.suffixes)
    (shown : ShowsCut records cut) : cut = encloser.closest := by
  obtain ⟨found, matched⟩ := encloses.matched
  obtain ⟨found', matched', delegated⟩ := shown
  rcases Nat.lt_trichotomy encloser.closest.labelCount cut.labelCount with longer | same | shorter
  · -- a longer suffix that is matched would have been found first
    rw [encloses.unmatched cut above longer] at matched'
    cases matched'
  · exact Name.eq_of_labelCount_eq above encloses.closest_mem same.symm
  · by_contra different
    -- the encloser would be a matched name below the delegation point
    have between := Name.mem_suffixes_of_le above encloses.closest_mem shorter.le
    rw [respects.findMatching_eq_missing ⟨found', matched', delegated⟩ between different] at matched
    cases matched

/-- A matched wildcard below the encloser shows that the encloser is no delegation point. -/
theorem not_isCut_of_wildcard {encloser wildcard : Name} {found found' : List RRType}
    (matched : findMatching encloser records = .ok found)
    (built : encloser.wildcardChild? = some wildcard)
    (matched' : findMatching wildcard records = .ok found') : ¬ IsCut found := by
  intro delegated
  have above := Name.mem_suffixes_of_wildcardChild? built
  have proper : encloser ≠ wildcard := by
    rintro rfl
    have count := Name.labelCount_wildcardChild? built
    omega
  rw [respects.findMatching_eq_missing ⟨found, matched, delegated⟩ above proper] at matched'
  cases matched'

end RespectsCuts

/-! ## The encloser of an accepted proof -/

/-- Records that respect the cuts of their zone cannot prove that there is no data at a wildcard
below a delegation point. They prove a name error below one exactly if they match it, so the
encloser of an accepted name error is no delegation point exactly if the records show none above the
name. -/
theorem accepted_encloser_isCut_iff (respects : RespectsCuts records) :
    (verifyWildcardNoData question records = .ok () →
      ∃ encloser found, findClosestEncloser question.name records = .ok (some encloser) ∧
        findMatching encloser.closest records = .ok found ∧ ¬ IsCut found) ∧
    (verifyNameError question records = .ok () →
      ∃ encloser found, findClosestEncloser question.name records = .ok (some encloser) ∧
        findMatching encloser.closest records = .ok found ∧
        (IsCut found ↔ ∃ cut ∈ question.name.suffixes, ShowsCut records cut)) := by
  constructor
  · intro accepted
    obtain ⟨_, encloser, encloses, _, _, wildcard, built, found', matched', _⟩ :=
      verifyWildcardNoData_eq_ok_iff.mp accepted
    obtain ⟨found, matched⟩ := encloses.matched
    exact ⟨encloser, found, findClosestEncloser_eq_some_iff.mpr encloses, matched,
      respects.not_isCut_of_wildcard matched built matched'⟩
  · intro accepted
    obtain ⟨_, encloser, encloses, _⟩ := verifyNameError_eq_ok_iff.mp accepted
    obtain ⟨found, matched⟩ := encloses.matched
    refine ⟨encloser, found, findClosestEncloser_eq_some_iff.mpr encloses, matched, ?_⟩
    constructor
    · intro delegated
      exact ⟨encloser.closest, encloses.closest_mem, found, matched, delegated⟩
    · rintro ⟨cut, above, shown⟩
      obtain rfl := respects.eq_closest encloses above shown
      obtain ⟨found', matched', delegated⟩ := shown
      cases matched.symm.trans matched'
      exact delegated

namespace Sample

/-- The name `b.h.e.`, below the delegation point `h.e.` -/
def belowHost : Name := ⟨⟨[0x62], by decide⟩ :: host.labels, by decide⟩

/-- The wildcard `*.h.e.` -/
def hostWildcard : Name := ⟨Label.asterisk :: host.labels, by decide⟩

/-- Records that show the apex and the delegation point `h.e.`, and that some names next to them
are missing. -/
def cutRecords : List PlainRecord :=
  [.matching apex apex [RRType.soa], .matching apex host [RRType.ns],
    .covering apex [missing, wildcard, belowHost, hostWildcard]]

theorem faithful_cutRecords : Faithful hostContent cutRecords :=
  PlainRecord.faithful_ofEntries (by decide) (by decide) (by decide)

theorem endsAtCuts_hostContent : hostContent.EndsAtCuts :=
  ZoneContent.endsAtCuts_ofEntries (by decide)

theorem respectsCuts_wildcardRecords : RespectsCuts wildcardRecords :=
  faithful_wildcardRecords.respectsCuts (ZoneContent.endsAtCuts_ofEntries (by decide))

/-- Records that show a wildcard below the delegation point, where the zone holds no names. -/
def strayRecords : List PlainRecord := .matching apex hostWildcard [RRType.soa] :: cutRecords

end Sample

/-- No delegation point lies above `h.n.e.`, and neither proof about it has one as its encloser. -/
theorem accepted_encloser_isCut_iff_belowMissing :
    RespectsCuts Sample.wildcardRecords ∧
      verifyWildcardNoData ⟨Sample.belowMissing, RRType.ds⟩ Sample.wildcardRecords = .ok () ∧
      (∃ encloser found,
        findClosestEncloser Sample.belowMissing Sample.wildcardRecords = .ok (some encloser) ∧
          findMatching encloser.closest Sample.wildcardRecords = .ok found ∧ ¬ IsCut found) ∧
      RespectsCuts Sample.cutRecords ∧
      verifyNameError ⟨Sample.belowMissing, RRType.ds⟩ Sample.cutRecords = .ok () ∧
      ¬ ∃ cut ∈ Sample.belowMissing.suffixes, ShowsCut Sample.cutRecords cut := by
  have respects := Sample.faithful_cutRecords.respectsCuts Sample.endsAtCuts_hostContent
  have noData :
      verifyWildcardNoData ⟨Sample.belowMissing, RRType.ds⟩ Sample.wildcardRecords = .ok () := by
    decide
  have nameError :
      verifyNameError ⟨Sample.belowMissing, RRType.ds⟩ Sample.cutRecords = .ok () := by
    decide
  obtain ⟨encloser, found, enclosed, matched, iff⟩ :=
    (accepted_encloser_isCut_iff respects).2 nameError
  have searched : findClosestEncloser Sample.belowMissing Sample.cutRecords =
      .ok (some ⟨Sample.apex, Sample.missing⟩) := by
    decide
  cases searched.symm.trans enclosed
  have apexTypes : findMatching Sample.apex Sample.cutRecords = .ok [RRType.soa] := by decide
  cases apexTypes.symm.trans matched
  exact ⟨Sample.respectsCuts_wildcardRecords, noData,
    (accepted_encloser_isCut_iff Sample.respectsCuts_wildcardRecords).1 noData, respects, nameError,
    iff.not.mp (by decide)⟩

/-- Records that are faithful to a zone deny a name below one of its delegation points, with the
delegation point as the encloser. Where records are not faithful, so does a proof of no data at a
wildcard. -/
theorem denials_accept_belowHost :
    Faithful Sample.hostContent Sample.cutRecords ∧ Sample.hostContent.EndsAtCuts ∧
      verifyNameError ⟨Sample.belowHost, RRType.ds⟩ Sample.cutRecords = .ok () ∧
      findClosestEncloser Sample.belowHost Sample.cutRecords =
        .ok (some ⟨Sample.host, Sample.belowHost⟩) ∧
      findMatching Sample.host Sample.cutRecords = .ok [RRType.ns] ∧
      verifyWildcardNoData ⟨Sample.belowHost, RRType.ds⟩ Sample.strayRecords = .ok () ∧
      findClosestEncloser Sample.belowHost Sample.strayRecords =
        .ok (some ⟨Sample.host, Sample.belowHost⟩) ∧
      findMatching Sample.host Sample.strayRecords = .ok [RRType.ns] ∧ IsCut [RRType.ns] :=
  ⟨Sample.faithful_cutRecords, Sample.endsAtCuts_hostContent, by decide, by decide, by decide,
    by decide, by decide, by decide, by decide⟩

end HashedDenial
