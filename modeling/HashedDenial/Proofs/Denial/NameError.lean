import HashedDenial.Proofs.Denial.Soundness

/-!
# What an accepted name error says about the zone

A name error asks for the closest encloser and for a record that covers the wildcard below it, but
not for one that covers the next closer name. The encloser found may thus lie above the closest one
that exists, and even the name itself may exist. The records rule this out exactly if they deny a
name on the way down to the one asked for, and the wildcards below all enclosers that they leave
open.
-/
namespace HashedDenial

open DenialRecord

variable {zone : Octets} {ρ : Type} [DenialRecord ρ] {records : List ρ} {question : Question}
  {name ancestor : Name} {content : ZoneContent zone}

/-- Whether neither a name exists nor the wildcard that could answer for it. -/
def ZoneNames.LacksAnswer (existing : ZoneNames zone) (name : Name) : Prop :=
  name ∉ existing ∧ ∀ deepest wildcard, existing.IsDeepest name deepest →
    deepest.wildcardChild? = some wildcard → wildcard ∉ existing

/-- Whether some record covers a name in whatever case. -/
def Denied (records : List ρ) (name : Name) : Prop :=
  ∃ record ∈ records, ∃ other, other.canonical = name.canonical ∧ coversName record other = true

/-- Whether the records leave open that the closest encloser of a name lies below the one found. -/
structure LeavesOpen (records : List ρ) (name found ancestor : Name) : Prop where
  mem_suffixes : ancestor ∈ name.suffixes
  longer : found.labelCount < ancestor.labelCount
  undenied : ∀ closer ∈ ancestor.suffixes, found.labelCount < closer.labelCount →
    ¬ Denied records closer
  unmatched : ∀ closer ∈ name.suffixes, ancestor.labelCount < closer.labelCount →
    ∀ record ∈ records, ∀ other, matchesName record other = true →
      closer.canonical ∉ other.canonical.suffixes

/-! ## Other contents with the same records -/

namespace ZoneContent

/-- The content of a zone in which one more name exists, without types of its own. -/
def adjoin (content : ZoneContent zone) (added : Name) : ZoneContent zone where
  toZoneNames := content.toZoneNames.adjoin added
  types := content.types
  types_caseless := content.types_caseless

/-- The content of a zone without the names at or below a given one. -/
def prune (content : ZoneContent zone) (top : Name) : ZoneContent zone where
  toZoneNames := content.toZoneNames.prune top
  types := content.types
  types_caseless := content.types_caseless

theorem mem_adjoin {added suffix : Name} (below : suffix ∈ added.suffixes)
    (inside : suffix.inZone zone = true) : suffix ∈ content.adjoin added :=
  Or.inr ⟨inside, suffix, below, rfl⟩

end ZoneContent

theorem Denied.notMem {existing : ZoneNames zone} (truthful : Truthful existing records)
    (denied : Denied records name) : name ∉ existing := by
  obtain ⟨record, listed, other, same, covered⟩ := denied
  intro present
  exact truthful.notMem_of_covers record listed other covered
    ((ZoneNames.mem_congr same).mpr present)

namespace Faithful

variable (faithful : Faithful content records)

include faithful

/-- Records stay faithful if a name that they do not deny is added below one that exists. -/
theorem adjoin (member : ancestor ∈ name.suffixes) (exists_ : ancestor ∈ content)
    (undenied : ∀ closer ∈ name.suffixes, ancestor.labelCount < closer.labelCount →
      ¬ Denied records closer) : Faithful (content.adjoin name) records := by
  refine ⟨⟨faithful.zone_eq, ?_, ?_⟩, faithful.types_eq⟩
  · intro record listed other matched
    exact Or.inl (faithful.mem_of_matches record listed other matched)
  · rintro record listed other covered (present | ⟨inside, suffix, below, same⟩)
    · exact faithful.notMem_of_covers record listed other covered present
    · by_cases longer : ancestor.labelCount < suffix.labelCount
      · exact undenied suffix below longer ⟨record, listed, other, same.symm, covered⟩
      · -- the suffix is no longer than the ancestor, so it exists already
        have upper := Name.mem_suffixes_of_le below member (Nat.le_of_not_lt longer)
        rw [← Name.inZone_congr same rfl] at inside
        have present := content.closed ancestor exists_ suffix upper inside
        exact faithful.notMem_of_covers record listed other covered
          ((ZoneNames.mem_congr same).mp present)

/-- Records stay faithful if names that they do not show are taken away. -/
theorem prune (unmatched : ∀ record ∈ records, ∀ other, matchesName record other = true →
    name.canonical ∉ other.canonical.suffixes) : Faithful (content.prune name) records := by
  refine ⟨⟨faithful.zone_eq, ?_, ?_⟩, faithful.types_eq⟩
  · intro record listed other matched
    exact ⟨faithful.mem_of_matches record listed other matched,
      unmatched record listed other matched⟩
  · intro record listed other covered present
    exact faithful.notMem_of_covers record listed other covered present.1

end Faithful

/-! ## What the records leave open -/

/-- If the records leave an encloser open and do not deny the wildcard below it, they are faithful
to a content in which both exist and nothing lies between them and the name. -/
theorem LeavesOpen.exists_content {found wildcard : Name}
    (open_ : LeavesOpen records name found ancestor) (faithful : Faithful content records)
    (foundMember : found ∈ name.suffixes) (exists_ : found ∈ content) (proper : ancestor ≠ name)
    (built : ancestor.wildcardChild? = some wildcard)
    (fresh : wildcard.canonical ∉ name.canonical.suffixes) (undenied : ¬ Denied records wildcard) :
    ∃ other : ZoneContent zone, Faithful other records ∧ other.IsDeepest name ancestor ∧
      wildcard ∈ other := by
  obtain ⟨next, nextMember, count⟩ :=
    Name.exists_suffix (Name.labelCount_lt_of_ne open_.mem_suffixes proper)
  have longer := open_.longer
  have foundAbove : found ∈ ancestor.suffixes :=
    Name.mem_suffixes_of_le foundMember open_.mem_suffixes longer.le
  have ancestorAbove := Name.mem_suffixes_of_wildcardChild? built
  have inside : ancestor.inZone zone = true :=
    Name.inZone_of_suffix foundAbove (content.inZone found exists_)
  have kept : found ∈ content.prune next := by
    refine ⟨exists_, fun below => ?_⟩
    have bound := Name.labelCount_le below
    rw [Name.labelCount_canonical, Name.labelCount_canonical] at bound
    omega
  have pruned := faithful.prune (open_.unmatched next nextMember (by omega))
  -- take away what lies on the way down from the ancestor, and add the wildcard
  refine ⟨(content.prune next).adjoin wildcard,
    pruned.adjoin (Name.suffixes_trans foundAbove ancestorAbove) kept ?_,
    ⟨open_.mem_suffixes, ZoneContent.mem_adjoin ancestorAbove inside, ?_⟩,
    ZoneContent.mem_adjoin (Name.self_mem_suffixes wildcard)
      (Name.inZone_of_suffix ancestorAbove inside)⟩
  · intro closer below above
    rcases (Name.mem_suffixes_wildcardChild?_iff built).mp below with rfl | upper
    · exact undenied
    · exact open_.undenied closer upper above
  · intro other member present
    by_contra beyond
    rcases present with ⟨_, clear⟩ | ⟨_, suffix, below, same⟩
    · -- names below the ancestor towards the name have been taken away
      have lower : next ∈ other.suffixes := Name.mem_suffixes_of_le nextMember member (by omega)
      exact clear (Name.canonical_mem_suffixes lower)
    · -- of the names added, only the wildcard is longer, and it lies aside
      have sameCount := Name.labelCount_eq_of_canonical_eq same
      rcases (Name.mem_suffixes_wildcardChild?_iff built).mp below with rfl | upper
      · exact fresh (same ▸ Name.canonical_mem_suffixes member)
      · have bound := Name.labelCount_le upper
        omega

/-- What exists between the encloser found and the name is left open by the records. -/
theorem ZoneNames.IsDeepest.leavesOpen {existing : ZoneNames zone} {found : Name}
    (deepest : existing.IsDeepest name ancestor) (truthful : Truthful existing records)
    (foundMember : found ∈ name.suffixes) (exists_ : found ∈ existing)
    (longer : found.labelCount < ancestor.labelCount) :
    LeavesOpen records name found ancestor := by
  refine ⟨deepest.mem_suffixes, longer, ?_, ?_⟩
  · intro closer below above denied
    have member := Name.suffixes_trans below deepest.mem_suffixes
    have lower : found ∈ closer.suffixes := Name.mem_suffixes_of_le foundMember member above.le
    exact denied.notMem truthful
      (ZoneNames.mem_of_between deepest.mem below lower (existing.inZone found exists_))
  · intro closer member beyond record listed other matched below
    have shown := truthful.mem_of_matches record listed other matched
    rw [Name.suffixes_canonical] at below
    obtain ⟨suffix, upper, same⟩ := List.mem_map.mp below
    -- the record shows a name at or below one that is longer than the deepest
    have inside := deepest.inZone_of_longer member beyond
    rw [← Name.inZone_congr same rfl] at inside
    have present := existing.closed other shown suffix upper inside
    exact deepest.notMem_of_longer member beyond ((ZoneNames.mem_congr same).mp present)

/-! ## The verdict -/

variable [BEq ρ]

namespace Encloses

variable {encloser : Encloser} (encloses : Encloses records name encloser)

include encloses

/-- A name is missing from every content only if a suffix of it below the encloser is denied. -/
theorem exists_denied (faithful : Faithful content records)
    (missing : ∀ other : ZoneContent zone, Faithful other records → name ∉ other) :
    ∃ closer ∈ name.suffixes, encloser.closest.labelCount < closer.labelCount ∧
      Denied records closer := by
  have exists_ := encloses.mem faithful.toTruthful
  by_contra undenied
  -- otherwise the name could be added to the content
  have faithful' := faithful.adjoin encloses.closest_mem exists_
    fun closer member longer denied => undenied ⟨closer, member, longer, denied⟩
  have inside : name.inZone zone = true :=
    Name.inZone_of_suffix encloses.closest_mem (content.inZone _ exists_)
  exact missing _ faithful' (ZoneContent.mem_adjoin (Name.self_mem_suffixes _) inside)

/-- Where a suffix below the encloser is denied, so is the wildcard that could answer, provided the
records deny it below each encloser that they leave open. -/
theorem lacksAnswer {existing : ZoneNames zone} (truthful : Truthful existing records)
    (here : ∀ wildcard, encloser.closest.wildcardChild? = some wildcard → wildcard ∉ existing)
    (below : ∃ closer ∈ name.suffixes, encloser.closest.labelCount < closer.labelCount ∧
      Denied records closer)
    (wildcards : ∀ ancestor wildcard, LeavesOpen records name encloser.closest ancestor →
      ancestor.wildcardChild? = some wildcard →
      wildcard.canonical ∉ name.canonical.suffixes → Denied records wildcard) :
    existing.LacksAnswer name := by
  have exists_ := encloses.mem truthful
  obtain ⟨closer, member, longer, denied⟩ := below
  refine ⟨fun present => ?_, fun deepest wildcard isDeepest built present => ?_⟩
  · have lower := encloses.closest_mem_suffixes member longer.le
    exact denied.notMem truthful
      (ZoneNames.mem_of_between present member lower (existing.inZone _ exists_))
  · have bound := isDeepest.longest _ encloses.closest_mem exists_
    rcases Nat.eq_or_lt_of_le bound with same | above
    · -- the encloser found is the deepest one, below which the wildcard is covered
      obtain rfl := Name.eq_of_labelCount_eq encloses.closest_mem isDeepest.mem_suffixes same
      exact here wildcard built present
    · have open_ := isDeepest.leavesOpen truthful encloses.closest_mem exists_ above
      by_cases beside : wildcard.canonical ∈ name.canonical.suffixes
      · -- then the wildcard is the suffix after the deepest one that exists
        rw [Name.suffixes_canonical] at beside
        obtain ⟨suffix, within, spelled⟩ := List.mem_map.mp beside
        have count := Name.labelCount_eq_of_canonical_eq spelled
        have next := Name.labelCount_wildcardChild? built
        exact isDeepest.notMem_of_longer within (by omega)
          ((ZoneNames.mem_congr spelled).mpr present)
      · exact (wildcards deepest wildcard open_ built beside).notMem truthful present

end Encloses

/-- After an accepted name error, neither the name nor the wildcard that could answer for it exists
if the next closer name does not exist. The records show as much of every zone that they are
faithful to exactly if they deny some suffix of the name below the encloser found, and the wildcards
below all the enclosers that they leave open. -/
theorem verifyNameError_lacksAnswer_iff (faithful : Faithful content records)
    (accepted : verifyNameError question records = .ok ()) :
    ∃ encloser, findClosestEncloser question.name records = .ok (some encloser) ∧
      (encloser.nextCloser ∉ content → content.LacksAnswer question.name) ∧
      ((∀ other : ZoneContent zone, Faithful other records → other.LacksAnswer question.name) ↔
        (∃ closer ∈ question.name.suffixes, encloser.closest.labelCount < closer.labelCount ∧
          Denied records closer) ∧
        ∀ ancestor wildcard, LeavesOpen records question.name encloser.closest ancestor →
          ancestor.wildcardChild? = some wildcard →
          wildcard.canonical ∉ question.name.canonical.suffixes → Denied records wildcard) := by
  obtain ⟨_, encloser, encloses, proper, wildcard, built, coverage, covered⟩ :=
    verifyNameError_eq_ok_iff.mp accepted
  have here {existing : ZoneNames zone} (truthful : Truthful existing records) (other : Name)
      (built' : encloser.closest.wildcardChild? = some other) : other ∉ existing := by
    cases built.symm.trans built'
    exact truthful.notMem_of_findCoverer covered
  refine ⟨encloser, findClosestEncloser_eq_some_iff.mpr encloses, ?_, ?_, ?_⟩
  · intro absent
    have deepest := (encloses.isDeepest_iff faithful.toTruthful proper).mp absent
    refine ⟨deepest.notMem proper, fun other wildcard' deepest' built' => ?_⟩
    obtain rfl := deepest.eq deepest'
    exact here faithful.toTruthful wildcard' built'
  · intro lacks
    have below := encloses.exists_denied faithful fun other faithful' => (lacks other faithful').1
    refine ⟨below, fun ancestor wildcard' open_ built' fresh => ?_⟩
    by_contra undenied
    have different : ancestor ≠ question.name := by
      rintro rfl
      obtain ⟨closer, member, longer, denied⟩ := below
      exact open_.undenied closer member longer denied
    obtain ⟨other, faithful', deepest, present⟩ := open_.exists_content faithful
      encloses.closest_mem (encloses.mem faithful.toTruthful) different built' fresh undenied
    exact (lacks other faithful').2 ancestor wildcard' deepest built' present
  · rintro ⟨below, wildcards⟩ other faithful'
    have truthful := faithful'.toTruthful
    exact encloses.lacksAnswer truthful (here truthful) below wildcards

theorem verifyNameError_lacksAnswer_belowMissing :
    Faithful Sample.hostContent Sample.hostRecords ∧
      verifyNameError ⟨Sample.belowMissing, RRType.ns⟩ Sample.hostRecords = .ok () ∧
      Sample.hostContent.LacksAnswer Sample.belowMissing := by
  have accepted : verifyNameError ⟨Sample.belowMissing, RRType.ns⟩ Sample.hostRecords = .ok () := by
    decide
  have absent : Sample.missing ∉ Sample.hostContent :=
    ZoneContent.mem_ofEntries_iff.not.mpr (by decide)
  obtain ⟨encloser, found, lacks, _⟩ :=
    verifyNameError_lacksAnswer_iff Sample.faithful_hostRecords accepted
  have searched : findClosestEncloser Sample.belowMissing Sample.hostRecords =
      .ok (some ⟨Sample.apex, Sample.missing⟩) := by
    decide
  cases searched.symm.trans found
  exact ⟨Sample.faithful_hostRecords, accepted, lacks absent⟩

/-- Without a record for its next closer name, a name that exists can be denied. -/
theorem verifyNameError_accepts_host :
    Faithful Sample.hostContent Sample.hostRecords ∧
      verifyNameError ⟨Sample.host, RRType.ns⟩ Sample.hostRecords = .ok () ∧
      Sample.host ∈ Sample.hostContent :=
  ⟨Sample.faithful_hostRecords, by decide, ZoneContent.mem_ofEntries_iff.mpr (by decide)⟩

end HashedDenial
