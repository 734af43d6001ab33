import HashedDenial.Proofs.Denial.Finders
import HashedDenial.Proofs.Name.Zone
import Mathlib.Data.Set.Defs

/-!
# What a zone holds and what records say about it

The names that exist in a zone are closed under ancestors within the zone and do not depend on case.
Records speak the truth about a zone if what they match exists and what they cover does not. Nothing
is asked of the choice of records: any of them may have been left out.
-/
namespace HashedDenial

open DenialRecord

/-- The names that exist in a zone, up to case. An ancestor of one of them exists if it lies in the
zone. -/
structure ZoneNames (zone : Octets) where
  names : Set Name
  inZone : ∀ name ∈ names, name.inZone zone = true
  caseless : ∀ left right : Name, left.canonical = right.canonical → left ∈ names → right ∈ names
  closed : ∀ name ∈ names, ∀ suffix ∈ name.suffixes, suffix.inZone zone = true → suffix ∈ names

/-- The names that exist in a zone with the types at each of them. -/
structure ZoneContent (zone : Octets) extends ZoneNames zone where
  types : Name → List RRType
  types_caseless : ∀ left right : Name, left.canonical = right.canonical → types left = types right

variable {zone : Octets}

instance : Membership Name (ZoneNames zone) := ⟨fun existing name => name ∈ existing.names⟩

instance : Membership Name (ZoneContent zone) := ⟨fun content name => name ∈ content.toZoneNames⟩

namespace ZoneNames

variable {existing : ZoneNames zone} {name ancestor other next : Name}

theorem mem_congr (same : name.canonical = other.canonical) : name ∈ existing ↔ other ∈ existing :=
  ⟨existing.caseless name other same, existing.caseless other name same.symm⟩

/-- If a name exists, so do all its suffixes below a suffix that lies in the zone. -/
theorem mem_of_between (exists_ : name ∈ existing) (middle : other ∈ name.suffixes)
    (lower : ancestor ∈ other.suffixes) (inside : ancestor.inZone zone = true) :
    other ∈ existing :=
  existing.closed name exists_ other middle (Name.inZone_of_suffix lower inside)

/-- The longest suffix of a name that exists. -/
structure IsDeepest (existing : ZoneNames zone) (name ancestor : Name) : Prop where
  mem_suffixes : ancestor ∈ name.suffixes
  mem : ancestor ∈ existing
  longest : ∀ other ∈ name.suffixes, other ∈ existing → other.labelCount ≤ ancestor.labelCount

theorem IsDeepest.eq (left : existing.IsDeepest name ancestor)
    (right : existing.IsDeepest name other) : ancestor = other := by
  apply Name.eq_of_labelCount_eq left.mem_suffixes right.mem_suffixes
  have above := left.longest other right.mem_suffixes right.mem
  have below := right.longest ancestor left.mem_suffixes left.mem
  omega

namespace IsDeepest

variable (deepest : existing.IsDeepest name ancestor)

include deepest

theorem notMem_of_longer (member : other ∈ name.suffixes)
    (longer : ancestor.labelCount < other.labelCount) : other ∉ existing := by
  intro present
  have bound := deepest.longest other member present
  omega

theorem inZone_of_longer (member : other ∈ name.suffixes)
    (longer : ancestor.labelCount < other.labelCount) : other.inZone zone = true := by
  have lower : ancestor ∈ other.suffixes :=
    Name.mem_suffixes_of_le deepest.mem_suffixes member longer.le
  exact Name.inZone_of_suffix lower (existing.inZone ancestor deepest.mem)

theorem ne_of_notMem (absent : name ∉ existing) : ancestor ≠ name := by
  rintro rfl
  exact absent deepest.mem

theorem notMem (proper : ancestor ≠ name) : name ∉ existing :=
  deepest.notMem_of_longer (Name.self_mem_suffixes name)
    (Name.labelCount_lt_of_ne deepest.mem_suffixes proper)

theorem inZone_of_wildcardChild? {wildcard : Name}
    (built : ancestor.wildcardChild? = some wildcard) : wildcard.inZone zone = true :=
  Name.inZone_of_suffix (Name.mem_suffixes_of_wildcardChild? built)
    (existing.inZone ancestor deepest.mem)

end IsDeepest

theorem exists_deepest (member : ancestor ∈ name.suffixes) (exists_ : ancestor ∈ existing) :
    ∃ deepest, existing.IsDeepest name deepest := by
  -- climb to a longer suffix that exists as long as there is one
  induction bound : name.labelCount - ancestor.labelCount using Nat.strong_induction_on
    generalizing ancestor with
  | _ distance ih =>
    by_cases longest : ∀ other ∈ name.suffixes, other ∈ existing →
        other.labelCount ≤ ancestor.labelCount
    · exact ⟨ancestor, member, exists_, longest⟩
    · push Not at longest
      obtain ⟨other, inside, present, longer⟩ := longest
      have within := Name.labelCount_le inside
      exact ih _ (by omega) inside present rfl

/-- Names below one that does not exist do not exist, as far up as the zone reaches. -/
theorem notMem_of_longer (member : ancestor ∈ name.suffixes) (inside : ancestor.inZone zone = true)
    (nextMember : next ∈ name.suffixes) (count : next.labelCount = ancestor.labelCount + 1)
    (absent : next ∉ existing) {longer : Name} (longerMember : longer ∈ name.suffixes)
    (above : ancestor.labelCount < longer.labelCount) : longer ∉ existing := by
  intro present
  have middle : next ∈ longer.suffixes :=
    Name.mem_suffixes_of_le nextMember longerMember (by omega)
  have lower : ancestor ∈ next.suffixes := Name.mem_suffixes_of_le member nextMember (by omega)
  exact absent (mem_of_between present middle lower inside)

theorem isDeepest_of_next_notMem (member : ancestor ∈ name.suffixes) (exists_ : ancestor ∈ existing)
    (nextMember : next ∈ name.suffixes) (count : next.labelCount = ancestor.labelCount + 1)
    (absent : next ∉ existing) : existing.IsDeepest name ancestor := by
  refine ⟨member, exists_, fun other inside present => ?_⟩
  by_contra longer
  have inZone := existing.inZone ancestor exists_
  exact notMem_of_longer member inZone nextMember count absent inside (Nat.lt_of_not_le longer)
    present

/-! ## Making contents -/

/-- The names of a list up to case, which must be closed under ancestors within the zone. -/
def ofList (zone : Octets) (names : List Name) (inZone : ∀ name ∈ names, name.inZone zone = true)
    (closed : ∀ name ∈ names, ∀ suffix ∈ name.suffixes, suffix.inZone zone = true →
      ∃ other ∈ names, other.canonical = suffix.canonical) : ZoneNames zone where
  names := {name | ∃ listed ∈ names, listed.canonical = name.canonical}
  inZone := by
    rintro name ⟨listed, member, same⟩
    rw [← Name.inZone_congr same rfl]
    exact inZone listed member
  caseless := by
    rintro left right same ⟨listed, member, lowered⟩
    exact ⟨listed, member, lowered.trans same⟩
  closed := by
    rintro name ⟨listed, member, same⟩ suffix below inside
    -- the suffix is spelled as a suffix of the listed name, up to case
    obtain ⟨suffix', below', same'⟩ := Name.exists_suffix_of_canonical_eq same.symm below
    rw [← Name.inZone_congr same' rfl] at inside
    obtain ⟨other, present, lowered⟩ := closed listed member suffix' below' inside
    exact ⟨other, present, lowered.trans same'⟩

/-- The names that exist if one more name of the zone does. -/
def adjoin (existing : ZoneNames zone) (added : Name) : ZoneNames zone where
  names := {name | name ∈ existing ∨ (name.inZone zone = true ∧
    ∃ suffix ∈ added.suffixes, suffix.canonical = name.canonical)}
  inZone := by
    rintro name (present | ⟨inside, _⟩)
    · exact existing.inZone name present
    · exact inside
  caseless := by
    rintro left right same (present | ⟨inside, suffix, below, lowered⟩)
    · exact Or.inl (existing.caseless left right same present)
    · rw [Name.inZone_congr same rfl] at inside
      exact Or.inr ⟨inside, suffix, below, lowered.trans same⟩
  closed := by
    rintro name (present | ⟨_, suffix, below, lowered⟩) other member inside
    · exact Or.inl (existing.closed name present other member inside)
    · obtain ⟨suffix', below', lowered'⟩ :=
        Name.exists_suffix_of_canonical_eq lowered.symm member
      exact Or.inr ⟨inside, suffix', Name.suffixes_trans below' below, lowered'⟩

/-- The names that do not lie at or below a given one. -/
def prune (existing : ZoneNames zone) (top : Name) : ZoneNames zone where
  names := {name | name ∈ existing ∧ top.canonical ∉ name.canonical.suffixes}
  inZone name present := existing.inZone name present.1
  caseless left right same present :=
    ⟨existing.caseless left right same present.1, same ▸ present.2⟩
  closed name present suffix below inside := by
    refine ⟨existing.closed name present.1 suffix below inside, fun lower => present.2 ?_⟩
    exact Name.suffixes_trans lower (Name.canonical_mem_suffixes below)

end ZoneNames

/-- What is known of a name of a zone: its types, and the flags of the record that shows them. -/
structure ZoneEntry where
  name : Name
  types : List RRType
  flags : UInt8
  deriving DecidableEq

/-- The types that the entries of a zone have at a name in any case. -/
def typesAt (entries : List ZoneEntry) (name : Name) : List RRType :=
  match entries.find? fun entry => entry.name.canonical = name.canonical with
  | some entry => entry.types
  | none => []

/-- The content that the entries of a zone describe. -/
def ZoneContent.ofEntries (zone : Octets) (entries : List ZoneEntry)
    (inZone : ∀ entry ∈ entries, entry.name.inZone zone = true)
    (closed : ∀ entry ∈ entries, ∀ suffix ∈ entry.name.suffixes, suffix.inZone zone = true →
      ∃ other ∈ entries, other.name.canonical = suffix.canonical) : ZoneContent zone where
  toZoneNames := ZoneNames.ofList zone (entries.map ZoneEntry.name)
    (List.forall_mem_map.mpr inZone) (by simpa using closed)
  types := typesAt entries
  types_caseless left right same := by rw [typesAt, typesAt, same]

theorem ZoneContent.mem_ofEntries_iff {entries : List ZoneEntry} {name : Name} {inZone closed} :
    name ∈ ZoneContent.ofEntries zone entries inZone closed ↔
      ∃ entry ∈ entries, entry.name.canonical = name.canonical := by
  have listed : name ∈ ZoneContent.ofEntries zone entries inZone closed ↔
      ∃ listed ∈ entries.map ZoneEntry.name, listed.canonical = name.canonical := Iff.rfl
  rw [listed]
  simp

/-! ## Truthful records -/

/-- Records of one zone that match only names that exist and cover only names that do not. -/
structure Truthful {ρ : Type} [DenialRecord ρ] (existing : ZoneNames zone) (records : List ρ) :
    Prop where
  zone_eq : ∀ record ∈ records, Octets.lower (DenialRecord.zone record) = Octets.lower zone
  mem_of_matches : ∀ record ∈ records, ∀ name, matchesName record name = true → name ∈ existing
  notMem_of_covers : ∀ record ∈ records, ∀ name, coversName record name = true → name ∉ existing

/-- Truthful records that list exactly the types at the names they match. -/
structure Faithful {ρ : Type} [DenialRecord ρ] (content : ZoneContent zone) (records : List ρ) :
    Prop extends Truthful content.toZoneNames records where
  types_eq : ∀ record ∈ records, ∀ name, matchesName record name = true →
    DenialRecord.types record = content.types name

variable {ρ : Type} [DenialRecord ρ] [BEq ρ] {records : List ρ} {name : Name}

namespace Truthful

variable {existing : ZoneNames zone} (truthful : Truthful existing records)

include truthful

theorem mem_of_findMatching {found : List RRType}
    (returned : findMatching name records = .ok found) : name ∈ existing := by
  obtain ⟨record, member, matched, _⟩ := findMatching_eq_ok returned
  exact truthful.mem_of_matches record member name matched

theorem notMem_of_findCoverer {coverage : Coverage}
    (returned : findCoverer name records = .ok coverage) : name ∉ existing := by
  obtain ⟨record, member, covered, _⟩ := findCoverer_eq_ok returned
  exact truthful.notMem_of_covers record member name covered

end Truthful

theorem Faithful.types_of_findMatching {content : ZoneContent zone} {found : List RRType}
    (faithful : Faithful content records) (returned : findMatching name records = .ok found) :
    found = content.types name := by
  obtain ⟨record, member, matched, rfl⟩ := findMatching_eq_ok returned
  exact faithful.types_eq record member name matched

end HashedDenial
