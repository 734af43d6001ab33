import HashedDenial.Denial.Encloser
import HashedDenial.Proofs.Name.Suffixes

/-!
# What the finders return

A finder that succeeds returns a record of the list, and one that finds nothing has seen every
record of the list fail. The search for the closest encloser stops at the longest suffix that is
matched, one label below the next closer name.
-/
namespace HashedDenial

open DenialRecord

/-! ## Computations that may fail -/

section Except

variable {ε α β : Type}

theorem bind_eq_ok_iff {first : Except ε α} {next : α → Except ε β} {result : β} :
    (first >>= next) = .ok result ↔ ∃ value, first = .ok value ∧ next value = .ok result := by
  cases first with
  | error failure => simp [bind, Except.bind]
  | ok value => simp [bind, Except.bind]

theorem bind_congr_of_ok {first : Except ε α} {next next' : α → Except ε β}
    (same : ∀ value, first = .ok value → next value = next' value) :
    (first >>= next) = (first >>= next') := by
  cases first with
  | error failure => rfl
  | ok value => exact same value rfl

theorem map_eq_ok_iff {computed : Except ε α} {f : α → β} {result : β} :
    computed.map f = .ok result ↔ ∃ value, computed = .ok value ∧ f value = result := by
  cases computed <;> simp [Except.map]

theorem map_eq_error_iff {computed : Except ε α} {f : α → β} {failure : ε} :
    computed.map f = .error failure ↔ computed = .error failure := by
  cases computed <;> simp [Except.map]

end Except

variable {ρ : Type} [BEq ρ] {records : List ρ} {name : Name}

/-! ## Single records -/

theorem any_bne_eq_false_iff {first : ρ} {others : List ρ} :
    others.any (· != first) = false ↔ ∀ other ∈ others, (other == first) = true := by
  simp [List.any_eq_false, bne]

theorem soleRecord_eq_ok {condition : ρ → Bool} {record : ρ}
    (found : soleRecord condition records = .ok record) :
    record ∈ records ∧ condition record = true := by
  unfold soleRecord at found
  split at found
  · cases found
  next first others hits =>
    split at found
    · cases found
    · cases found
      have member : record ∈ records.filter condition := by
        rw [hits]
        exact List.mem_cons_self
      exact List.mem_filter.mp member

theorem soleRecord_eq_missing_iff {condition : ρ → Bool} :
    soleRecord condition records = .error .missingCoverage ↔
      ∀ record ∈ records, condition record = false := by
  have empty : records.filter condition = [] ↔ ∀ record ∈ records, condition record = false := by
    simp [List.filter_eq_nil_iff]
  rw [← empty]
  unfold soleRecord
  split
  next hits => simp [hits]
  next first others hits =>
    rw [hits]
    split <;> simp

/-- A record that no other record of the list contends with is found. -/
theorem soleRecord_of_unique [LawfulBEq ρ] {condition : ρ → Bool} {record : ρ}
    (member : record ∈ records) (holds : condition record = true)
    (unique : ∀ other ∈ records, condition other = true → other = record) :
    soleRecord condition records = .ok record := by
  have all_same (other : ρ) (hit : other ∈ records.filter condition) : other = record := by
    obtain ⟨present, met⟩ := List.mem_filter.mp hit
    exact unique other present met
  have present : record ∈ records.filter condition := List.mem_filter.mpr ⟨member, holds⟩
  -- repetitions of the record are all that the list can hold besides it
  unfold soleRecord
  split
  next hits => simp [hits] at present
  next first others hits =>
    rw [hits] at all_same
    have agreed : others.any (· != first) = false := by
      rw [any_bne_eq_false_iff]
      intro other later
      rw [all_same other (List.mem_cons_of_mem _ later), all_same first List.mem_cons_self]
      exact beq_self_eq_true record
    rw [agreed, all_same first List.mem_cons_self]
    rfl

variable [DenialRecord ρ]

theorem findMatching_eq_ok {found : List RRType}
    (returned : findMatching name records = .ok found) :
    ∃ record ∈ records, matchesName record name = true ∧ types record = found := by
  obtain ⟨record, sole, same⟩ := map_eq_ok_iff.mp returned
  obtain ⟨member, matched⟩ := soleRecord_eq_ok sole
  exact ⟨record, member, matched, same⟩

theorem findMatching_eq_missing_iff :
    findMatching name records = .error .missingCoverage ↔
      ∀ record ∈ records, matchesName record name = false :=
  map_eq_error_iff.trans soleRecord_eq_missing_iff

theorem findCoverer_eq_ok {coverage : Coverage}
    (returned : findCoverer name records = .ok coverage) :
    ∃ record ∈ records, coversName record name = true ∧
      coverage = ⟨types record, optOut record⟩ := by
  obtain ⟨record, sole, same⟩ := map_eq_ok_iff.mp returned
  obtain ⟨member, covered⟩ := soleRecord_eq_ok sole
  exact ⟨record, member, covered, same.symm⟩

theorem findCoverer_eq_missing_iff :
    findCoverer name records = .error .missingCoverage ↔
      ∀ record ∈ records, coversName record name = false :=
  map_eq_error_iff.trans soleRecord_eq_missing_iff

/-! ## The closest encloser -/

/-- The search passes over unmatched names and keeps the last of them as the next closer name. -/
theorem firstMatched_eq_some_iff {before : Name} {names : List Name} {encloser : Encloser} :
    firstMatched records before names = .ok (some encloser) ↔
      ∃ skipped rest, names = skipped ++ encloser.closest :: rest ∧
        (∀ name ∈ skipped, findMatching name records = .error .missingCoverage) ∧
        (∃ found, findMatching encloser.closest records = .ok found) ∧
        encloser.nextCloser = skipped.getLastD before := by
  -- on the names still to be tried: each is returned, passed over, or ends the search
  induction names generalizing before with
  | nil => simp [firstMatched]
  | cons name names ih =>
    unfold firstMatched
    split
    next found matched =>
      constructor
      · intro same
        cases same
        exact ⟨[], names, rfl, by simp, ⟨found, matched⟩, rfl⟩
      · rintro ⟨_ | ⟨first, skipped⟩, rest, split, passed, _, last⟩
        · obtain ⟨rfl, rfl⟩ := List.cons.inj split
          rw [List.getLastD_nil] at last
          rw [← last]
        · -- the name is matched, so it cannot be among those passed over
          obtain ⟨rfl, _⟩ := List.cons.inj split
          rw [passed name List.mem_cons_self] at matched
          cases matched
    next missing =>
      rw [ih]
      constructor
      · rintro ⟨skipped, rest, rfl, passed, matched, last⟩
        refine ⟨name :: skipped, rest, rfl, ?_, matched, by rw [last, List.getLastD_cons]⟩
        exact List.forall_mem_cons.mpr ⟨missing, passed⟩
      · rintro ⟨_ | ⟨first, skipped⟩, rest, split, passed, ⟨found, matched⟩, last⟩
        · obtain ⟨rfl, rfl⟩ := List.cons.inj split
          rw [missing] at matched
          cases matched
        · obtain ⟨rfl, rfl⟩ := List.cons.inj split
          rw [List.getLastD_cons] at last
          exact ⟨skipped, rest, rfl, (List.forall_mem_cons.mp passed).2, ⟨found, matched⟩, last⟩
    next failure other failed =>
      -- records that disagree about the name leave nothing to return
      constructor
      · intro same
        cases same
      · rintro ⟨_ | ⟨first, skipped⟩, rest, split, passed, ⟨found, matched⟩, last⟩
        · obtain ⟨rfl, rfl⟩ := List.cons.inj split
          rw [failed] at matched
          cases matched
        · obtain ⟨rfl, _⟩ := List.cons.inj split
          rw [passed name List.mem_cons_self] at failed
          cases failed
          exact absurd rfl other

/-- The search finds nothing exactly if no name is matched. -/
theorem firstMatched_eq_none_iff {before : Name} {names : List Name} :
    firstMatched records before names = .ok none ↔
      ∀ name ∈ names, findMatching name records = .error .missingCoverage := by
  induction names generalizing before with
  | nil => simp [firstMatched]
  | cons name names ih =>
    rw [List.forall_mem_cons, firstMatched]
    split
    next found matched => simp [matched]
    next missing => rw [ih, and_iff_right missing]
    next failure other failed =>
      have absent : failure ≠ .missingCoverage := other
      simp [failed, absent]

/-- What the closest encloser and the next closer name of a name are among its suffixes. -/
structure Encloses (records : List ρ) (name : Name) (encloser : Encloser) : Prop where
  closest_mem : encloser.closest ∈ name.suffixes
  matched : ∃ found, findMatching encloser.closest records = .ok found
  unmatched : ∀ closer ∈ name.suffixes, encloser.closest.labelCount < closer.labelCount →
    findMatching closer records = .error .missingCoverage
  nextCloser_mem : encloser.nextCloser ∈ name.suffixes
  nextCloser_count : encloser.nextCloser.labelCount =
    min name.labelCount (encloser.closest.labelCount + 1)

theorem findClosestEncloser_eq_some_iff {encloser : Encloser} :
    findClosestEncloser name records = .ok (some encloser) ↔ Encloses records name encloser := by
  unfold findClosestEncloser
  rw [firstMatched_eq_some_iff]
  constructor
  · rintro ⟨skipped, rest, split, passed, matched, last⟩
    have next := Name.getLastD_longer split
    rw [← last] at next
    have member : encloser.closest ∈ name.suffixes := by
      rw [split]
      exact List.mem_append_right _ List.mem_cons_self
    exact ⟨member, matched,
      fun closer inside longer => passed closer ((Name.mem_longer_iff split).mpr ⟨inside, longer⟩),
      next.1, next.2⟩
  · intro encloses
    obtain ⟨skipped, rest, split⟩ := List.append_of_mem encloses.closest_mem
    have next := Name.getLastD_longer split
    refine ⟨skipped, rest, split, ?_, encloses.matched, ?_⟩
    · intro closer passed
      obtain ⟨inside, longer⟩ := (Name.mem_longer_iff split).mp passed
      exact encloses.unmatched closer inside longer
    · exact Name.eq_of_labelCount_eq encloses.nextCloser_mem next.1
        (encloses.nextCloser_count.trans next.2.symm)

theorem findClosestEncloser_eq_none_iff :
    findClosestEncloser name records = .ok none ↔
      ∀ suffix ∈ name.suffixes, findMatching suffix records = .error .missingCoverage :=
  firstMatched_eq_none_iff

theorem requireEncloser_eq_ok_iff {encloser : Encloser} :
    requireEncloser name records = .ok encloser ↔ Encloses records name encloser := by
  rw [← findClosestEncloser_eq_some_iff, requireEncloser, bind_eq_ok_iff]
  simp

namespace Encloses

variable {encloser : Encloser} (encloses : Encloses records name encloser)

include encloses

/-- Unless the name itself is matched, the next closer name is one label below the encloser. -/
theorem nextCloser_of_ne (proper : encloser.closest ≠ name) :
    encloser.nextCloser.labelCount = encloser.closest.labelCount + 1 := by
  have shorter := Name.labelCount_lt_of_ne encloses.closest_mem proper
  have counted := encloses.nextCloser_count
  omega

theorem closest_mem_suffixes {closer : Name} (member : closer ∈ name.suffixes)
    (longer : encloser.closest.labelCount ≤ closer.labelCount) :
    encloser.closest ∈ closer.suffixes :=
  Name.mem_suffixes_of_le encloses.closest_mem member longer

end Encloses

end HashedDenial
