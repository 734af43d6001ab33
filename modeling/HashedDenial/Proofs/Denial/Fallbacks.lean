import HashedDenial.Proofs.Denial.Ambiguity
import HashedDenial.Proofs.Name.Offsets
import HashedDenial.Proofs.Name.Positions
import HashedDenial.Proofs.Name.WireText
import HashedDenial.Proofs.Nsec3.Stream
import Mathlib.Data.Set.List

/-!
# Fallbacks that are never reached

Some steps of the verifiers have no result for every input: a wildcard may be too long, a name may
have no parent, a difference of label counts may not exist, and of no suffixes there is no last one.
Where the verifiers get to these steps, the checks before them have ruled that out. To say so, the
verifiers are written with an arbitrary verdict in each such place; whatever stands there, nothing
changes.
-/
namespace HashedDenial

open DenialRecord

/-- Verdicts for the steps of the verifiers that have no result for every input. -/
structure Fallbacks where
  /-- The closest encloser is so long that no wildcard fits below it. -/
  noRoom : Except DenialError Unit
  /-- The wildcard of an answer has no parent. -/
  noParent : Except DenialError Unit
  /-- The parent of the wildcard has more labels than the name. -/
  noDifference : Except DenialError Unit
  /-- No suffix of the name is longer than the parent of the wildcard. -/
  noNextCloser : Except DenialError Unit

variable {ρ : Type} [DenialRecord ρ] [BEq ρ]

namespace Fallbacks

variable (fallbacks : Fallbacks) (question : Question) (wildcard : Name) (records : List ρ)

/-- The verifier of name errors with the given fallbacks. -/
def verifyNameError : Except DenialError Unit := do
  let _ ← commonZone records
  let encloser ← requireEncloser question.name records
  ensure (encloser.closest ≠ question.name) .mismatch
  encloser.closest.wildcardChild?.elim fallbacks.noRoom fun wildcard => do
    let _ ← findCoverer wildcard records

/-- The verifier of answers from a wildcard with the given fallbacks. -/
def verifyWildcardAnswer : Except DenialError Unit := do
  let zone ← commonZone records
  ensure wildcard.isWildcard .mismatch
  wildcard.parent?.elim fallbacks.noParent fun encloser => do
    ensure (encloser.inZone zone ∧ question.name.inZone encloser.text ∧
      encloser.labelCount < question.name.labelCount) .mismatch
    (question.name.labelCount.psub' encloser.labelCount).elim fallbacks.noDifference fun count => do
      let closer := question.name.suffixes.take count
      closer.forM fun name => ensureUnmatched name records
      closer.getLast?.elim fallbacks.noNextCloser fun nextCloser => do
        let _ ← findCoverer nextCloser records

/-- The verifier of missing data at a wildcard with the given fallbacks. -/
def verifyWildcardNoData : Except DenialError Unit := do
  let _ ← commonZone records
  let encloser ← requireEncloser question.name records
  ensure (encloser.closest ≠ question.name) .mismatch
  let _ ← findCoverer encloser.nextCloser records
  encloser.closest.wildcardChild?.elim fallbacks.noRoom fun wildcard => do
    let types ← findMatching wildcard records
    ensure (¬ answers types question.type) .typeExists

end Fallbacks

/-- The verdict of the verifier for a kind of proof with the given fallbacks. The proofs at a single
name have no step that needs one. -/
def ProofKind.verifyWith (fallbacks : Fallbacks) (kind : ProofKind) (question : Question)
    (records : List ρ) : Except DenialError Unit :=
  match kind with
  | nameError => fallbacks.verifyNameError question records
  | noData => verifyNoData question records
  | delegation => verifyDelegation question.name records
  | wildcardNoData => fallbacks.verifyWildcardNoData question records
  | wildcardAnswer wildcard => fallbacks.verifyWildcardAnswer question wildcard records

section Verifiers

variable {fallbacks : Fallbacks} {question : Question} {wildcard : Name} {records : List ρ}

theorem elim_eq_valueOr_bind {α : Type} {found : Option α} {failure : DenialError}
    {fallback : Except DenialError Unit} {next : α → Except DenialError Unit}
    (present : ∃ value, found = some value) :
    found.elim fallback next = (valueOr failure found >>= next) := by
  obtain ⟨value, rfl⟩ := present
  rfl

/-- Below an encloser other than the name itself there is room for a wildcard. -/
theorem Encloses.exists_wildcardChild {encloser : Encloser}
    (encloses : Encloses records question.name encloser)
    (proper : encloser.closest ≠ question.name) :
    ∃ wildcard, encloser.closest.wildcardChild? = some wildcard :=
  Name.exists_wildcardChild encloses.closest_mem proper

theorem verifyNameError_fallbacks :
    fallbacks.verifyNameError question records = verifyNameError question records := by
  refine bind_congr_of_ok fun _ _ => bind_congr_of_ok fun encloser found =>
    bind_congr_of_ok fun _ passed => ?_
  have encloses := requireEncloser_eq_ok_iff.mp found
  have proper := (ensure_eq_ok_iff _ _).mp passed
  exact elim_eq_valueOr_bind (encloses.exists_wildcardChild proper)

theorem verifyWildcardNoData_fallbacks :
    fallbacks.verifyWildcardNoData question records = verifyWildcardNoData question records := by
  refine bind_congr_of_ok fun _ _ => bind_congr_of_ok fun encloser found =>
    bind_congr_of_ok fun _ passed => bind_congr_of_ok fun _ _ => ?_
  have encloses := requireEncloser_eq_ok_iff.mp found
  have proper := (ensure_eq_ok_iff _ _).mp passed
  exact elim_eq_valueOr_bind (encloses.exists_wildcardChild proper)

theorem Name.exists_parent? (starred : wildcard.isWildcard = true) :
    ∃ parent, wildcard.parent? = some parent := by
  cases wildcard using Name.labelInduction with
  | root => cases starred
  | child label parent short => exact ⟨parent, rfl⟩

theorem verifyWildcardAnswer_fallbacks :
    fallbacks.verifyWildcardAnswer question wildcard records =
      verifyWildcardAnswer question wildcard records := by
  refine bind_congr_of_ok fun zone _ => bind_congr_of_ok fun _ starred => ?_
  have parent := Name.exists_parent? ((ensure_eq_ok_iff _ _).mp starred)
  refine (elim_eq_valueOr_bind parent).trans (bind_congr_of_ok fun encloser _ =>
    bind_congr_of_ok fun _ passed => ?_)
  -- the encloser has fewer labels than the name, so the difference exists and is not zero
  obtain ⟨_, _, below⟩ := (ensure_eq_ok_iff _ _).mp passed
  have difference : question.name.labelCount.psub' encloser.labelCount =
      some (question.name.labelCount - encloser.labelCount) := if_pos below.le
  obtain ⟨nextCloser, _, last, _⟩ := Name.exists_getLast_take_suffixes (Nat.sub_pos_of_lt below)
    (Nat.sub_le question.name.labelCount encloser.labelCount)
  rw [difference]
  exact bind_congr_of_ok fun _ _ => elim_eq_valueOr_bind ⟨nextCloser, last⟩

theorem verifyWith_eq (fallbacks : Fallbacks) (kind : ProofKind) (question : Question)
    (records : List ρ) : kind.verifyWith fallbacks question records =
      kind.verify question records := by
  cases kind with
  | nameError => exact verifyNameError_fallbacks
  | noData => rfl
  | delegation => rfl
  | wildcardNoData => exact verifyWildcardNoData_fallbacks
  | wildcardAnswer wildcard => exact verifyWildcardAnswer_fallbacks

end Verifiers

/-! ## The audit -/

/-- Below every proper ancestor of a name there is room for a wildcard. -/
theorem Name.exists_wildcards (name : Name) : ∃ wildcards : List Name,
    name.suffixes.tail.map Name.wildcardChild? = wildcards.map some := by
  have built : name.suffixes.tail.map Name.wildcardChild? ∈ Set.range (List.map some) := by
    rw [Set.range_list_map]
    refine List.forall_mem_map.mpr fun ancestor above => ?_
    obtain ⟨member, proper⟩ := Name.mem_tail_suffixes_iff.mp above
    obtain ⟨wildcard, child⟩ := Name.exists_wildcardChild member proper
    exact ⟨wildcard, child.symm⟩
  obtain ⟨wildcards, same⟩ := built
  exact ⟨wildcards, same.symm⟩

theorem ProofKind.all_eq {name : Name} {wildcards : List Name}
    (built : name.suffixes.tail.map Name.wildcardChild? = wildcards.map some) :
    ProofKind.all name =
      [nameError, noData, delegation, wildcardNoData] ++ wildcards.map wildcardAnswer := by
  have tried : name.suffixes.tail.filterMap
      (fun ancestor => ancestor.wildcardChild?.map wildcardAnswer) =
        (name.suffixes.tail.map Name.wildcardChild?).filterMap (Option.map wildcardAnswer) := by
    rw [List.filterMap_map]
    rfl
  rw [all, tried, built, List.filterMap_map]
  simp

/-- No step of the verifiers fails for want of a result: a proper suffix leaves room for a wildcard,
so the verdicts of all kinds of proof and the proofs that an audit tries are the same whatever
is put in place of the missing results, and the zone test by offsets always has one. -/
theorem fallbacks_unreached :
    (∀ name : Name, ∀ suffix ∈ name.suffixes, suffix ≠ name →
      ∃ wildcard, suffix.wildcardChild? = some wildcard) ∧
    (∀ {ρ : Type} [DenialRecord ρ] [BEq ρ] (fallbacks : Fallbacks) (kind : ProofKind)
      (question : Question) (records : List ρ),
      kind.verifyWith fallbacks question records = kind.verify question records) ∧
    (∀ input question records, readResponse? input = some (question, records) →
      ∃ wildcards : List Name,
        question.name.suffixes.tail.map Name.wildcardChild? = wildcards.map some ∧
        audit input = ([ProofKind.nameError, .noData, .delegation, .wildcardNoData] ++
          wildcards.map ProofKind.wildcardAnswer).map fun kind =>
            LogEntry.ofVerdict kind question.name (kind.verify question records)) ∧
    ∀ (name : Name) (zone : Octets), name.inZoneByOffset? zone = some (name.inZone zone) := by
  refine ⟨fun name suffix member proper => Name.exists_wildcardChild member proper,
    verifyWith_eq, ?_, Name.inZoneByOffset?_eq⟩
  intro input question records read
  obtain ⟨wildcards, built⟩ := question.name.exists_wildcards
  refine ⟨wildcards, built, ?_⟩
  rw [audit, read, ← ProofKind.all_eq built]

/-- For a name that leaves no room itself, a proof is tried below each of its five ancestors. -/
theorem fallbacks_unreached_brim :
    (∃ wildcard, Sample.roomy.wildcardChild? = some wildcard) ∧
      (audit (Sample.brim.wire ++ [0, 1])).length = 9 := by
  obtain ⟨room, _, audits, _⟩ := fallbacks_unreached
  have proper : Sample.roomy ≠ Sample.brim := fun same =>
    absurd (congrArg Name.labelCount same) (by decide)
  have member : Sample.roomy ∈ Sample.brim.suffixes :=
    Name.mem_suffixes_iff.mpr (List.suffix_cons _ _)
  have read : readResponse? (Sample.brim.wire ++ [0, 1]) = some (⟨Sample.brim.canonical, 1⟩, []) := by
    have type : Octets.readNumber? 2 [0, 1] = some (1, []) := rfl
    have records : Nsec3.readStream? [] = some [] := Nsec3.readStream?_eq_some_iff.mpr (.done [])
    simp [readResponse?, Name.read?_wire, type, records]
  obtain ⟨wildcards, built, log⟩ := audits _ _ _ read
  have count := congrArg List.length built
  rw [List.length_map, List.length_map, List.length_tail, Name.length_suffixes] at count
  refine ⟨room _ _ member proper, ?_⟩
  rw [log, List.length_map, List.length_append, List.length_map, ← count]
  rfl

end HashedDenial
