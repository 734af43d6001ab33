import HashedDenial.Proofs.Denial.Ambiguity
import HashedDenial.Proofs.Nsec3.Partition

/-!
# The set of the records decides

A finder takes the first record that meets its condition and compares the later ones with it, and
the zone of the first record is compared with the others. Where comparing is an equivalence it does
not matter which record comes first, so neither order nor repetition shows in any answer.
-/
namespace HashedDenial

open DenialRecord

/-- Records that are compared by an equivalence and answer every question as their equals do. -/
class CongruentRecord (ρ : Type) [DenialRecord ρ] [BEq ρ] : Prop extends EquivBEq ρ where
  matchesName_eq {left right : ρ} :
    (left == right) = true → matchesName left = matchesName right
  coversName_eq {left right : ρ} : (left == right) = true → coversName left = coversName right
  types_eq {left right : ρ} : (left == right) = true → types left = types right
  optOut_eq {left right : ρ} : (left == right) = true → optOut left = optOut right
  zone_eq {left right : ρ} : (left == right) = true → zone left = zone right

instance {ρ : Type} [DenialRecord ρ] [BEq ρ] [LawfulBEq ρ] : CongruentRecord ρ where
  matchesName_eq same := congrArg matchesName (eq_of_beq same)
  coversName_eq same := congrArg coversName (eq_of_beq same)
  types_eq same := congrArg types (eq_of_beq same)
  optOut_eq same := congrArg optOut (eq_of_beq same)
  zone_eq same := congrArg zone (eq_of_beq same)

/-- Whether each record of either list compares equal to some record of the other. -/
structure SameRecords {ρ : Type} [BEq ρ] (left right : List ρ) : Prop where
  left_listed : ∀ record ∈ left, ∃ other ∈ right, (record == other) = true
  right_listed : ∀ record ∈ right, ∃ other ∈ left, (record == other) = true

variable {ρ : Type} [BEq ρ] {left right : List ρ}

namespace SameRecords

theorem symm (same : SameRecords left right) : SameRecords right left :=
  ⟨same.right_listed, same.left_listed⟩

theorem eq_nil (same : SameRecords [] right) : right = [] := by
  refine List.eq_nil_iff_forall_not_mem.mpr fun record member => ?_
  obtain ⟨_, absent, _⟩ := same.right_listed record member
  cases absent

theorem isEmpty_eq (same : SameRecords left right) : left.isEmpty = right.isEmpty := by
  cases left with
  | nil => rw [same.eq_nil]
  | cons first others =>
    cases right with
    | nil => cases same.symm.eq_nil
    | cons first' others' => rfl

theorem filter {condition : ρ → Bool}
    (respects : ∀ {record other}, (record == other) = true → condition record = condition other)
    (same : SameRecords left right) :
    SameRecords (left.filter condition) (right.filter condition) := by
  have listed {one two : List ρ} (each : ∀ record ∈ one, ∃ other ∈ two, (record == other) = true) :
      ∀ record ∈ one.filter condition, ∃ other ∈ two.filter condition,
        (record == other) = true := by
    intro record hit
    obtain ⟨member, holds⟩ := List.mem_filter.mp hit
    obtain ⟨other, member', equal⟩ := each record member
    exact ⟨other, List.mem_filter.mpr ⟨member', respects equal ▸ holds⟩, equal⟩
  exact ⟨listed same.left_listed, listed same.right_listed⟩

/-- If all records of one list are alike, any record of the other may stand for all of that list. -/
theorem forall_beq [EquivBEq ρ] (same : SameRecords left right) {first other : ρ}
    (alike : ∀ record ∈ left, (record == first) = true) (member : other ∈ right) :
    ∀ record ∈ right, (record == other) = true := by
  have toFirst (record : ρ) (listed : record ∈ right) : (record == first) = true := by
    obtain ⟨record', listed', equal⟩ := same.right_listed record listed
    exact BEq.trans equal (alike record' listed')
  intro record listed
  exact BEq.trans (toFirst record listed) (BEq.symm (toFirst other member))

end SameRecords

/-! ## The finders -/

theorem any_bne_eq_false_iff_cons [EquivBEq ρ] {first : ρ} {others : List ρ} :
    others.any (· != first) = false ↔ ∀ record ∈ first :: others, (record == first) = true := by
  rw [any_bne_eq_false_iff, List.forall_mem_cons]
  exact (and_iff_right (BEq.refl first)).symm

/-- The sole record of equal sets is the same as far as its equals do not differ. -/
theorem SameRecords.map_soleRecord_eq [EquivBEq ρ] {α : Type} {condition : ρ → Bool} {f : ρ → α}
    (same : SameRecords left right)
    (respects : ∀ {record other}, (record == other) = true → condition record = condition other)
    (agrees : ∀ {record other}, (record == other) = true → f record = f other) :
    (soleRecord condition left).map f = (soleRecord condition right).map f := by
  have hits := same.filter respects
  unfold soleRecord
  generalize left.filter condition = found at hits ⊢
  generalize right.filter condition = found' at hits ⊢
  obtain _ | ⟨first, others⟩ := found <;> obtain _ | ⟨first', others'⟩ := found'
  · rfl
  · cases hits.isEmpty_eq
  · cases hits.isEmpty_eq
  · -- one list holds records that differ exactly if the other does
    have alike : others.any (· != first) = others'.any (· != first') := by
      rw [← Bool.not_inj_iff, Bool.eq_iff_iff, Bool.not_eq_true', Bool.not_eq_true',
        any_bne_eq_false_iff_cons, any_bne_eq_false_iff_cons]
      exact ⟨fun every => hits.forall_beq every List.mem_cons_self,
        fun every => hits.symm.forall_beq every List.mem_cons_self⟩
    dsimp only
    rw [alike]
    split
    · rfl
    next differ =>
      have every := any_bne_eq_false_iff_cons.mp (Bool.not_eq_true _ ▸ differ)
      obtain ⟨other, member, equal⟩ := hits.left_listed first List.mem_cons_self
      exact congrArg Except.ok (agrees (BEq.trans equal (every other member)))

variable [DenialRecord ρ]

namespace SameRecords

variable [CongruentRecord ρ]

theorem exists_commonZone (same : SameRecords left right) {common : Octets}
    (zoned : commonZone left = .ok common) :
    ∃ common', commonZone right = .ok common' ∧ Octets.lower common' = Octets.lower common := by
  obtain ⟨first, others, rfl, -, alike⟩ := commonZone_eq_ok_iff.mp zoned
  apply HashedDenial.exists_commonZone
  · rintro rfl
    cases same.isEmpty_eq
  · intro record member
    obtain ⟨other, listed, equal⟩ := same.right_listed record member
    rw [CongruentRecord.zone_eq equal]
    exact alike other listed

theorem commonZone_eq (same : SameRecords left right) :
    (commonZone left).map Octets.lower = (commonZone right).map Octets.lower := by
  cases zoned : commonZone left with
  | ok common =>
    obtain ⟨common', zoned', spelled⟩ := same.exists_commonZone zoned
    rw [zoned']
    exact congrArg Except.ok spelled.symm
  | error failure =>
    cases zoned' : commonZone right with
    | ok common' =>
      obtain ⟨common, zoned'', _⟩ := same.symm.exists_commonZone zoned'
      rw [zoned] at zoned''
      cases zoned''
    | error failure' =>
      rw [commonZone_eq_error zoned, commonZone_eq_error zoned', same.isEmpty_eq]

/-- Lists of the same records give the same answers. -/
theorem sameAnswers (same : SameRecords left right) (name : Name) :
    SameAnswers left right name where
  zone := same.commonZone_eq
  matching other _ := same.map_soleRecord_eq
    (fun equal => congrFun (CongruentRecord.matchesName_eq equal) other) CongruentRecord.types_eq
  covering other _ := same.map_soleRecord_eq
    (fun equal => congrFun (CongruentRecord.coversName_eq equal) other)
    fun equal => by rw [CongruentRecord.types_eq equal, CongruentRecord.optOut_eq equal]

end SameRecords

/-! ## Answers and verdicts -/

/-- Lists of the same records, in whatever order and however often each of them is repeated, give
the same answers and the same verdicts, errors included. -/
theorem sameRecords_decide_alike [CongruentRecord ρ] (same : SameRecords left right) :
    (∀ name, findMatching name left = findMatching name right) ∧
    (∀ name, findCoverer name left = findCoverer name right) ∧
    (∀ name, findClosestEncloser name left = findClosestEncloser name right) ∧
    ∀ (kind : ProofKind) (question : Question),
      kind.verify question left = kind.verify question right := by
  have self (name : Name) : Consults name name := Or.inl (Name.self_mem_suffixes name)
  refine ⟨fun name => ?_, fun name => ?_, fun name => ?_, fun kind question => ?_⟩
  · exact (same.sameAnswers name).matching name (self name)
  · exact (same.sameAnswers name).covering name (self name)
  · exact (same.sameAnswers name).findClosestEncloser_eq
  · exact (same.sameAnswers question.name).verify_eq kind

namespace Sample

/-- Two records that stand at one hash and differ in their flags. -/
def contending : List Nsec3 := [lowRecord, { lowRecord with flags := 1 }]

def reordered : List Nsec3 :=
  [{ lowRecord with flags := 1 }, lowRecord, { lowRecord with flags := 1 }]

end Sample

theorem sameRecords_decide_alike_reordered :
    SameRecords Sample.contending Sample.reordered ∧
      (∀ name, findMatching name Sample.contending = findMatching name Sample.reordered) ∧
      (∀ name, findCoverer name Sample.contending = findCoverer name Sample.reordered) ∧
      (∀ name, findClosestEncloser name Sample.contending =
        findClosestEncloser name Sample.reordered) ∧
      ∀ (kind : ProofKind) (question : Question),
        kind.verify question Sample.contending = kind.verify question Sample.reordered := by
  have same : SameRecords Sample.contending Sample.reordered := ⟨by decide, by decide⟩
  exact ⟨same, sameRecords_decide_alike same⟩

end HashedDenial
