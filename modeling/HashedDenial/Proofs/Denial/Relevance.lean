import HashedDenial.Proofs.Denial.Ambiguity
import HashedDenial.Proofs.Denial.Exclusion

/-!
# Records without a say

A proof about a name consults the suffixes of the name and the wildcards below them. The finders pass
over a record that says nothing of these names wherever it stands, and a record of the same zone
changes the common zone at most in its spelling. Such a record is never noticed.
-/
namespace HashedDenial

open DenialRecord

section Insertion

variable {ρ : Type} {before after : List ρ} {record : ρ} {name : Name} {question : Question}

theorem soleRecord_insert [BEq ρ] (condition : ρ → Bool) (unmet : condition record = false) :
    soleRecord condition (before ++ record :: after) = soleRecord condition (before ++ after) := by
  have passed : (before ++ record :: after).filter condition =
      (before ++ after).filter condition := by
    rw [List.filter_append, List.filter_append, List.filter_cons_of_neg (by simp [unmet])]
  rw [soleRecord, soleRecord, passed]

variable [DenialRecord ρ]

/-- Whether a record says nothing of any name that a proof about `name` may consult. -/
def Irrelevant (record : ρ) (name : Name) : Prop :=
  ∀ other, Consults name other →
    matchesName record other = false ∧ coversName record other = false

section Zone

variable (nonempty : before ++ after ≠ [])
  (zones : ∀ other ∈ before ++ after, (zone other).lower = (zone record).lower)

include nonempty zones

/-- At the head of the list the record hands its own spelling of the zone on. -/
theorem commonZone_insert : (commonZone (before ++ record :: after)).map Octets.lower =
    (commonZone (before ++ after)).map Octets.lower := by
  have zones' : ∀ other ∈ before ++ record :: after,
      (zone other).lower = (zone record).lower := by
    intro other member
    rcases List.mem_append.mp member with earlier | later
    · exact zones other (List.mem_append_left _ earlier)
    · rcases List.mem_cons.mp later with rfl | behind
      · rfl
      · exact zones other (List.mem_append_right _ behind)
  obtain ⟨common, zoned, spelled⟩ := exists_commonZone nonempty zones
  obtain ⟨common', zoned', spelled'⟩ := exists_commonZone (by simp) zones'
  rw [zoned, zoned']
  exact congrArg Except.ok (spelled'.trans spelled.symm)

theorem Irrelevant.sameAnswers [BEq ρ] (irrelevant : Irrelevant record name) :
    SameAnswers (before ++ record :: after) (before ++ after) name where
  zone := commonZone_insert nonempty zones
  matching other consulted := by
    rw [findMatching, findMatching,
      soleRecord_insert (matchesName · other) (irrelevant other consulted).1]
  covering other consulted := by
    rw [findCoverer, findCoverer,
      soleRecord_insert (coversName · other) (irrelevant other consulted).2]

/-- A record of the zone that says nothing of the names consulted changes no verdict, errors
included, at whatever place it is put into the list. -/
theorem verify_insert_of_irrelevant [BEq ρ] (irrelevant : Irrelevant record question.name)
    (kind : ProofKind) :
    kind.verify question (before ++ record :: after) = kind.verify question (before ++ after) :=
  (irrelevant.sameAnswers nonempty zones).verify_eq kind

end Zone

end Insertion

/-! ## Records that say nothing at all -/

namespace Nsec3

variable {record : Nsec3} {name : Name}

theorem hashes?_eq_none (mute : record.params.algorithm ≠ sha1Algorithm ∨
    record.ownerHash? = none) (name : Name) : record.hashes? name = none := by
  rw [hashes?]
  split
  · rcases mute with unknown | unheld
    · have unhashed : record.params.hash? name = none := HashParams.hash?_eq_none_iff.mpr unknown
      cases record.ownerHash? <;> simp [unhashed]
    · simp [unheld]
  · rfl

/-- A record with an unknown hash algorithm, or with an owner that holds no hash, has no say. -/
theorem irrelevant_of_mute (mute : record.params.algorithm ≠ sha1Algorithm ∨
    record.ownerHash? = none) (name : Name) : Irrelevant record name := by
  intro other _
  have silent := hashes?_eq_none mute other
  constructor
  · change record.matchesName other = false
    rw [matchesName, silent]
    rfl
  · change record.coversName other = false
    rw [coversName, silent]
    rfl

end Nsec3

namespace Sample

/-- A record of the root zone that is hashed by an unknown algorithm. -/
def unknownRecord : Nsec3 :=
  { lowRecord with params := { lowRecord.params with algorithm := 2 } }

/-- A record of the root zone whose owner `z.` holds no hash. -/
def plainOwner : Nsec3 := ringRecord ⟨[0x7a], by decide⟩ []

end Sample

/-- A record with an unknown algorithm at the head and one without a hash in the middle leave the
type at `e.` denied. -/
theorem verify_insert_of_irrelevant_mute :
    (∀ kind : ProofKind, kind.verify ⟨Sample.apex, RRType.soa⟩
        (Sample.unknownRecord :: Sample.repeatedRecords) =
      kind.verify ⟨Sample.apex, RRType.soa⟩ Sample.repeatedRecords) ∧
    ProofKind.noData.verify ⟨Sample.apex, RRType.soa⟩
      (Sample.namedRing ++ Sample.plainOwner :: Sample.namedRing.take 1) = .ok () := by
  have unknown : Irrelevant Sample.unknownRecord Sample.apex :=
    Nsec3.irrelevant_of_mute (Or.inl (by decide)) Sample.apex
  have unheld : Irrelevant Sample.plainOwner Sample.apex :=
    Nsec3.irrelevant_of_mute (Or.inr (by decide)) Sample.apex
  constructor
  · exact @verify_insert_of_irrelevant _ [] Sample.repeatedRecords Sample.unknownRecord
      ⟨Sample.apex, RRType.soa⟩ _ (by decide) (by decide) _ unknown
  · have denied := Sample.verify_noData_repeatedRecords
    rw [Sample.repeatedRecords, ← verify_insert_of_irrelevant (by decide) (by decide) unheld]
      at denied
    exact denied

end HashedDenial
