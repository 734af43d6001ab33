import HashedDenial.Denial.Audit
import HashedDenial.Proofs.Denial.PlainRecord
import HashedDenial.Proofs.Denial.Verdicts
import HashedDenial.Proofs.Nsec3.Partition
import Mathlib.Data.List.Pairwise

/-!
# Denials exclude each other

A response without an answer is explained by a missing name, by a missing type at the name, or by a
missing type at a wildcard. The three proofs look at the records in different ways, but any choice
of records from one ring supports at most one of them, since on a ring no name is both matched and
covered. Only the type of delegation signers is apart: it may be missing without a record at the
name.
-/
namespace HashedDenial

open DenialRecord

/-- The kinds of proof that explain a response without an answer. -/
def ProofKind.denials : List ProofKind := [nameError, noData, wildcardNoData]

/-! ## Coherent records -/

/-- Records of which none covers a name that another matches. -/
def Coherent {ρ : Type} [DenialRecord ρ] (records : List ρ) : Prop :=
  ∀ name, (∃ record ∈ records, matchesName record name = true) →
    ∀ record ∈ records, coversName record name = false

section Coherent

variable {ρ : Type} [DenialRecord ρ] {records chosen : List ρ} {question : Question}
  {name wildcard : Name}

theorem Coherent.choose (coherent : Coherent records) (choice : chosen ⊆ records) :
    Coherent chosen := by
  rintro name ⟨record, member, matched⟩ other member'
  exact coherent name ⟨record, choice member, matched⟩ other (choice member')

variable [BEq ρ]

theorem Coherent.findCoverer_eq_missing (coherent : Coherent records) {found : List RRType}
    (matched : findMatching name records = .ok found) :
    findCoverer name records = .error .missingCoverage := by
  obtain ⟨record, member, speaks, _⟩ := findMatching_eq_ok matched
  exact findCoverer_eq_missing_iff.mpr (coherent name ⟨record, member, speaks⟩)

/-! ## What each denial shows -/

theorem Encloses.unmatched_self {encloser : Encloser} (encloses : Encloses records name encloser)
    (proper : encloser.closest ≠ name) : findMatching name records = .error .missingCoverage :=
  encloses.unmatched name (Name.self_mem_suffixes name)
    (Name.labelCount_lt_of_ne encloses.closest_mem proper)

theorem Encloses.eq {encloser encloser' : Encloser} (encloses : Encloses records name encloser)
    (encloses' : Encloses records name encloser') : encloser = encloser' := by
  have found := findClosestEncloser_eq_some_iff.mpr encloses
  rw [findClosestEncloser_eq_some_iff.mpr encloses'] at found
  cases found
  rfl

/-- Apart from delegation signers, a type is denied by the record at the name. -/
theorem matched_of_verifyNoData (notSigner : question.type ≠ RRType.ds)
    (accepted : verifyNoData question records = .ok ()) :
    ∃ found, findMatching question.name records = .ok found := by
  obtain ⟨_, ⟨found, matched, _⟩ | ⟨_, signer, _⟩⟩ := verifyNoData_eq_ok_iff.mp accepted
  · exact ⟨found, matched⟩
  · exact absurd signer notSigner

theorem unmatched_of_verifyNameError (accepted : verifyNameError question records = .ok ()) :
    findMatching question.name records = .error .missingCoverage := by
  obtain ⟨_, encloser, encloses, proper, _⟩ := verifyNameError_eq_ok_iff.mp accepted
  exact encloses.unmatched_self proper

theorem unmatched_of_verifyWildcardNoData
    (accepted : verifyWildcardNoData question records = .ok ()) :
    findMatching question.name records = .error .missingCoverage := by
  obtain ⟨_, encloser, encloses, proper, _⟩ := verifyWildcardNoData_eq_ok_iff.mp accepted
  exact encloses.unmatched_self proper

/-- Both proofs find one encloser, and the wildcard below it cannot be covered and matched. -/
theorem Coherent.not_verifyWildcardNoData (coherent : Coherent records)
    (accepted : verifyNameError question records = .ok ()) :
    verifyWildcardNoData question records ≠ .ok () := by
  intro accepted'
  obtain ⟨_, encloser, encloses, _, wildcard, built, coverage, covered⟩ :=
    verifyNameError_eq_ok_iff.mp accepted
  obtain ⟨_, encloser', encloses', _, _, wildcard', built', found, matched, _⟩ :=
    verifyWildcardNoData_eq_ok_iff.mp accepted'
  obtain rfl := encloses.eq encloses'
  cases built.symm.trans built'
  rw [coherent.findCoverer_eq_missing matched] at covered
  cases covered

/-- Coherent records support at most one denial. -/
theorem Coherent.pairwise_denials (coherent : Coherent records)
    (notSigner : question.type ≠ RRType.ds) :
    ProofKind.denials.Pairwise fun kind kind' =>
      ¬ (kind.verify question records = .ok () ∧ kind'.verify question records = .ok ()) := by
  simp only [ProofKind.denials, List.pairwise_cons, List.forall_mem_cons, List.not_mem_nil,
    IsEmpty.forall_iff, implies_true, and_true, List.Pairwise.nil]
  refine ⟨⟨?_, ?_⟩, ?_⟩
  · -- the record that lacks the type matches a name that is said to be missing
    rintro ⟨nameError, noData⟩
    obtain ⟨found, matched⟩ := matched_of_verifyNoData notSigner noData
    cases matched.symm.trans (unmatched_of_verifyNameError nameError)
  · -- the two agree on the name, so only the wildcard can tell them apart
    rintro ⟨nameError, wildcardNoData⟩
    exact coherent.not_verifyWildcardNoData nameError wildcardNoData
  · rintro ⟨noData, wildcardNoData⟩
    obtain ⟨found, matched⟩ := matched_of_verifyNoData notSigner noData
    cases matched.symm.trans (unmatched_of_verifyWildcardNoData wildcardNoData)

end Coherent

/-! ## Rings -/

namespace Nsec3

variable {record : Nsec3} {salt : Octets} {iterations : UInt16} {chain records : List Nsec3}
  {question : Question}

/-- Records that are hashed alike and are linked to a ring when they are put in order. They need not
be of one zone, which the verifiers see to themselves. -/
structure IsHashRing (salt : Octets) (iterations : UInt16) (records : List Nsec3) : Prop where
  params_eq : ∀ record ∈ records, record.params = ⟨sha1Algorithm, iterations, salt⟩
  linked : ∃ owners ring, Linked owners ring ∧ ring.Perm records

theorem IsRing.isHashRing {zone : Octets} (ring : IsRing zone salt iterations records) :
    IsHashRing salt iterations records :=
  ⟨ring.params_eq, ring.linked⟩

theorem IsHashRing.hash?_params (ring : IsHashRing salt iterations records)
    (member : record ∈ records) (name : Name) :
    record.params.hash? name = some (iteratedDigest salt name.wire iterations.toNat) := by
  rw [ring.params_eq record member, HashParams.hash?_sha1]

/-- A record matches a name only at an owner of the ring, and no gap of the ring holds an owner. -/
theorem IsHashRing.coherent (ring : IsHashRing salt iterations records) : Coherent records := by
  obtain ⟨owners, order, linked, perm⟩ := ring.linked
  rintro name ⟨record, member, matched⟩ other member'
  have standing := linked.mem_of_matchesName (perm.mem_iff.mpr member)
    (ring.hash?_params member name) matched
  exact linked.coversName_eq_false (perm.mem_iff.mpr member') (ring.hash?_params member' name)
    standing

/-- Whatever records are chosen from a ring, in any order and however often, at most one of the
denials is accepted. -/
theorem IsHashRing.denials_exclusive (ring : IsHashRing salt iterations chain)
    (choice : records ⊆ chain) (notSigner : question.type ≠ RRType.ds) :
    ∀ kind ∈ ProofKind.denials, ∀ kind' ∈ ProofKind.denials,
      kind.verify question records = .ok () → kind'.verify question records = .ok () →
        kind = kind' := by
  intro kind listed kind' listed' accepted accepted'
  by_contra different
  have symmetric : Std.Symm fun kind kind' : ProofKind =>
      ¬ (kind.verify question records = .ok () ∧ kind'.verify question records = .ok ()) :=
    ⟨fun _ _ apart both => apart both.symm⟩
  have exclusive := (ring.coherent.choose choice).pairwise_denials notSigner
  exact exclusive.forall listed listed' different ⟨accepted, accepted'⟩

end Nsec3

namespace Sample

/-- The text of the hash of the root, without salt or iterations. -/
def rootDigits : Label := ⟨Octets.ofString "bekjp7dgpvsjukll47bk43i3urmq4u2f", by decide +kernel⟩

/-- The text of the hash of `e.` -/
def apexDigits : Label := ⟨Octets.ofString "st9bph2k2c8fk0rlcilf76ch6ka0p7f1", by decide +kernel⟩

/-- The octets that the text of a hash stands for. -/
def hashOf (digits : Label) : Octets := (Base32Hex.decode? digits.octets).getD []

/-- The records at the hashes of the root and of `e.`, which lead to each other. -/
def namedRing : List Nsec3 :=
  [ringRecord apexDigits (hashOf rootDigits), ringRecord rootDigits (hashOf apexDigits)]

theorem isRing_namedRing : Nsec3.IsRing Name.root.text [] 0 namedRing where
  nonempty := by simp [namedRing]
  zone_eq := by simp [namedRing, ringRecord, Nsec3.zone, Name.parent?, Name.root]
  params_eq := by simp [namedRing, ringRecord]
  linked := ⟨[hashOf rootDigits, hashOf apexDigits], namedRing.reverse,
    ⟨by decide +kernel, by decide +kernel, by decide +kernel⟩, List.reverse_perm _⟩

/-- Records of the ring, one of them twice. -/
def repeatedRecords : List Nsec3 := namedRing ++ namedRing.take 1

theorem verify_noData_repeatedRecords :
    ProofKind.noData.verify ⟨apex, RRType.soa⟩ repeatedRecords = .ok () := by
  decide +kernel

end Sample

/-- The records deny a type at `e.`, and so neither the name nor the type at a wildcard. -/
theorem Nsec3.IsHashRing.denials_exclusive_repeated :
    IsHashRing [] 0 Sample.namedRing ∧ Sample.repeatedRecords ⊆ Sample.namedRing ∧
      RRType.soa ≠ RRType.ds ∧
      ProofKind.noData.verify ⟨Sample.apex, RRType.soa⟩ Sample.repeatedRecords = .ok () ∧
      ∀ kind ∈ ProofKind.denials, kind ≠ .noData →
        kind.verify ⟨Sample.apex, RRType.soa⟩ Sample.repeatedRecords ≠ .ok () := by
  have ring := Sample.isRing_namedRing.isHashRing
  have choice : Sample.repeatedRecords ⊆ Sample.namedRing := by
    simp [Sample.repeatedRecords, Sample.namedRing]
  have notSigner : RRType.soa ≠ RRType.ds := by decide
  refine ⟨ring, choice, notSigner, Sample.verify_noData_repeatedRecords, ?_⟩
  intro kind listed different accepted
  exact different (ring.denials_exclusive choice notSigner kind listed .noData (by decide) accepted
    Sample.verify_noData_repeatedRecords)

end HashedDenial
