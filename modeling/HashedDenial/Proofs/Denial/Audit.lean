import HashedDenial.Proofs.Denial.Exclusion
import HashedDenial.Proofs.Denial.Fallbacks
import HashedDenial.Proofs.Name.RoundTrip

/-!
# What an audit logs

An input is audited exactly if it spells a name, a type and a stream of records. The log then has a
line for each of the four proofs about the name and one for the wildcard below each of its proper
ancestors, and each line tells the verdict on what the input spells. A question and records in
normal form are spelled as they are by what is written of them, so the log of that tells the
verdicts on the question and the records themselves.
-/
namespace HashedDenial

open Octets

/-! ## Entries -/

theorem DenialError.message_injective : Function.Injective DenialError.message := by
  intro left right same
  cases left <;> cases right <;> simp [message] at same ⊢

/-- Whether an entry tells the verdict of a proof about a name. The proof is accepted exactly if the
entry is a trace that calls it valid, and fails exactly if the entry is for debugging and gives the
text of the failure. -/
structure LogEntry.Reports (entry : LogEntry) (proof : String) (name : Name)
    (verdict : Except DenialError Unit) : Prop where
  accepted_iff : verdict = .ok () ↔
    entry = ⟨.trace, "NSEC3 " ++ proof ++ " proof for " ++ toString name ++ " is valid"⟩
  failed_iff : ∀ failure, verdict = .error failure ↔
    entry = ⟨.debug, "NSEC3 " ++ proof ++ " proof for " ++ toString name ++ " rejected: " ++
      failure.message⟩

theorem LogEntry.reports_ofVerdict (kind : ProofKind) (name : Name)
    (verdict : Except DenialError Unit) :
    (ofVerdict kind name verdict).Reports kind.label name verdict := by
  cases verdict with
  | ok =>
    constructor
    · simp [ofVerdict]
    · intro failure
      simp [ofVerdict]
  | error found =>
    constructor
    · simp [ofVerdict]
    · -- the text tells which failure it was
      intro failure
      simp [ofVerdict, DenialError.message_injective.eq_iff]

/-! ## Lines -/

variable {name ancestor wildcard : Name} {question : Question} {records : List Nsec3}
  {input : Octets} {position : Nat}

theorem ProofKind.length_all (name : Name) : (all name).length = 4 + name.labelCount := by
  obtain ⟨wildcards, built⟩ := name.exists_wildcards
  have count := congrArg List.length built
  rw [List.length_map, List.length_map, List.length_tail, Name.length_suffixes] at count
  rw [all_eq built, List.length_append, List.length_map, ← count]
  rfl

/-- The proof below an ancestor stands behind the four proofs about the name. -/
theorem ProofKind.getElem?_all (stands : name.suffixes[position + 1]? = some ancestor)
    (child : ancestor.wildcardChild? = some wildcard) :
    (all name)[4 + position]? = some (wildcardAnswer wildcard) := by
  obtain ⟨wildcards, built⟩ := name.exists_wildcards
  have own : wildcards[position]? = some wildcard := by
    have places := congrArg (·[position]?) built
    simpa [stands, child, eq_comm] using places
  rw [all_eq built, List.getElem?_append_right (by simp), List.getElem?_map]
  simp [own]

/-- Whether a log tells the verdicts on a question and the records that came with it: those on the
four proofs about the name in its first lines, and then those on the answers from the wildcards
below the proper ancestors of the name, longest first. -/
structure LogsVerdicts (log : List LogEntry) (question : Question) (records : List Nsec3) :
    Prop where
  length_eq : log.length = 4 + question.name.labelCount
  nameError : ∃ entry, log[0]? = some entry ∧
    entry.Reports "name error" question.name (verifyNameError question records)
  noData : ∃ entry, log[1]? = some entry ∧
    entry.Reports "no data" question.name (verifyNoData question records)
  delegation : ∃ entry, log[2]? = some entry ∧
    entry.Reports "delegation" question.name (verifyDelegation question.name records)
  wildcardNoData : ∃ entry, log[3]? = some entry ∧
    entry.Reports "wildcard no data" question.name (verifyWildcardNoData question records)
  wildcardAnswer : ∀ place, 1 ≤ place → place ≤ question.name.labelCount →
    ∃ ancestor wildcard entry, question.name.suffixes[place]? = some ancestor ∧
      ancestor.wildcardChild? = some wildcard ∧ log[3 + place]? = some entry ∧
        entry.Reports "wildcard answer" question.name
          (verifyWildcardAnswer question wildcard records)

theorem getElem?_audit (kind : ProofKind)
    (read : readResponse? input = some (question, records))
    (stands : (ProofKind.all question.name)[position]? = some kind) :
    ∃ entry, (audit input)[position]? = some entry ∧
      entry.Reports kind.label question.name (kind.verify question records) := by
  refine ⟨_, ?_, LogEntry.reports_ofVerdict kind question.name (kind.verify question records)⟩
  simp [audit, read, stands]

theorem logsVerdicts_audit (read : readResponse? input = some (question, records)) :
    LogsVerdicts (audit input) question records where
  length_eq := by
    rw [← ProofKind.length_all]
    simp [audit, read]
  nameError := getElem?_audit .nameError read rfl
  noData := getElem?_audit .noData read rfl
  delegation := getElem?_audit .delegation read rfl
  wildcardNoData := getElem?_audit .wildcardNoData read rfl
  wildcardAnswer := by
    intro place positive within
    obtain ⟨position, rfl⟩ := Nat.exists_eq_add_of_le' positive
    obtain ⟨ancestor, stands⟩ :
        ∃ ancestor, question.name.suffixes[position + 1]? = some ancestor :=
      ⟨_, List.getElem?_eq_getElem (by rw [Name.length_suffixes]; omega)⟩
    -- the suffixes after the first have fewer labels, so there is room for a wildcard below them
    obtain ⟨member, count⟩ := Name.getElem?_suffixes_eq_some_iff.mp stands
    have proper : ancestor ≠ question.name := by
      rintro rfl
      omega
    obtain ⟨wildcard, child⟩ := Name.exists_wildcardChild member proper
    have line : 3 + (position + 1) = 4 + position := by omega
    obtain ⟨entry, logged, reports⟩ :=
      getElem?_audit (.wildcardAnswer wildcard) read (ProofKind.getElem?_all stands child)
    exact ⟨ancestor, wildcard, entry, stands, child, by rw [line, logged], reports⟩

/-! ## Inputs -/

/-- An input is read as the question and the records that it spells. -/
theorem readResponse?_eq_some_iff : readResponse? input = some (question, records) ↔
    ∃ forms : List Nsec3.WireForm, forms.map Nsec3.WireForm.record = records ∧
      input = question.name.spelling ++ toBigEndian 2 question.type.toNat ++
        forms.flatMap Nsec3.WireForm.octets := by
  simp only [readResponse?, bind, Option.bind_eq_some_iff, Name.read?_eq_some_iff_spelling,
    readNumber?_eq_some_iff, Nsec3.readStream?_eq_some_iff_forms, Prod.exists, Option.some.injEq,
    Prod.mk.injEq]
  constructor
  · rintro ⟨name, _, rfl, type, _, ⟨small, rfl⟩, _, ⟨forms, rfl, spelled⟩, rfl, rfl⟩
    have kept : (UInt16.ofNat type).toNat = type := by
      rw [UInt16.toNat_ofNat']
      omega
    exact ⟨forms, spelled, by rw [kept, List.append_assoc]⟩
  · rintro ⟨forms, spelled, rfl⟩
    exact ⟨question.name, _, List.append_assoc _ _ _, question.type.toNat, _,
      ⟨question.type.toNat_lt, rfl⟩, records, ⟨forms, rfl, spelled⟩, by simp, rfl⟩

theorem audit_eq_nil_iff : audit input = [] ↔ ¬ ∃ (name : Name) (type : RRType)
    (forms : List Nsec3.WireForm), input = name.spelling ++ toBigEndian 2 type.toNat ++
      forms.flatMap Nsec3.WireForm.octets := by
  constructor
  · rintro empty ⟨name, type, forms, spelled⟩
    have read : readResponse? input = some (⟨name, type⟩, forms.map Nsec3.WireForm.record) :=
      readResponse?_eq_some_iff.mpr ⟨forms, rfl, spelled⟩
    have lines := (logsVerdicts_audit read).length_eq
    rw [empty, List.length_nil] at lines
    omega
  · intro unspelled
    cases read : readResponse? input with
    | none => rw [audit, read]
    | some response =>
      obtain ⟨forms, _, spelled⟩ := readResponse?_eq_some_iff.mp read
      exact absurd ⟨_, _, forms, spelled⟩ unspelled

/-! ## Encoded responses -/

/-- What is written of a question and of records, each of them with a time to live. -/
def encodeResponse (question : Question) (entries : List (UInt32 × Nsec3)) : Octets :=
  question.name.wire ++ toBigEndian 2 question.type.toNat ++
    entries.flatMap fun (ttl, record) => ((record.write ttl).run []).2

namespace Nsec3

variable {record : Nsec3} {entries : List (UInt32 × Nsec3)}

/-- Whether a record is read back as it is: it can be written, its owner is in lower case, and its
types are in order and not repeated. -/
structure IsNormal (record : Nsec3) : Prop where
  writable : record.IsWritable
  owner_eq : record.owner.canonical = record.owner
  increasing : record.types.Pairwise (· < ·)

theorem IsNormal.normal_eq_self (normal : record.IsNormal) : record.normal = record := by
  have distinct : record.types.dedup = record.types :=
    List.dedup_eq_self.mpr (normal.increasing.imp UInt16.ne_of_lt)
  rw [Nsec3.normal, normal.owner_eq, distinct]

theorem IsNormal.read?_write (normal : record.IsNormal) (ttl : UInt32) (rest : Octets) :
    read? (((record.write ttl).run []).2 ++ rest) = some (record, rest) := by
  have sorted : record.types.Pairwise (· ≤ ·) := normal.increasing.imp UInt16.le_of_lt
  rw [write_of_isWritable normal.writable, List.nil_append, read?_wire normal.writable sorted,
    normal.normal_eq_self]

/-- Records in normal form that are written one after the other are read back. -/
theorem reads_writes (normal : ∀ entry ∈ entries, entry.2.IsNormal) :
    Reads (entries.flatMap fun (ttl, record) => ((record.write ttl).run []).2)
      (entries.map Prod.snd) [] := by
  induction entries with
  | nil => exact .done []
  | cons entry entries ih =>
    -- reading the first record leaves what was written of the others
    obtain ⟨here, later⟩ := List.forall_mem_cons.mp normal
    rw [List.flatMap_cons, List.map_cons]
    exact .step (here.read?_write entry.1 _) (ih later)

end Nsec3

theorem readResponse?_encodeResponse {entries : List (UInt32 × Nsec3)}
    (lowered : question.name.canonical = question.name)
    (normal : ∀ entry ∈ entries, entry.2.IsNormal) :
    readResponse? (encodeResponse question entries) = some (question, entries.map Prod.snd) := by
  have type (rest : Octets) : readNumber? 2 (toBigEndian 2 question.type.toNat ++ rest) =
      some (question.type.toNat, rest) :=
    readNumber?_eq_some_iff.mpr ⟨question.type.toNat_lt, rfl⟩
  have stream := Nsec3.readStream?_eq_some_iff.mpr (Nsec3.reads_writes normal)
  rw [encodeResponse, List.append_assoc, readResponse?, Name.read?_wire, lowered]
  simp [type, stream]

/-- A question and records in lower case, with types in order and not repeated and with a salt and a
next hash that can be counted, are all written, and the audit of what was written logs the verdicts
on them. An audit logs nothing exactly if its input is no name, type and stream of records. -/
theorem audit_tells_verdicts :
    (∀ (question : Question) (entries : List (UInt32 × Nsec3)),
      question.name.canonical = question.name →
      (∀ entry ∈ entries, entry.2.owner.canonical = entry.2.owner ∧
        entry.2.types.Pairwise (· < ·) ∧ entry.2.params.salt.length ≤ 255 ∧
        1 ≤ entry.2.nextHash.length ∧ entry.2.nextHash.length ≤ 255) →
      (∀ entry ∈ entries, ((entry.2.write entry.1).run []).1 = true) ∧
        LogsVerdicts (audit (encodeResponse question entries)) question (entries.map Prod.snd)) ∧
    ∀ input, audit input = [] ↔ ¬ ∃ (name : Name) (type : RRType) (forms : List Nsec3.WireForm),
      input = name.spelling ++ toBigEndian 2 type.toNat ++
        forms.flatMap Nsec3.WireForm.octets := by
  refine ⟨?_, fun input => audit_eq_nil_iff⟩
  intro question entries lowered fit
  have normal : ∀ entry ∈ entries, entry.2.IsNormal := by
    intro entry member
    obtain ⟨owner, increasing, salt, nonempty, nextHash⟩ := fit entry member
    exact ⟨⟨salt, nonempty, nextHash⟩, owner, increasing⟩
  constructor
  · intro entry member
    rw [Nsec3.write_of_isWritable (normal entry member).writable]
  · exact logsVerdicts_audit (readResponse?_encodeResponse lowered normal)

namespace Sample

/-- The wildcard below the root. -/
def rootWildcard : Name := ⟨[Label.asterisk], by decide⟩

theorem verifyWildcardAnswer_repeatedRecords :
    verifyWildcardAnswer ⟨apex, RRType.soa⟩ rootWildcard repeatedRecords = .error .mismatch := by
  decide +kernel

end Sample

/-- The log on `e.`, which a record shows to exist without the type asked for, so that no wildcard
can have answered. -/
theorem audit_tells_verdicts_repeated :
    let entries := Sample.repeatedRecords.map fun record => ((3600 : UInt32), record)
    let log := audit (encodeResponse ⟨Sample.apex, RRType.soa⟩ entries)
    log.length = 5 ∧ log[1]? = some ⟨.trace, "NSEC3 no data proof for e. is valid"⟩ ∧
      log[4]? = some ⟨.debug, "NSEC3 wildcard answer proof for e. rejected: " ++
        "NSEC3 records don't match the question"⟩ ∧
      audit [] = [] := by
  intro entries log
  obtain ⟨encoded, silent⟩ := audit_tells_verdicts
  have lowered : Sample.apex.canonical = Sample.apex := by decide
  have fit : ∀ entry ∈ entries, entry.2.owner.canonical = entry.2.owner ∧
      entry.2.types.Pairwise (· < ·) ∧ entry.2.params.salt.length ≤ 255 ∧
      1 ≤ entry.2.nextHash.length ∧ entry.2.nextHash.length ≤ 255 := by
    decide +kernel
  obtain ⟨_, logs⟩ := encoded ⟨Sample.apex, RRType.soa⟩ entries lowered fit
  have records : entries.map Prod.snd = Sample.repeatedRecords := by
    simp [entries]
  rw [records] at logs
  obtain ⟨entry, second, valid⟩ := logs.noData
  obtain ⟨ancestor, wildcard, entry', stands, child, fifth, rejected⟩ :=
    logs.wildcardAnswer 1 (Nat.le_refl 1) (Nat.le_refl 1)
  -- the only proper ancestor of the name is the root
  cases stands
  obtain rfl : wildcard = Sample.rootWildcard := (Option.some.inj child).symm
  refine ⟨logs.length_eq, ?_, ?_, (silent []).mpr ?_⟩
  · rw [second, valid.accepted_iff.mp Sample.verify_noData_repeatedRecords]
    rfl
  · rw [fifth, (rejected.failed_iff _).mp Sample.verifyWildcardAnswer_repeatedRecords]
    rfl
  · rintro ⟨name, type, forms, spelled⟩
    simp [Name.spelling] at spelled

end HashedDenial
