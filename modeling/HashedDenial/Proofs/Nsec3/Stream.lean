import HashedDenial.Proofs.Nsec3.WireForm

/-!
# Streams of records

A record ends where its own form ends, whatever comes after it, so a stream needs no marks between
its records, and two streams make one when they are joined. Every record takes at least 18 octets,
which bounds how often the reader goes on.
-/
namespace HashedDenial

open Octets

namespace Nsec3

variable {record : Nsec3} {records : List Nsec3} {input rest : Octets}

/-! ## One record -/

/-- The shortest form has the root as its owner, an empty salt, one octet of hash and no types. -/
theorem WireForm.le_length_octets (form : WireForm) : 18 ≤ form.octets.length := by
  have nonempty := form.nextHash_pos
  rw [form.length_octets]
  omega

theorem read?_append (returned : read? input = some (record, rest)) (more : Octets) :
    read? (input ++ more) = some (record, rest ++ more) := by
  obtain ⟨form, rfl, rfl⟩ := WireForm.exists_of_read? returned
  rw [List.append_assoc, form.read?_octets]

theorem length_add_le_of_read? (returned : read? input = some (record, rest)) :
    rest.length + 18 ≤ input.length := by
  obtain ⟨form, _, rfl⟩ := WireForm.exists_of_read? returned
  have size := form.le_length_octets
  rw [List.length_append]
  omega

/-! ## Reading on -/

/-- Some records can be read one after the other from the front of an input, and leave the rest. -/
inductive Reads : Octets → List Nsec3 → Octets → Prop
  | done (input : Octets) : Reads input [] input
  | step {input next rest : Octets} {record : Nsec3} {records : List Nsec3}
      (read : read? input = some (record, next)) (reads : Reads next records rest) :
      Reads input (record :: records) rest

namespace Reads

theorem append (reads : Reads input records rest) (more : Octets) :
    Reads (input ++ more) records (rest ++ more) := by
  induction reads with
  | done input => exact .done (input ++ more)
  | step read _ ih => exact .step (read?_append read more) ih

theorem length_le (reads : Reads input records rest) :
    rest.length + 18 * records.length ≤ input.length := by
  induction reads with
  | done => simp
  | step read _ ih =>
    have step := length_add_le_of_read? read
    rw [List.length_cons]
    omega

/-- Each record that is read on the way is spelled by a form. -/
theorem exists_forms (reads : Reads input records rest) : ∃ forms : List WireForm,
    input = forms.flatMap WireForm.octets ++ rest ∧ forms.map WireForm.record = records := by
  induction reads with
  | done => exact ⟨[], rfl, rfl⟩
  | step read _ ih =>
    obtain ⟨form, rfl, rfl⟩ := WireForm.exists_of_read? read
    obtain ⟨forms, rfl, rfl⟩ := ih
    exact ⟨form :: forms, by rw [List.flatMap_cons, List.append_assoc], rfl⟩

end Reads

theorem reads_forms (forms : List WireForm) (rest : Octets) :
    Reads (forms.flatMap WireForm.octets ++ rest) (forms.map WireForm.record) rest := by
  induction forms with
  | nil => exact .done rest
  | cons form forms ih =>
    rw [List.flatMap_cons, List.append_assoc]
    exact .step (form.read?_octets _) ih

/-- Reading on comes to an end, where no further record can be read. -/
theorem exists_reads (input : Octets) :
    ∃ records rest, Reads input records rest ∧ read? rest = none := by
  -- the induction is on the length of the input, which falls with every record
  induction size : input.length using Nat.strong_induction_on generalizing input with
  | _ size ih =>
    cases found : read? input with
    | none => exact ⟨[], input, .done input, found⟩
    | some returned =>
      obtain ⟨record, next⟩ := returned
      have step := length_add_le_of_read? found
      obtain ⟨records, rest, reads, ended⟩ := ih next.length (by omega) next rfl
      exact ⟨record :: records, rest, .step found reads, ended⟩

/-! ## The reader of streams -/

theorem readStream?_of_read? (returned : read? input = some (record, rest)) :
    readStream? input = (readStream? rest).map (record :: ·) := by
  have step := length_add_le_of_read? returned
  have nonempty : input.isEmpty = false := by
    cases input with
    | nil => simp at step
    | cons => rfl
  rw [readStream?]
  simp only [nonempty, Bool.false_eq_true, if_false]
  split
  next record' rest' found =>
    rw [returned] at found
    cases found
    rfl
  next found =>
    rw [returned] at found
    cases found

theorem readStream?_of_read?_eq_none (ended : read? input = none) :
    readStream? input = if input = [] then some [] else none := by
  rw [readStream?]
  cases input with
  | nil => rfl
  | cons octet input =>
    simp only [List.isEmpty_cons, Bool.false_eq_true, if_false, List.cons_ne_nil]
    split
    next found =>
      rw [ended] at found
      cases found
    · rfl

theorem readStream?_of_reads (reads : Reads input records rest) :
    readStream? input = (readStream? rest).map (records ++ ·) := by
  induction reads with
  | done => simp
  | step read _ ih =>
    rw [readStream?_of_read? read, ih]
    simp [Function.comp_def]

/-- The reader accepts a stream exactly if reading on leaves nothing. -/
theorem readStream?_eq_some_iff : readStream? input = some records ↔ Reads input records [] := by
  have empty : readStream? [] = some [] := by
    simp [readStream?]
  constructor
  · intro returned
    -- read on to the end: the reader accepts only if nothing is left there
    obtain ⟨found, rest, reads, ended⟩ := exists_reads input
    rw [readStream?_of_reads reads, readStream?_of_read?_eq_none ended] at returned
    split at returned
    next used =>
      obtain rfl : found = records := by simpa using returned
      rw [used] at reads
      exact reads
    · cases returned
  · intro reads
    rw [readStream?_of_reads reads, empty]
    simp

/-- A stream is some forms one after the other, and its records are those that the forms spell. -/
theorem readStream?_eq_some_iff_forms : readStream? input = some records ↔
    ∃ forms : List WireForm, input = forms.flatMap WireForm.octets ∧
      forms.map WireForm.record = records := by
  rw [readStream?_eq_some_iff]
  constructor
  · intro reads
    obtain ⟨forms, spelled, spell⟩ := reads.exists_forms
    exact ⟨forms, by rw [spelled, List.append_nil], spell⟩
  · rintro ⟨forms, rfl, rfl⟩
    have reads := reads_forms forms []
    rw [List.append_nil] at reads
    exact reads

theorem readStream?_append (returned : readStream? input = some records) (more : Octets) :
    readStream? (input ++ more) = (readStream? more).map (records ++ ·) :=
  readStream?_of_reads ((readStream?_eq_some_iff.mp returned).append more)

/-- Joined to a stream, an input is read exactly if it is a stream itself, and its records follow.
What is read from the front of an input does not depend on what is left, and takes 18 octets or
more. So reading on ends after at most an 18th as many records as there are octets, and the input is
a stream of these records if nothing is left then. -/
theorem readStream?_framing :
    (∀ front back records, readStream? front = some records →
      readStream? (front ++ back) = (readStream? back).map (records ++ ·)) ∧
    (∀ input record rest, read? input = some (record, rest) →
      ∃ taken, input = taken ++ rest ∧ 18 ≤ taken.length ∧
        ∀ other, read? (taken ++ other) = some (record, other)) ∧
    ∀ input, ∃ records rest, Reads input records rest ∧ read? rest = none ∧
      records.length ≤ input.length / 18 ∧
      readStream? input = if rest = [] then some records else none := by
  refine ⟨?_, ?_, ?_⟩
  · intro front back records returned
    exact readStream?_append returned back
  · intro input record rest returned
    obtain ⟨form, rfl, begins⟩ := WireForm.exists_of_read? returned
    exact ⟨form.octets, begins, form.le_length_octets, form.read?_octets⟩
  · intro input
    obtain ⟨records, rest, reads, ended⟩ := exists_reads input
    have bound := reads.length_le
    refine ⟨records, rest, reads, ended, by omega, ?_⟩
    rw [readStream?_of_reads reads, readStream?_of_read?_eq_none ended]
    split <;> simp

end Nsec3

namespace Sample

/-- The form of the fewest octets. -/
def shortestForm : Nsec3.WireForm where
  owner := Name.root
  ttl := 0
  params := ⟨sha1Algorithm, 0, []⟩
  flags := 0
  nextHash := [0x00]
  blocks := []
  salt_le := by decide
  nextHash_pos := by decide
  nextHash_le := by decide
  isBitmap := ⟨by decide, by decide⟩

end Sample

/-- Two records of 18 octets each, and as many as 36 octets can hold. -/
theorem Nsec3.readStream?_framing_shortest :
    Sample.shortestForm.octets.length = 18 ∧
      readStream? Sample.shortestForm.octets = some [Sample.shortestForm.record] ∧
      readStream? (Sample.shortestForm.octets ++ Sample.shortestForm.octets) =
        some [Sample.shortestForm.record, Sample.shortestForm.record] := by
  have read : read? Sample.shortestForm.octets = some (Sample.shortestForm.record, []) := by
    simpa using Sample.shortestForm.read?_octets []
  have stream : readStream? Sample.shortestForm.octets = some [Sample.shortestForm.record] :=
    readStream?_eq_some_iff.mpr (.step read (.done []))
  refine ⟨by decide, stream, ?_⟩
  rw [Nsec3.readStream?_framing.1 _ _ _ stream, stream]
  rfl

end HashedDenial
