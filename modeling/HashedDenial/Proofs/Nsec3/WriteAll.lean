import HashedDenial.Proofs.Nsec3.Stream

/-!
# Writing past failures

A record that can be written makes a stream in a buffer one record longer, and any other record
leaves the buffer alone. What a run of writes leaves in an empty buffer is therefore a stream of
exactly the records whose writing succeeded.
-/
namespace HashedDenial

open Octets

namespace Nsec3

variable {record : Nsec3} {records earlier : List Nsec3} {buffer : Octets}

/-! ## One write -/

theorem readStream?_write (read : readStream? buffer = some earlier) (writable : record.IsWritable)
    (sorted : record.types.Pairwise (· ≤ ·)) (ttl : UInt32) :
    readStream? ((record.write ttl).run buffer).2 = some (earlier ++ [record.normal]) := by
  have own : readStream? (record.wire ttl) = some [record.normal] := by
    have taken := read?_wire writable sorted ttl []
    rw [List.append_nil] at taken
    exact readStream?_eq_some_iff.mpr (.step taken (.done []))
  rw [write_of_isWritable writable, readStream?_append read, own]
  rfl

theorem fst_run_write (ttl : UInt32) (record : Nsec3) (buffer : Octets) :
    ((record.write ttl).run buffer).1 = decide record.IsWritable := by
  by_cases writable : record.IsWritable
  · simp [write_of_isWritable writable, writable]
  · simp [write_of_not_isWritable writable, writable]

/-! ## A run of writes -/

theorem run_writeAll_cons (ttl : UInt32) (record : Nsec3) (records : List Nsec3) (buffer : Octets) :
    (writeAll ttl (record :: records)).run buffer =
      let first := (record.write ttl).run buffer
      let others := (writeAll ttl records).run first.2
      (first.1 :: others.1, others.2) := by
  rw [writeAll, List.mapM_cons]
  rfl

/-- A run of writes tells of each record whether it has a wire form. -/
theorem fst_run_writeAll (ttl : UInt32) (records : List Nsec3) (buffer : Octets) :
    ((writeAll ttl records).run buffer).1 = records.map fun record => decide record.IsWritable := by
  induction records generalizing buffer with
  | nil => rfl
  | cons record records ih => simp [run_writeAll_cons, fst_run_write, ih]

/-- A buffer that is a stream stays one, and the records that could be written follow in it. -/
theorem readStream?_writeAll (read : readStream? buffer = some earlier)
    (sorted : ∀ record ∈ records, record.types.Pairwise (· ≤ ·)) (ttl : UInt32) :
    readStream? ((writeAll ttl records).run buffer).2 =
      some (earlier ++ (records.filter fun record => record.IsWritable).map normal) := by
  induction records generalizing buffer earlier with
  | nil =>
    rw [List.filter_nil, List.map_nil, List.append_nil]
    exact read
  | cons record records ih =>
    obtain ⟨here, later⟩ := List.forall_mem_cons.mp sorted
    rw [run_writeAll_cons]
    by_cases writable : record.IsWritable
    · have step := ih (readStream?_write read writable here ttl) later
      simpa [writable] using step
    · -- the others are written to the same buffer
      have step := ih read later
      simpa [write_of_not_isWritable writable, writable] using step

private theorem map_fst_filter_zip {α : Type} (test : α → Bool) (items : List α) :
    ((items.zip (items.map test)).filter (·.2)).map Prod.fst = items.filter test := by
  simp [← List.map_prod_left_eq_zip, List.filter_map, Function.comp_def]

/-- Records with types in order that are written one after the other into one buffer, past those
that fail, leave a stream. It is read back as the records whose writing succeeded, in their order,
each with its owner in lower case and each type once. The writes that fail are those of a record
whose salt or next hash cannot be counted, and each leaves the buffer as it was. -/
theorem writeAll_reads_back (ttl : UInt32) (records : List Nsec3)
    (sorted : ∀ record ∈ records, record.types.Pairwise (· ≤ ·)) :
    ∃ written buffer, (writeAll ttl records).run [] = (written, buffer) ∧
      written.length = records.length ∧
      readStream? buffer =
        some ((((records.zip written).filter (·.2)).map Prod.fst).map fun record =>
          { record with owner := record.owner.canonical, types := record.types.dedup }) ∧
      (∀ entry ∈ records.zip written, entry.2 = false ↔
        255 < entry.1.params.salt.length ∨ entry.1.nextHash = [] ∨
          255 < entry.1.nextHash.length) ∧
      ∀ record ∈ records, ∀ buffer, ((record.write ttl).run buffer).1 = false →
        ((record.write ttl).run buffer).2 = buffer := by
  have told := fst_run_writeAll ttl records []
  refine ⟨((writeAll ttl records).run []).1, ((writeAll ttl records).run []).2, rfl, ?_, ?_, ?_, ?_⟩
  · rw [told, List.length_map]
  · have empty : readStream? [] = some [] := readStream?_eq_some_iff.mpr (.done [])
    rw [readStream?_writeAll empty sorted ttl, told, map_fst_filter_zip, List.nil_append]
    rfl
  · intro (record, wrote) listed
    rw [told, ← List.map_prod_left_eq_zip] at listed
    obtain ⟨_, _, same⟩ := List.mem_map.mp listed
    cases same
    simp [not_isWritable_iff]
  · intro record _ buffer failed
    rw [fst_run_write, decide_eq_false_iff_not] at failed
    rw [write_of_not_isWritable failed]

end Nsec3

/-- Of two records that differ in that one has no next hash, only the other is read back. -/
theorem Nsec3.writeAll_reads_back_pastFailure :
    let unfit := { Sample.longSaltRecord with nextHash := [] }
    (∀ record ∈ [unfit, Sample.longSaltRecord], record.types.Pairwise (· ≤ ·)) ∧
      ∃ buffer, (writeAll 3600 [unfit, Sample.longSaltRecord]).run [] = ([false, true], buffer) ∧
        readStream? buffer = some [{ Sample.longSaltRecord with
          owner := Sample.longSaltRecord.owner.canonical, types := [0, 65535] }] := by
  intro unfit
  have sorted : ∀ record ∈ [unfit, Sample.longSaltRecord], record.types.Pairwise (· ≤ ·) := by
    decide
  obtain ⟨written, buffer, run, _, read, _⟩ :=
    Nsec3.writeAll_reads_back 3600 [unfit, Sample.longSaltRecord] sorted
  have writable : Sample.longSaltRecord.IsWritable :=
    ⟨Nat.le_of_eq List.length_replicate, by decide, by decide⟩
  have unwritable : ¬ unfit.IsWritable := not_isWritable_iff.mpr (.inr (.inl rfl))
  have told := fst_run_writeAll 3600 [unfit, Sample.longSaltRecord] []
  obtain rfl : written = [false, true] := by
    simpa [run, writable, unwritable] using told
  exact ⟨sorted, buffer, run, read⟩

end HashedDenial
