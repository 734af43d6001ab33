import HashedDenial.Proofs.Base32Hex.Order
import HashedDenial.Proofs.Nsec3.HashedOwner

/-!
# The order of NSEC3 records

Records are compared by their owners first, and owners by their texts. In one zone the owners differ
in the text of the hash alone, so a list of records in order has its hashes in order: sorted records
follow each other as on the ring.
-/
namespace HashedDenial

instance : Std.TransOrd Name := inferInstanceAs (Std.TransCmp (compareOn Name.text))

namespace Nsec3

variable {record left right : Nsec3} {hash hash' zone : Octets} {records : List Nsec3}

instance : Std.TransOrd Nsec3 :=
  inferInstanceAs (Std.TransCmp
    (compareLex (compareLex (compareLex (compareLex (compareLex (compareLex
      (compareOn owner)
      (compareOn fun record => record.params.algorithm))
      (compareOn flags))
      (compareOn fun record => record.params.iterations))
      (compareOn fun record => record.params.salt))
      (compareOn nextHash))
      (compareOn types)))

/-- Records in order have their owners in order. -/
theorem isLE_compare_owner (ordered : (compare left right).isLE = true) :
    (compare left.owner right.owner).isLE = true := by
  have first {order later : Ordering} (le : (order.then later).isLE = true) :
      order.isLE = true := (Ordering.isLE_then_iff_and.mp le).1
  -- the owner is the first of seven fields
  exact first (first (first (first (first (first ordered)))))

/-! ## Owners of one zone -/

/-- Whether the first label of the owner is in small letters and holds a hash. -/
structure SpellsHash (record : Nsec3) (hash : Octets) : Prop where
  lowered : ∀ label ∈ record.owner.labels.head?, label.octets.lower = label.octets
  held : record.ownerHash? = some hash

theorem SpellsHash.text_owner (spelled : record.SpellsHash hash) :
    record.owner.text = Base32Hex.encode hash ++ dot :: Name.closedText record.zone.labels := by
  obtain ⟨lowered, held⟩ := spelled
  rw [ownerHash?] at held
  rw [labels_zone]
  cases split : record.owner.labels with
  | nil =>
    -- the root has the text of the empty hash in its own zone
    rw [split] at held
    cases held
    rw [Name.eq_root_of_labels_eq_nil split]
    rfl
  | cons label labels =>
    rw [split] at held lowered
    have encoded := Base32Hex.decode?_eq_some_iff.mp held
    rw [lowered label rfl] at encoded
    rw [Name.text_of_labels_ne_nil (by simp [split]), split, Name.closedText_cons, encoded,
      List.tail_cons]

/-- Owners of one zone are in the order of their hashes. -/
theorem SpellsHash.compare_owner (spelled : left.SpellsHash hash)
    (spelled' : right.SpellsHash hash') (zoned : left.zone.text = right.zone.text) :
    compare left.owner right.owner = compare hash hash' := by
  have texts : compare left.owner right.owner = compare left.owner.text right.owner.text := rfl
  rw [texts, spelled.text_owner, spelled'.text_owner, Name.text_injective zoned,
    Base32Hex.compare_encode_append_dot]

/-! ## Sorted records -/

theorem pairwise_sort (records : List Nsec3) :
    (sort records).Pairwise fun left right => (compare left right).isLE = true := by
  apply List.pairwise_mergeSort
  · intro left middle right le le'
    exact Std.TransOrd.isLE_trans le le'
  · intro left right
    rw [Bool.or_eq_true, Std.OrientedOrd.eq_swap (a := right), Ordering.isLE_swap]
    cases compare left right <;> simp

theorem sort_perm (records : List Nsec3) : (sort records).Perm records :=
  List.mergeSort_perm records _

theorem pairwise_ownerHash? (zoned : ∀ record ∈ records, record.zone.text = zone)
    (spelled : ∀ record ∈ records, ∃ hash, record.SpellsHash hash)
    (ordered : records.Pairwise fun left right => (compare left right).isLE = true) :
    (records.filterMap ownerHash?).Pairwise (· ≤ ·) := by
  rw [List.pairwise_filterMap]
  apply ordered.imp_of_mem
  intro left right member member' le hash held hash' held'
  obtain ⟨same, spelledHere⟩ := spelled left member
  obtain ⟨same', spelledThere⟩ := spelled right member'
  -- a record holds one hash only
  obtain rfl := Option.some.inj (held.symm.trans spelledHere.held)
  obtain rfl := Option.some.inj (held'.symm.trans spelledThere.held)
  have zones := (zoned left member).trans (zoned right member').symm
  rw [← Octets.isLE_compare_iff, ← spelledHere.compare_owner spelledThere zones]
  exact isLE_compare_owner le

/-- In one zone records sort as their hashes do, where these are spelled in small letters. -/
theorem sort_by_hash :
    (∀ left right : Nsec3, ∀ hash hash', left.SpellsHash hash → right.SpellsHash hash' →
      left.zone.text = right.zone.text →
        compare left.owner right.owner = compare hash hash') ∧
      ∀ records zone, (∀ record ∈ records, record.zone.text = zone) →
        (∀ record ∈ records, ∃ hash, record.SpellsHash hash) →
          (sort records).Perm records ∧ ((sort records).filterMap ownerHash?).Pairwise (· ≤ ·) := by
  constructor
  · intro left right hash hash' spelled spelled' zoned
    exact spelled.compare_owner spelled' zoned
  · intro records zone zoned spelled
    have members {record : Nsec3} : record ∈ sort records ↔ record ∈ records :=
      (sort_perm records).mem_iff
    have zoned' : ∀ record ∈ sort records, record.zone.text = zone :=
      fun record member => zoned record (members.mp member)
    have spelled' : ∀ record ∈ sort records, ∃ hash, record.SpellsHash hash :=
      fun record member => spelled record (members.mp member)
    exact ⟨sort_perm records, pairwise_ownerHash? zoned' spelled' (pairwise_sort records)⟩

end Nsec3

namespace Sample

/-- The record at a hash of one octet. -/
def shortHashRecord : Nsec3 := ringRecord ⟨[0x63, 0x6f], by decide⟩ [0x00]

/-- The record at a hash that begins with the same octet and goes on. -/
def longHashRecord : Nsec3 := ringRecord ⟨[0x63, 0x70, 0x6e, 0x67], by decide⟩ [0x00]

theorem spellsHash_shortHashRecord : shortHashRecord.SpellsHash [0x66] :=
  ⟨by decide, by decide⟩

theorem spellsHash_longHashRecord : longHashRecord.SpellsHash [0x66, 0x6f] :=
  ⟨by decide, by decide⟩

end Sample

/-- A hash comes before those that go on after it, although the last digit of its text has two more
bits set to zero. -/
theorem Nsec3.sort_by_hash_beginning :
    compare Sample.shortHashRecord.owner Sample.longHashRecord.owner = .lt ∧
      ((sort [Sample.longHashRecord, Sample.shortHashRecord]).filterMap ownerHash?).Pairwise
        (· ≤ ·) := by
  obtain ⟨compared, sorted⟩ := sort_by_hash
  constructor
  · exact compared _ _ _ _ Sample.spellsHash_shortHashRecord Sample.spellsHash_longHashRecord rfl
  · refine (sorted _ Name.root.text ?_ ?_).2
    · decide
    · intro record member
      rcases List.mem_pair.mp member with rfl | rfl
      · exact ⟨_, Sample.spellsHash_longHashRecord⟩
      · exact ⟨_, Sample.spellsHash_shortHashRecord⟩

end HashedDenial
