import HashedDenial.Proofs.Denial.Finders
import HashedDenial.Proofs.Nsec3.Ring
import Mathlib.Data.List.Nodup
import Mathlib.Data.List.Rotate

/-!
# A ring of records parts the names of its zone

Where records lead from each hash to the next one in order and from the last back to the first,
every name of the zone is spoken of by exactly one of them. The record either stands at the hash of
the name or covers it, so one finder returns it and the other finds nothing.
-/
namespace HashedDenial

namespace Nsec3

variable {zone salt : Octets} {iterations : UInt16} {records : List Nsec3} {name : Name}
  {record other : Nsec3} {owners : List Octets} {owner next hash : Octets}

/-- Whether some records stand at the given hashes, in increasing order, and lead from each of them
to the one after it and from the last to the first. -/
structure Linked (owners : List Octets) (records : List Nsec3) : Prop where
  ownerHash?_eq : records.map ownerHash? = owners.map some
  increasing : owners.Pairwise (· < ·)
  nextHash_eq : records.map nextHash = owners.rotate 1

/-- Records of one zone, hashed alike, that are linked to a ring when they are put in order. -/
structure IsRing (zone salt : Octets) (iterations : UInt16) (records : List Nsec3) : Prop where
  nonempty : records ≠ []
  zone_eq : ∀ record ∈ records, record.zone.text = zone
  params_eq : ∀ record ∈ records, record.params = ⟨sha1Algorithm, iterations, salt⟩
  linked : ∃ owners ring, Linked owners ring ∧ ring.Perm records

/-! ## Links -/

theorem follows_of_rotate (increasing : owners.Pairwise (· < ·)) {index : Nat}
    (here : owners[index]? = some owner) (after : (owners.rotate 1)[index]? = some next) :
    Follows owners owner next := by
  obtain ⟨bound, rfl⟩ := List.getElem?_eq_some_iff.mp here
  rw [List.getElem?_rotate bound] at after
  obtain ⟨bound', rfl⟩ := List.getElem?_eq_some_iff.mp after
  have rising := List.pairwise_iff_getElem.mp increasing
  refine ⟨List.getElem_mem bound', ?_⟩
  by_cases last : index + 1 = owners.length
  · -- the last hash leads to the first, and all others lie between the two
    simp only [last, Nat.mod_self]
    right
    intro hash member
    obtain ⟨place, within, rfl⟩ := List.getElem_of_mem member
    constructor
    · rcases Nat.eq_zero_or_pos place with rfl | later
      · exact List.le_refl _
      · exact List.le_of_lt (rising 0 place _ within later)
    · rcases Nat.eq_or_lt_of_le (Nat.le_of_lt_succ (last ▸ within : place < index + 1)) with
        rfl | earlier
      · exact List.le_refl _
      · exact List.le_of_lt (rising place index within bound earlier)
  · have next_lt : index + 1 < owners.length := by omega
    simp only [Nat.mod_eq_of_lt next_lt]
    refine Or.inl ⟨rising index (index + 1) bound next_lt (Nat.lt_succ_self index), ?_⟩
    intro hash member above
    obtain ⟨place, within, rfl⟩ := List.getElem_of_mem member
    rcases Nat.lt_trichotomy place (index + 1) with earlier | rfl | later
    · -- a hash up to this one is not above it
      rcases Nat.eq_or_lt_of_le (Nat.le_of_lt_succ earlier) with rfl | earlier'
      · exact absurd above (List.lt_irrefl _)
      · exact absurd above (List.lt_asymm (rising place index within bound earlier'))
    · exact List.le_refl _
    · exact List.le_of_lt (rising (index + 1) place next_lt within later)

namespace Linked

variable (linked : Linked owners records)

include linked

theorem nodup_ownerHash? : (records.map ownerHash?).Nodup := by
  have distinct : owners.Nodup := linked.increasing.imp fun below same => by
    subst same
    exact List.lt_irrefl _ below
  rw [linked.ownerHash?_eq]
  exact distinct.map fun _ _ => Option.some.inj

theorem exists_follows (member : record ∈ records) :
    ∃ owner ∈ owners, record.ownerHash? = some owner ∧ Follows owners owner record.nextHash := by
  obtain ⟨index, place⟩ := List.getElem?_of_mem member
  have held := congrArg (·[index]?) linked.ownerHash?_eq
  have leads := congrArg (·[index]?) linked.nextHash_eq
  simp only [List.getElem?_map, place, Option.map_some] at held leads
  obtain ⟨owner, here, same⟩ := Option.map_eq_some_iff.mp held.symm
  exact ⟨owner, List.mem_of_getElem? here, same.symm,
    follows_of_rotate linked.increasing here leads.symm⟩

theorem exists_record (member : owner ∈ owners) :
    ∃ record ∈ records, record.ownerHash? = some owner := by
  have listed : some owner ∈ records.map ownerHash? := by
    rw [linked.ownerHash?_eq]
    exact List.mem_map_of_mem member
  exact List.mem_map.mp listed

/-! ## What a record of the ring says -/

theorem mem_of_matchesName (member : record ∈ records)
    (hashed : record.params.hash? name = some hash) (matched : record.matchesName name = true) :
    hash ∈ owners := by
  obtain ⟨owner, standing, held, _⟩ := linked.exists_follows member
  obtain ⟨_, rfl⟩ := (matchesName_iff held hashed).mp matched
  exact standing

/-- No gap of the ring holds a hash that a record stands at. -/
theorem coversName_eq_false (member : record ∈ records)
    (hashed : record.params.hash? name = some hash) (standing : hash ∈ owners) :
    record.coversName name = false := by
  obtain ⟨owner, _, held, follows⟩ := linked.exists_follows member
  rw [← Bool.not_eq_true, coversName_iff held hashed]
  rintro ⟨_, gap⟩
  exact follows.notMem gap standing

end Linked

namespace IsRing

theorem hash?_params (ring : IsRing zone salt iterations records) (member : record ∈ records)
    (name : Name) :
    record.params.hash? name = some (iteratedDigest salt name.wire iterations.toNat) := by
  rw [ring.params_eq record member, HashParams.hash?_sha1]

variable (ring : IsRing zone salt iterations records) (inside : name.inZone zone = true)
  (member : record ∈ records) (held : record.ownerHash? = some owner)

include ring inside member held

theorem matchesName_iff : record.matchesName name = true ↔
    owner = iteratedDigest salt name.wire iterations.toNat := by
  rw [Nsec3.matchesName_iff held (ring.hash?_params member name), ring.zone_eq record member]
  exact and_iff_right inside

theorem coversName_iff : record.coversName name = true ↔
    inGap owner record.nextHash (iteratedDigest salt name.wire iterations.toNat) = true := by
  rw [Nsec3.coversName_iff held (ring.hash?_params member name), ring.zone_eq record member]
  exact and_iff_right inside

end IsRing

namespace IsRing

variable (ring : IsRing zone salt iterations records) (inside : name.inZone zone = true)

include ring

theorem nodup : records.Nodup := by
  obtain ⟨owners, order, linked, perm⟩ := ring.linked
  exact perm.nodup_iff.mp (List.Nodup.of_map _ linked.nodup_ownerHash?)

variable {order : List Nsec3} (linked : Linked owners order) (perm : order.Perm records)

include inside linked perm

/-- If the name hashes to an owner, only the record there matches it and no gap holds the hash. -/
theorem exists_matching
    (standing : iteratedDigest salt name.wire iterations.toNat ∈ owners) :
    ∃ record ∈ records, record.matchesName name = true ∧
      (∀ other ∈ records, other.matchesName name = true → other = record) ∧
      ∀ other ∈ records, other.coversName name = false := by
  obtain ⟨record, listed, held⟩ := linked.exists_record standing
  have member := perm.mem_iff.mp listed
  refine ⟨record, member, (ring.matchesName_iff inside member held).mpr rfl, ?_, ?_⟩
  · intro other member' matched
    have listed' := perm.mem_iff.mpr member'
    obtain ⟨owner, _, held', _⟩ := linked.exists_follows listed'
    obtain rfl := (ring.matchesName_iff inside member' held').mp matched
    exact List.inj_on_of_nodup_map linked.nodup_ownerHash? listed' listed (held'.trans held.symm)
  · intro other member'
    exact linked.coversName_eq_false (perm.mem_iff.mpr member') (ring.hash?_params member' name)
      standing

/-- If the name hashes to no owner, one gap holds the hash and no record matches the name. -/
theorem exists_covering
    (absent : iteratedDigest salt name.wire iterations.toNat ∉ owners) :
    ∃ record ∈ records, record.coversName name = true ∧
      (∀ other ∈ records, other.coversName name = true → other = record) ∧
      ∀ other ∈ records, other.matchesName name = false := by
  obtain ⟨first, firstMember⟩ := List.exists_mem_of_ne_nil records ring.nonempty
  obtain ⟨some_owner, listed_owner, _⟩ := linked.exists_follows (perm.mem_iff.mpr firstMember)
  obtain ⟨owner, standing, gap⟩ := exists_gap (List.ne_nil_of_mem listed_owner) absent
  obtain ⟨record, listed, held⟩ := linked.exists_record standing
  have member := perm.mem_iff.mp listed
  obtain ⟨_, _, again, follows⟩ := linked.exists_follows listed
  obtain rfl := Option.some.inj (held.symm.trans again)
  refine ⟨record, member, (ring.coversName_iff inside member held).mpr (gap _ follows), ?_, ?_⟩
  · intro other member' covered
    have listed' := perm.mem_iff.mpr member'
    obtain ⟨owner', standing', held', follows'⟩ := linked.exists_follows listed'
    have gap' := (ring.coversName_iff inside member' held').mp covered
    obtain rfl := follows'.owner_eq standing' standing follows gap' (gap _ follows)
    exact List.inj_on_of_nodup_map linked.nodup_ownerHash? listed' listed (held'.trans held.symm)
  · intro other member'
    rw [← Bool.not_eq_true]
    intro matched
    exact absent (linked.mem_of_matchesName (perm.mem_iff.mpr member')
      (ring.hash?_params member' name) matched)

end IsRing

/-! ## The partition -/

theorem filter_eq_singleton {α : Type} {condition : α → Bool} {items : List α} {item : α}
    (distinct : items.Nodup) (member : item ∈ items) (holds : condition item = true)
    (unique : ∀ other ∈ items, condition other = true → other = item) :
    items.filter condition = [item] := by
  apply List.perm_singleton.mp
  apply (List.perm_ext_iff_of_nodup (distinct.filter _) (List.nodup_singleton _)).mpr
  intro other
  rw [List.mem_filter, List.mem_singleton]
  constructor
  · rintro ⟨listed, met⟩
    exact unique other listed met
  · rintro rfl
    exact ⟨member, holds⟩

/-- Exactly one record of a ring matches or covers a name of its zone, and it does not do both. The
one finder returns what that record holds, and the other finds no record at all. -/
theorem IsRing.exists_sole_speaker (ring : IsRing zone salt iterations records)
    (inside : name.inZone zone = true) :
    ∃ record, (records.filter fun record => record.matchesName name || record.coversName name) =
        [record] ∧
      ((record.matchesName name = true ∧ record.coversName name = false ∧
          findMatching name records = .ok record.types ∧
          findCoverer name records = .error .missingCoverage) ∨
        (record.matchesName name = false ∧ record.coversName name = true ∧
          findMatching name records = .error .missingCoverage ∧
          findCoverer name records = .ok ⟨record.types, record.optOut⟩)) := by
  obtain ⟨owners, order, linked, perm⟩ := ring.linked
  by_cases standing : iteratedDigest salt name.wire iterations.toNat ∈ owners
  · obtain ⟨record, member, matched, unique, uncovered⟩ :=
      ring.exists_matching inside linked perm standing
    have sole : soleRecord (·.matchesName name) records = .ok record :=
      soleRecord_of_unique member matched unique
    refine ⟨record, filter_eq_singleton ring.nodup member (by simp [matched]) ?_,
      Or.inl ⟨matched, uncovered record member, map_eq_ok_iff.mpr ⟨record, sole, rfl⟩,
        findCoverer_eq_missing_iff.mpr uncovered⟩⟩
    intro other listed speaks
    exact unique other listed (by simpa [uncovered other listed] using speaks)
  · obtain ⟨record, member, covered, unique, unmatched⟩ :=
      ring.exists_covering inside linked perm standing
    have sole : soleRecord (·.coversName name) records = .ok record :=
      soleRecord_of_unique member covered unique
    refine ⟨record, filter_eq_singleton ring.nodup member (by simp [covered]) ?_,
      Or.inr ⟨unmatched record member, covered, findMatching_eq_missing_iff.mpr unmatched,
        map_eq_ok_iff.mpr ⟨record, sole, rfl⟩⟩⟩
    intro other listed speaks
    exact unique other listed (by simpa [unmatched other listed] using speaks)

end Nsec3

namespace Sample

/-- A record of the root zone. -/
def ringRecord (owner : Label) (nextHash : Octets) : Nsec3 where
  owner := ⟨[owner], by have short := owner.isLabel.2.1; simp; omega⟩
  params := ⟨sha1Algorithm, 0, []⟩
  flags := 0
  nextHash
  types := [RRType.ns]

/-- The record at the hash `00`, which leads to the hash `80`. -/
def lowRecord : Nsec3 := ringRecord ⟨[0x30, 0x30], by decide⟩ [0x80]

/-- The record at the hash `80`, which leads back to the hash `00`. -/
def highRecord : Nsec3 := ringRecord ⟨[0x67, 0x30], by decide⟩ [0x00]

theorem isRing_two : Nsec3.IsRing Name.root.text [] 0 [highRecord, lowRecord] where
  nonempty := by simp
  zone_eq := by decide
  params_eq := by decide
  linked := ⟨[[0x00], [0x80]], [lowRecord, highRecord],
    ⟨by decide, by decide, by decide⟩, List.Perm.swap _ _ _⟩

end Sample

/-- The root hashes to a value between the two owners, so it is covered and no record matches it. -/
theorem Nsec3.IsRing.exists_sole_speaker_root :
    IsRing Name.root.text [] 0 [Sample.highRecord, Sample.lowRecord] ∧
      Name.root.inZone Name.root.text = true ∧
      findMatching Name.root [Sample.highRecord, Sample.lowRecord] = .error .missingCoverage := by
  have covered : Sample.lowRecord.coversName Name.root = true := by decide +kernel
  have inside : Name.root.inZone Name.root.text = true := rfl
  obtain ⟨record, sole, ⟨_, uncovered, _⟩ | ⟨_, _, unmatched, _⟩⟩ :=
    Sample.isRing_two.exists_sole_speaker inside
  · -- the record that covers the root is the only one that speaks of it
    have member : Sample.lowRecord ∈ [record] := by
      rw [← sole]
      exact List.mem_filter.mpr ⟨by simp, by simp [covered]⟩
    rw [← List.mem_singleton.mp member, covered] at uncovered
    cases uncovered
  · exact ⟨Sample.isRing_two, inside, unmatched⟩

end HashedDenial
