import HashedDenial.Proofs.Octets.Bits
import Mathlib.Data.List.Basic

/-!
# Lexicographic order

Octets, and the bits or the digits that they are read as, are all compared place by place, with a
list before those that go on after it. The first place at which two lists of octets differ holds
their first bits that differ, so bits are in the order of the octets, whatever the size of the
groups in which they are compared.
-/
namespace HashedDenial

/-! ## Lists -/

section Lists

variable {α β : Type} [Ord α] [Ord β]

/-- Lists that begin with equally long parts are compared by these parts first. -/
theorem compare_append {front front' : List α} (same : front.length = front'.length)
    (back back' : List α) : compare (front ++ back) (front' ++ back') =
      (compare front front').then (compare back back') := by
  induction front generalizing front' with
  | nil =>
    obtain rfl := List.length_eq_zero_iff.mp same.symm
    rw [List.compare_nil_nil]
    rfl
  | cons item front ih =>
    cases front' with
    | nil => cases same
    | cons item' front' =>
      rw [List.cons_append, List.cons_append, List.compare_cons_cons, List.compare_cons_cons,
        ih (Nat.succ.inj same), Ordering.then_assoc]

/-- An end mark below every item leaves the order of lists as it is. -/
theorem compare_append_mark [Std.OrientedOrd α] {mark : α} {items items' : List α}
    (below : ∀ item ∈ items, compare mark item = .lt)
    (below' : ∀ item ∈ items', compare mark item = .lt) (rest : List α) :
    compare (items ++ mark :: rest) (items' ++ mark :: rest) = compare items items' := by
  induction items generalizing items' with
  | nil =>
    cases items' with
    | nil => simp
    | cons item' items' =>
      rw [List.nil_append, List.cons_append, List.compare_cons_cons,
        below' item' List.mem_cons_self]
      rfl
  | cons item items ih =>
    obtain ⟨first, others⟩ := List.forall_mem_cons.mp below
    cases items' with
    | nil =>
      -- here the mark stands on the other side
      rw [List.cons_append, List.nil_append, List.compare_cons_cons,
        Std.OrientedOrd.eq_swap (a := item), first]
      rfl
    | cons item' items' =>
      rw [List.cons_append, List.cons_append, List.compare_cons_cons, List.compare_cons_cons,
        ih others (List.forall_mem_cons.mp below').2]

theorem compare_map {f : α → β} {items items' : List α}
    (keeps : ∀ item ∈ items, ∀ item' ∈ items', compare (f item) (f item') = compare item item') :
    compare (items.map f) (items'.map f) = compare items items' := by
  induction items generalizing items' with
  | nil => cases items' <;> simp
  | cons item items ih =>
    cases items' with
    | nil => simp
    | cons item' items' =>
      have later : compare (items.map f) (items'.map f) = compare items items' :=
        ih fun other member other' member' =>
          keeps other (List.mem_cons_of_mem _ member) other' (List.mem_cons_of_mem _ member')
      rw [List.map_cons, List.map_cons, List.compare_cons_cons, List.compare_cons_cons, later,
        keeps item List.mem_cons_self item' List.mem_cons_self]

end Lists

/-! ## Bits -/

namespace Bits

variable {width number number' : Nat}

/-- The last digit decides between numbers that agree in all others. -/
theorem compare_half (number number' : Nat) :
    (compare (number / 2) (number' / 2)).then (compare [number % 2 == 1] [number' % 2 == 1]) =
      compare number number' := by
  rcases Nat.lt_trichotomy (number / 2) (number' / 2) with less | same | greater
  · have below : number < number' := by omega
    rw [Nat.compare_eq_lt.mpr less, Nat.compare_eq_lt.mpr below]
    rfl
  · rw [Nat.compare_eq_eq.mpr same, Ordering.eq_then]
    rcases Nat.mod_two_eq_zero_or_one number with even | odd <;>
      rcases Nat.mod_two_eq_zero_or_one number' with even' | odd'
    · have equal : number = number' := by omega
      rw [even, even', Nat.compare_eq_eq.mpr equal]
      rfl
    · have below : number < number' := by omega
      rw [even, odd', Nat.compare_eq_lt.mpr below]
      rfl
    · have above : number' < number := by omega
      rw [odd, even', Nat.compare_eq_gt.mpr above]
      rfl
    · have equal : number = number' := by omega
      rw [odd, odd', Nat.compare_eq_eq.mpr equal]
      rfl
  · have above : number' < number := by omega
    rw [Nat.compare_eq_gt.mpr greater, Nat.compare_eq_gt.mpr above]
    rfl

/-- Numbers of one width are compared by their digits. -/
theorem compare_ofNat (small : number < 2 ^ width) (small' : number' < 2 ^ width) :
    compare (ofNat width number) (ofNat width number') = compare number number' := by
  induction width generalizing number number' with
  | zero =>
    rw [Nat.pow_zero, Nat.lt_one_iff] at small small'
    rw [small, small']
    rfl
  | succ width ih =>
    rw [Nat.pow_succ] at small small'
    rw [ofNat, ofNat, compare_append (by simp), ih (by omega) (by omega), compare_half]

/-- Lists of numbers of one width are compared by the digits of all their numbers. -/
theorem compare_flatMap_ofNat {values values' : List Nat} (positive : 0 < width)
    (small : ∀ value ∈ values, value < 2 ^ width)
    (small' : ∀ value ∈ values', value < 2 ^ width) :
    compare (values.flatMap (ofNat width)) (values'.flatMap (ofNat width)) =
      compare values values' := by
  -- a number has a digit, so the digits end where the numbers do
  have nonempty (value : Nat) (values : List Nat) :
      ∃ bit bits, (value :: values).flatMap (ofNat width) = bit :: bits := by
    apply List.exists_cons_of_length_pos
    rw [List.flatMap_cons, List.length_append, length_ofNat]
    omega
  induction values generalizing values' with
  | nil =>
    cases values' with
    | nil => rfl
    | cons value' values' =>
      obtain ⟨bit, bits, split⟩ := nonempty value' values'
      rw [split]
      rfl
  | cons value values ih =>
    cases values' with
    | nil =>
      obtain ⟨bit, bits, split⟩ := nonempty value values
      rw [split]
      rfl
    | cons value' values' =>
      obtain ⟨first, others⟩ := List.forall_mem_cons.mp small
      obtain ⟨first', others'⟩ := List.forall_mem_cons.mp small'
      rw [List.flatMap_cons, List.flatMap_cons, compare_append (by simp),
        compare_ofNat first first', ih others others', List.compare_cons_cons]

/-- Zeros come before everything longer. -/
theorem compare_replicate_false {count : Nat} {bits : List Bool} (longer : count < bits.length) :
    compare (List.replicate count false) bits = .lt := by
  induction count generalizing bits with
  | zero =>
    cases bits with
    | nil => cases longer
    | cons bit bits => rfl
  | succ count ih =>
    cases bits with
    | nil => cases longer
    | cons bit bits =>
      rw [List.replicate_succ, List.compare_cons_cons, ih (Nat.lt_of_succ_lt_succ longer)]
      cases bit <;> rfl

/-- Zeros that do not make bits as long as others leave their order as it is. -/
theorem compare_append_replicate_false {bits bits' : List Bool} {count : Nat}
    (longer : bits.length + count < bits'.length) (rest : List Bool) :
    compare (bits ++ List.replicate count false) (bits' ++ rest) = compare bits bits' := by
  -- the zeros are met by the bits that only the longer list has
  obtain ⟨front, back, rfl, same⟩ :
      ∃ front back, bits' = front ++ back ∧ bits.length = front.length :=
    ⟨bits'.take bits.length, bits'.drop bits.length, (List.take_append_drop _ _).symm,
      (List.length_take_of_le (by omega)).symm⟩
  rw [List.length_append, same, Nat.add_lt_add_iff_left] at longer
  have behind : compare (List.replicate count false) (back ++ rest) = .lt :=
    compare_replicate_false (by rw [List.length_append]; omega)
  have ended : compare (List.replicate 0 false) back = .lt := compare_replicate_false (by omega)
  calc compare (bits ++ List.replicate count false) (front ++ back ++ rest)
    _ = (compare bits front).then .lt := by rw [List.append_assoc, compare_append same, behind]
    _ = compare (bits ++ List.replicate 0 false) (front ++ back) := by
      rw [compare_append same, ended]
    _ = compare bits (front ++ back) := by rw [List.replicate_zero, List.append_nil]

end Bits

/-! ## Octets -/

namespace Octets

variable {octets octets' : Octets}

theorem compare_toBits (octets octets' : Octets) :
    compare octets.toBits octets'.toBits = compare octets octets' := by
  have small (octets : Octets) : ∀ value ∈ octets.map UInt8.toNat, value < 2 ^ 8 := by
    intro value member
    obtain ⟨octet, _, rfl⟩ := List.mem_map.mp member
    exact octet.toNat_lt
  have bits (octets : Octets) :
      octets.toBits = (octets.map UInt8.toNat).flatMap (Bits.ofNat 8) := by
    rw [List.flatMap_map, toBits]
  rw [bits, bits, Bits.compare_flatMap_ofNat (by decide) (small octets) (small octets'),
    compare_map]
  intro octet _ octet' _
  simp only [compare, compareOfLessAndEq, UInt8.lt_iff_toNat_lt, UInt8.toNat_inj]

theorem compare_eq_lt_iff : compare octets octets' = .lt ↔ octets < octets' := by
  induction octets generalizing octets' with
  | nil => cases octets' <;> simp
  | cons octet octets ih =>
    cases octets' with
    | nil => simp
    | cons octet' octets' =>
      rw [List.compare_cons_cons, Ordering.then_eq_lt, ih, List.cons_lt_cons_iff,
        Std.LawfulEqOrd.compare_eq_iff_eq, Std.LawfulLTCmp.eq_lt_iff_lt]

theorem isLE_compare_iff : (compare octets octets').isLE = true ↔ octets ≤ octets' := by
  rw [Std.OrientedOrd.eq_swap, Ordering.isLE_swap, Ordering.isGE_iff_ne_lt,
    compare_eq_lt_iff, List.not_lt]

end Octets

end HashedDenial
