import HashedDenial.Octets
import Mathlib.Algebra.Group.Nat.Defs
import Mathlib.Data.List.Induction

/-!
# Bits, numbers and pieces

Numbers below a power of two and lists of that many bits are two forms of the same thing, and octets
are read back from their bits whatever bits are left over at the end.
-/
namespace HashedDenial

variable {α : Type} {size count : Nat}

/-! ## Pieces -/

theorem flatten_chunks {items : List α} (exact_ : items.length = size * count) :
    (chunks size count items).flatten = items := by
  induction count generalizing items with
  | zero =>
    rw [Nat.mul_zero, List.length_eq_zero_iff] at exact_
    rw [exact_]
    rfl
  | succ count ih =>
    have rest : (items.drop size).length = size * count := by
      rw [List.length_drop, exact_, Nat.mul_succ, Nat.add_sub_cancel]
    rw [chunks, List.flatten_cons, ih rest, List.take_append_drop]

theorem length_of_mem_chunks {items piece : List α} (enough : size * count ≤ items.length)
    (member : piece ∈ chunks size count items) : piece.length = size := by
  induction count generalizing items with
  | zero => cases member
  | succ count ih =>
    rw [Nat.mul_succ] at enough
    rcases List.mem_cons.mp member with rfl | later
    · rw [List.length_take]
      omega
    · exact ih (by rw [List.length_drop]; omega) later

theorem chunks_flatten {pieces : List (List α)} (each : ∀ piece ∈ pieces, piece.length = size)
    (rest : List α) : chunks size pieces.length (pieces.flatten ++ rest) = pieces := by
  induction pieces with
  | nil => rfl
  | cons piece pieces ih =>
    obtain ⟨first, others⟩ := List.forall_mem_cons.mp each
    rw [List.flatten_cons, List.append_assoc, List.length_cons, chunks, List.take_left' first,
      List.drop_left' first, ih others]

/-! ## Bits and numbers -/

namespace Bits

theorem toNat_concat (bits : List Bool) (bit : Bool) :
    toNat (bits ++ [bit]) = 2 * toNat bits + bit.toNat := by
  rw [toNat, List.foldl_append]
  rfl

theorem toNat_lt (bits : List Bool) : toNat bits < 2 ^ bits.length := by
  induction bits using List.reverseRecOn with
  | nil => exact Nat.one_pos
  | append_singleton bits bit ih =>
    have small := bit.toNat_le
    rw [toNat_concat, List.length_append, List.length_singleton, Nat.pow_succ]
    omega

theorem ofNat_toNat (bits : List Bool) : ofNat bits.length (toNat bits) = bits := by
  -- both directions work on the last bit, so the induction takes bits from the end
  induction bits using List.reverseRecOn with
  | nil => rfl
  | append_singleton bits bit ih =>
    have half : (2 * toNat bits + bit.toNat) / 2 = toNat bits := by
      have small := bit.toNat_le
      omega
    have odd : ((2 * toNat bits + bit.toNat) % 2 == 1) = bit := by cases bit <;> simp
    rw [toNat_concat, List.length_append, List.length_singleton, ofNat, half, odd, ih]

theorem toNat_ofNat {width number : Nat} (small : number < 2 ^ width) :
    toNat (ofNat width number) = number := by
  induction width generalizing number with
  | zero =>
    rw [Nat.pow_zero, Nat.lt_one_iff] at small
    rw [small]
    rfl
  | succ width ih =>
    have half : number / 2 < 2 ^ width := by
      rw [Nat.pow_succ] at small
      omega
    have bit : (number % 2 == 1).toNat = number % 2 := by
      rcases Nat.mod_two_eq_zero_or_one number with even | odd
      · rw [even]
        rfl
      · rw [odd]
        rfl
    rw [ofNat, toNat_concat, ih half, bit, Nat.div_add_mod]

/-- A number is written as its high digits and then its low ones. -/
theorem ofNat_add (high low number : Nat) :
    ofNat (high + low) number = ofNat high (number / 2 ^ low) ++ ofNat low number := by
  induction low generalizing number with
  | zero => simp [ofNat]
  | succ low ih =>
    rw [← Nat.add_assoc, ofNat, ih, ofNat, List.append_assoc, Nat.div_div_eq_div_mul,
      Nat.pow_succ']

/-- Only the low digits of a number are written. -/
theorem ofNat_mod (width number : Nat) : ofNat width (number % 2 ^ width) = ofNat width number := by
  induction width generalizing number with
  | zero => rfl
  | succ width ih =>
    have half : number % 2 ^ (width + 1) / 2 = number / 2 % 2 ^ width := by
      rw [Nat.pow_succ', Nat.mod_mul_right_div_self]
    have odd : number % 2 ^ (width + 1) % 2 = number % 2 :=
      Nat.mod_mod_of_dvd number ⟨2 ^ width, Nat.pow_succ'⟩
    rw [ofNat, half, odd, ih, ofNat]

/-- Digits put behind a number stand behind its own. -/
theorem ofNat_append {low width : Nat} (small : low < 2 ^ width) (high number : Nat) :
    ofNat (high + width) (number * 2 ^ width + low) = ofNat high number ++ ofNat width low := by
  have above : (number * 2 ^ width + low) / 2 ^ width = number := by
    rw [Nat.mul_comm, Nat.mul_add_div (Nat.two_pow_pos width), Nat.div_eq_of_lt small,
      Nat.add_zero]
  have below : (number * 2 ^ width + low) % 2 ^ width = low := by
    rw [Nat.mul_comm, Nat.mul_add_mod, Nat.mod_eq_of_lt small]
  rw [ofNat_add, above, ← ofNat_mod width, below]

theorem ofNat_zero (width : Nat) : ofNat width 0 = List.replicate width false := by
  induction width with
  | zero => rfl
  | succ width ih =>
    rw [ofNat, Nat.zero_div, ih, List.replicate_succ']
    rfl

theorem true_mem_ofNat_iff {width number : Nat} (small : number < 2 ^ width) :
    true ∈ ofNat width number ↔ number ≠ 0 := by
  constructor
  · rintro set rfl
    rw [ofNat_zero] at set
    exact absurd (List.eq_of_mem_replicate set) (by decide)
  · intro nonzero
    by_contra unset
    -- without a digit that is set the number is written as zero is
    have clear : ofNat width number = ofNat width 0 := by
      rw [ofNat_zero]
      refine List.eq_replicate_iff.mpr ⟨length_ofNat width number, fun bit member => ?_⟩
      cases bit with
      | false => rfl
      | true => exact absurd member unset
    have same := congrArg toNat clear
    rw [toNat_ofNat small, toNat_ofNat (Nat.two_pow_pos width)] at same
    exact nonzero same

theorem getElem?_ofNat {width place : Nat} (within : place < width) (number : Nat) :
    (ofNat width number)[place]? = some (number.testBit (width - 1 - place)) := by
  induction width generalizing number with
  | zero => cases within
  | succ width ih =>
    rw [ofNat, Nat.add_sub_cancel]
    rcases Nat.lt_succ_iff_lt_or_eq.mp within with before | last
    · have shift : width - place = width - 1 - place + 1 := by omega
      rw [List.getElem?_append_left (by simpa using before), ih before, shift, Nat.testBit_succ]
    · rw [last, List.getElem?_append_right (by simp), length_ofNat, Nat.sub_self, Nat.testBit_zero]
      rfl

theorem ofNat_toNat_of_mem_chunks {bits group : List Bool} (whole : bits.length = size * count)
    (listed : group ∈ chunks size count bits) : ofNat size (toNat group) = group := by
  have length := length_of_mem_chunks (Nat.le_of_eq whole.symm) listed
  rw [← length, ofNat_toNat]

end Bits

/-! ## Octets -/

namespace Octets

@[simp] theorem length_toBits (octets : Octets) : octets.toBits.length = 8 * octets.length := by
  induction octets with
  | nil => rfl
  | cons octet octets ih =>
    have whole : toBits (octet :: octets) = Bits.ofNat 8 octet.toNat ++ toBits octets := rfl
    rw [whole, List.length_append, ih, Bits.length_ofNat, List.length_cons, Nat.mul_succ,
      Nat.add_comm]

/-- Fewer than eight bits at the end make no octet. -/
theorem ofBits_toBits_append (octets : Octets) {rest : List Bool} (short : rest.length < 8) :
    ofBits (octets.toBits ++ rest) = octets := by
  have whole : octets.toBits = (octets.map fun octet => Bits.ofNat 8 octet.toNat).flatten :=
    List.flatMap_def
  -- the bits left over do not add up to one more group
  have count : (octets.toBits ++ rest).length / 8 =
      (octets.map fun octet => Bits.ofNat 8 octet.toNat).length := by
    rw [List.length_append, length_toBits, List.length_map]
    omega
  have back (octet : UInt8) :
      UInt8.ofNat (Bits.toNat (Bits.ofNat 8 octet.toNat)) = octet := by
    rw [Bits.toNat_ofNat octet.toNat_lt, UInt8.ofNat_toNat]
  rw [ofBits, count, whole, chunks_flatten (by simp), List.map_map]
  exact (List.map_congr_left fun octet _ => back octet).trans (List.map_id _)

theorem toBits_concat (octets : Octets) (octet : UInt8) :
    toBits (octets ++ [octet]) = octets.toBits ++ Bits.ofNat 8 octet.toNat := by
  simp [toBits]

/-- The bit at a place is one of the octet in which the place lies. -/
theorem getElem?_toBits (octets : Octets) (index : Nat) {bit : Nat} (small : bit < 8) :
    octets.toBits[8 * index + bit]? =
      octets[index]?.map fun octet => octet.toNat.testBit (7 - bit) := by
  induction octets generalizing index with
  | nil => simp [toBits]
  | cons octet octets ih =>
    have split : toBits (octet :: octets) = Bits.ofNat 8 octet.toNat ++ toBits octets := rfl
    rw [split]
    cases index with
    | zero =>
      rw [Nat.mul_zero, Nat.zero_add, List.getElem?_append_left (by simpa using small),
        Bits.getElem?_ofNat small]
      rfl
    | succ index =>
      have behind : 8 * (index + 1) + bit - (Bits.ofNat 8 octet.toNat).length = 8 * index + bit := by
        rw [Bits.length_ofNat]
        omega
      rw [List.getElem?_append_right (by rw [Bits.length_ofNat]; omega), behind, ih,
        List.getElem?_cons_succ]

theorem toBits_injective : Function.Injective toBits := by
  intro octets others same
  have whole (octets : Octets) : ofBits (octets.toBits ++ []) = octets :=
    ofBits_toBits_append octets (by decide)
  rw [← whole octets, same, whole others]

@[simp] theorem length_ofBits (bits : List Bool) : (ofBits bits).length = bits.length / 8 := by
  simp [ofBits]

/-- Bits that fill whole octets are read back from them. -/
theorem toBits_ofBits {bits : List Bool} (whole : bits.length = 8 * count) :
    (ofBits bits).toBits = bits := by
  have groups : bits.length / 8 = count := by omega
  have back : ∀ group ∈ chunks 8 count bits,
      Bits.ofNat 8 (UInt8.ofNat (Bits.toNat group)).toNat = group := by
    intro group listed
    have small := Bits.toNat_lt group
    rw [length_of_mem_chunks (Nat.le_of_eq whole.symm) listed] at small
    rw [UInt8.toNat_ofNat', Nat.mod_eq_of_lt small, Bits.ofNat_toNat_of_mem_chunks whole listed]
  rw [ofBits, groups, toBits, List.flatMap_map, List.flatMap_def, List.map_congr_left back,
    List.map_id', flatten_chunks whole]

/-- Bits are those of the octets that they fill, followed by those that fill none. -/
theorem toBits_ofBits_append_drop (bits : List Bool) :
    (ofBits bits).toBits ++ bits.drop (8 * (bits.length / 8)) = bits := by
  have within : 8 * (bits.length / 8) ≤ bits.length := Nat.mul_div_le bits.length 8
  have whole : (bits.take (8 * (bits.length / 8))).length = 8 * (bits.length / 8) :=
    List.length_take_of_le within
  have short : (bits.drop (8 * (bits.length / 8))).length < 8 := by
    rw [List.length_drop]
    omega
  have filled := ofBits_toBits_append (ofBits (bits.take (8 * (bits.length / 8)))) short
  rw [toBits_ofBits whole, List.take_append_drop] at filled
  rw [filled, toBits_ofBits whole, List.take_append_drop]

end Octets

end HashedDenial
