import HashedDenial.Octets.Field
import Mathlib.Algebra.Group.Nat.Defs
import Mathlib.Data.List.Induction

/-!
# Reading and writing fields

A reader of numbers or of counted strings takes exactly what the writer makes of the value that it
returns, so every field is read back whatever octets come after it.
-/
namespace HashedDenial.Octets

variable {width number : Nat} {octets input rest : Octets}

theorem ofBigEndian_concat (octets : Octets) (octet : UInt8) :
    ofBigEndian (octets ++ [octet]) = 256 * ofBigEndian octets + octet.toNat := by
  simp [ofBigEndian]

theorem ofBigEndian_lt (octets : Octets) : ofBigEndian octets < 256 ^ octets.length := by
  induction octets using List.reverseRecOn with
  | nil => exact Nat.one_pos
  | append_singleton octets octet ih =>
    have small := octet.toNat_lt
    rw [ofBigEndian_concat, List.length_append, List.length_singleton, Nat.pow_succ]
    omega

theorem toBigEndian_ofBigEndian (octets : Octets) :
    toBigEndian octets.length (ofBigEndian octets) = octets := by
  -- both functions work on the last octet, so the induction takes octets from the end
  induction octets using List.reverseRecOn with
  | nil => rfl
  | append_singleton octets octet ih =>
    have small := octet.toNat_lt
    have front : (256 * ofBigEndian octets + octet.toNat) / 256 = ofBigEndian octets := by omega
    have last : UInt8.ofNat (256 * ofBigEndian octets + octet.toNat) = octet := by
      rw [← UInt8.toNat_inj, UInt8.toNat_ofNat']
      omega
    rw [ofBigEndian_concat, List.length_append, List.length_singleton, toBigEndian, front, ih, last]

theorem ofBigEndian_toBigEndian (small : number < 256 ^ width) :
    ofBigEndian (toBigEndian width number) = number := by
  induction width generalizing number with
  | zero =>
    rw [Nat.pow_zero, Nat.lt_one_iff] at small
    rw [small]
    rfl
  | succ width ih =>
    have front : number / 256 < 256 ^ width := by
      rw [Nat.pow_succ] at small
      omega
    rw [toBigEndian, ofBigEndian_concat, ih front, UInt8.toNat_ofNat']
    omega

/-! ## Readers -/

theorem readNumber?_eq_some_iff : readNumber? width input = some (number, rest) ↔
    number < 256 ^ width ∧ input = toBigEndian width number ++ rest := by
  simp only [readNumber?, bind, Option.bind_eq_some_iff, readExactly?_eq_some_iff, Prod.exists,
    Option.some.injEq, Prod.mk.injEq]
  constructor
  · rintro ⟨digits, tail, ⟨rfl, rfl⟩, rfl, rfl⟩
    exact ⟨ofBigEndian_lt digits, by rw [toBigEndian_ofBigEndian]⟩
  · rintro ⟨small, rfl⟩
    exact ⟨_, rest, ⟨rfl, length_toBigEndian _ _⟩, ofBigEndian_toBigEndian small, rfl⟩

theorem readCounted?_eq_some_iff : readCounted? input = some (octets, rest) ↔
    octets.length ≤ 255 ∧ input = counted octets ++ rest := by
  have one (count : Nat) : toBigEndian 1 count = [UInt8.ofNat count] := rfl
  simp only [readCounted?, bind, Option.bind_eq_some_iff, readNumber?_eq_some_iff,
    readExactly?_eq_some_iff, Prod.exists, one, counted]
  constructor
  · rintro ⟨count, tail, ⟨small, rfl⟩, rfl, rfl⟩
    exact ⟨by omega, rfl⟩
  · rintro ⟨short, rfl⟩
    exact ⟨octets.length, octets ++ rest, ⟨by omega, rfl⟩, rfl, rfl⟩

end HashedDenial.Octets
