import HashedDenial.Proofs.Base32Hex
import HashedDenial.Proofs.Octets.Order

/-!
# The order of base32hex texts

Digits are in the order of their values, so texts are in the order of the bits that they hold. The
zeros that fill the last digit change nothing in it: they are fewer than the bits of one octet, and
octets that go on have at least these. The dot comes before all digits and ends a text as the end of
a list would.
-/
namespace HashedDenial.Base32Hex

open Octets

variable {octets octets' : Octets} {octet : UInt8} {value value' : Nat}

theorem compare_digit (small : value < 32) (small' : value' < 32) :
    compare (digit value) (digit value') = compare value value' := by
  have all_digits : ∀ value value' : Fin 32,
      compare (digit value) (digit value') = compare value.val value'.val := by
    decide +kernel
  exact all_digits ⟨value, small⟩ ⟨value', small'⟩

theorem compare_dot_of_mem_encode (member : octet ∈ encode octets) : compare dot octet = .lt := by
  have all_digits : ∀ value : Fin 32, compare dot (digit value) = .lt := by decide
  rw [encode_eq] at member
  obtain ⟨value, listed, rfl⟩ := List.mem_map.mp member
  exact all_digits ⟨value, digitValues_lt octets value listed⟩

theorem fillCount_lt (octets : Octets) : fillCount octets < 5 := by
  rw [fillCount]
  omega

theorem compare_filled_of_shorter (shorter : octets.length < octets'.length) :
    compare (octets.toBits ++ List.replicate (fillCount octets) false)
        (octets'.toBits ++ List.replicate (fillCount octets') false) =
      compare octets octets' := by
  have few := fillCount_lt octets
  rw [Bits.compare_append_replicate_false, compare_toBits]
  rw [length_toBits, length_toBits]
  omega

/-- The zeros that fill the last digits leave the order of octets as it is. -/
theorem compare_filled (octets octets' : Octets) :
    compare (octets.toBits ++ List.replicate (fillCount octets) false)
        (octets'.toBits ++ List.replicate (fillCount octets') false) =
      compare octets octets' := by
  rcases Nat.lt_trichotomy octets.length octets'.length with shorter | same | longer
  · exact compare_filled_of_shorter shorter
  · have bits : octets.toBits.length = octets'.toBits.length := by
      rw [length_toBits, length_toBits, same]
    have fill : fillCount octets = fillCount octets' := by rw [fillCount, fillCount, bits]
    rw [fill, compare_append bits, compare_toBits, Std.ReflOrd.compare_self, Ordering.then_eq]
  · rw [Std.OrientedOrd.eq_swap, compare_filled_of_shorter longer, ← Std.OrientedOrd.eq_swap]

/-- Texts are in the order of the octets that they encode. -/
theorem compare_encode (octets octets' : Octets) :
    compare (encode octets) (encode octets') = compare octets octets' := by
  have small := digitValues_lt octets
  have small' := digitValues_lt octets'
  have digits : compare ((digitValues octets).map digit) ((digitValues octets').map digit) =
      compare (digitValues octets) (digitValues octets') :=
    compare_map fun value member value' member' =>
      compare_digit (small value member) (small' value' member')
  rw [encode_eq, encode_eq, digits, ← Bits.compare_flatMap_ofNat (Nat.succ_pos 4) small small',
    flatMap_digitValues, flatMap_digitValues, compare_filled]

/-- The same holds of texts that a dot closes, whatever follows it. -/
theorem compare_encode_append_dot (octets octets' rest : Octets) :
    compare (encode octets ++ dot :: rest) (encode octets' ++ dot :: rest) =
      compare octets octets' := by
  rw [compare_append_mark, compare_encode]
  · exact fun _ => compare_dot_of_mem_encode
  · exact fun _ => compare_dot_of_mem_encode

end HashedDenial.Base32Hex
