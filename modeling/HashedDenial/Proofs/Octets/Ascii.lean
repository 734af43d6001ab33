import HashedDenial.Octets
import Mathlib.Data.List.Basic

/-!
# Octets of ASCII strings

Different strings have different octets. An ASCII character takes the one octet with its code, so
ASCII octets and ASCII strings are the same thing.
-/
namespace HashedDenial.Octets

theorem ofString_injective : Function.Injective ofString := by
  intro left right same
  apply String.toByteArray_inj.mp
  apply ByteArray.ext
  exact Array.toList_inj.mp same

theorem length_ofString (s : String) : (ofString s).length = s.utf8ByteSize := by
  rw [ofString, Array.length_toList, String.toUTF8_eq_toByteArray]
  exact String.size_toByteArray

theorem ofString_eq_flatMap (s : String) :
    ofString s = s.toList.flatMap String.utf8EncodeChar := by
  obtain ⟨chars, rfl⟩ : ∃ chars, s = String.ofList chars := ⟨s.toList, String.ofList_toList.symm⟩
  rw [ofString, String.toUTF8_eq_toByteArray, String.toByteArray_ofList, List.utf8Encode,
    List.data_toByteArray, String.toList_ofList]

/-- The codes of ASCII characters. -/
def ofAscii (chars : List Char) : Octets := chars.map fun c => UInt8.ofNat c.toNat

theorem ofString_of_ascii {s : String} (ascii : ∀ c ∈ s.toList, c.toNat ≤ 0x7f) :
    ofString s = ofAscii s.toList := by
  have one (c : Char) (member : c ∈ s.toList) : String.utf8EncodeChar c = [UInt8.ofNat c.toNat] :=
    String.utf8EncodeChar_eq_singleton (Char.utf8Size_eq_one_iff.mpr (ascii c member))
  rw [ofString_eq_flatMap, ofAscii, List.map_eq_flatMap]
  exact List.flatMap_congr one

theorem toNat_charOfNat (octet : UInt8) : (Char.ofNat octet.toNat).toNat = octet.toNat := by
  have bound := octet.toNat_lt
  have valid : octet.toNat.isValidChar := Or.inl (by omega)
  rw [Char.ofNat, dif_pos valid]
  rfl

/-- The string of ASCII octets has just these octets. -/
theorem ofString_toAscii {octets : Octets} (ascii : ∀ octet ∈ octets, octet.toNat ≤ 0x7f) :
    ofString octets.toAscii = octets := by
  have chars : octets.toAscii.toList = octets.map fun octet => Char.ofNat octet.toNat := by
    rw [toAscii, String.toList_ofList]
  rw [ofString_of_ascii, chars, ofAscii, List.map_map]
  · refine List.map_id'' (fun octet => ?_) octets
    rw [Function.comp_apply, toNat_charOfNat, UInt8.ofNat_toNat]
  · intro c member
    rw [chars] at member
    obtain ⟨octet, present, rfl⟩ := List.mem_map.mp member
    rw [toNat_charOfNat]
    exact ascii octet present

end HashedDenial.Octets
