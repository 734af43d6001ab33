/-!
# Octets

Every text and every wire field is a list of octets. Letters are compared the way domain names are,
without regard to ASCII case and with every other octet compared exactly. Octets are groups of eight
bits, and any other group size reads the same bits in larger or smaller digits.
-/
namespace HashedDenial

/-- A sequence of octets. -/
abbrev Octets := List UInt8

/-! ## Texts -/

namespace Octets

/-- The UTF-8 octets of a string. -/
def ofString (s : String) : Octets := s.toUTF8.data.toList

/-- The string with one character for each octet, which reads ASCII text back. -/
def toAscii (octets : Octets) : String :=
  String.ofList (octets.map fun octet => Char.ofNat octet.toNat)

/-- Lowers an ASCII capital letter and keeps every other octet. -/
def lowerOctet (octet : UInt8) : UInt8 :=
  if 0x41 ≤ octet ∧ octet ≤ 0x5a then octet + 0x20 else octet

/-- Lowers the ASCII capital letters of a text. -/
def lower (octets : Octets) : Octets := octets.map lowerOctet

/-- Whether two texts differ at most in the case of ASCII letters. -/
def eqIgnoringCase (left right : Octets) : Bool := lower left == lower right

@[simp] theorem length_lower (octets : Octets) : (lower octets).length = octets.length := by
  simp [lower]

@[simp] theorem eqIgnoringCase_iff (left right : Octets) :
    eqIgnoringCase left right = true ↔ lower left = lower right := by
  simp [eqIgnoringCase]

end Octets

/-! ## Pieces -/

section Chunks

variable {α : Type}

/-- The first `count` pieces of `size` elements each; a piece past the end is shorter or empty. -/
def chunks (size : Nat) : (count : Nat) → List α → List (List α)
  | 0, _ => []
  | count + 1, items => items.take size :: chunks size count (items.drop size)

@[simp] theorem length_chunks (size count : Nat) (items : List α) :
    (chunks size count items).length = count := by
  induction count generalizing items with
  | zero => rfl
  | succ count ih => simp [chunks, ih]

end Chunks

/-! ## Bits, most significant first -/

namespace Bits

/-- The low `width` bits of a number. -/
def ofNat : (width : Nat) → (number : Nat) → List Bool
  | 0, _ => []
  | width + 1, number => ofNat width (number / 2) ++ [number % 2 == 1]

/-- The number whose binary digits are the given bits. -/
def toNat (bits : List Bool) : Nat :=
  bits.foldl (fun number bit => 2 * number + bit.toNat) 0

@[simp] theorem length_ofNat (width number : Nat) : (ofNat width number).length = width := by
  induction width generalizing number with
  | zero => rfl
  | succ width ih => simp [ofNat, ih]

end Bits

namespace Octets

/-- The bits of all octets in order. -/
def toBits (octets : Octets) : List Bool :=
  octets.flatMap fun octet => Bits.ofNat 8 octet.toNat

/-- The octets that a list of bits fills completely; up to seven bits at the end are left out. -/
def ofBits (bits : List Bool) : Octets :=
  (chunks 8 (bits.length / 8) bits).map fun group => UInt8.ofNat (Bits.toNat group)

end Octets

end HashedDenial
