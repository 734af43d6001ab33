import HashedDenial.Octets

/-!
# Base32hex without padding

Thirty-two digits of five bits each, `0` to `9` and `a` to `v`. The digits keep the order of the
values that they stand for, so encoded texts sort as the octets do.
-/
namespace HashedDenial.Base32Hex

/-- The value of a digit in either case. -/
def digitValue? (digit : UInt8) : Option Nat :=
  if 0x30 ≤ digit ∧ digit ≤ 0x39 then some (digit.toNat - 0x30)
  else if 0x61 ≤ digit ∧ digit ≤ 0x76 then some (digit.toNat - 0x61 + 10)
  else if 0x41 ≤ digit ∧ digit ≤ 0x56 then some (digit.toNat - 0x41 + 10)
  else none

/-- The lower-case digit of a value below 32. -/
def digit (value : Nat) : UInt8 :=
  if value < 10 then UInt8.ofNat (0x30 + value) else UInt8.ofNat (0x61 + (value - 10))

/-- The digits of some octets; the last digit is filled up with zero bits. -/
def encode (octets : Octets) : Octets :=
  let bits := octets.toBits
  let count := (bits.length + 4) / 5
  let filled := bits ++ List.replicate (5 * count - bits.length) false
  (chunks 5 count filled).map fun group => digit (Bits.toNat group)

def decode? (text : Octets) : Option Octets := do
  let values ← text.mapM digitValue?
  let bits := values.flatMap (Bits.ofNat 5)
  -- The bits after the last whole octet must be too few for a digit of their own and all zero,
  -- which leaves each value a single text up to case.
  let spare := bits.drop (8 * (bits.length / 8))
  if spare.length < 5 ∧ spare.all not then some (Octets.ofBits bits) else none

end HashedDenial.Base32Hex
