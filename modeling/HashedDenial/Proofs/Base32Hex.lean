import HashedDenial.Base32Hex
import HashedDenial.Name.Basic
import HashedDenial.Proofs.Octets.Bits

/-!
# Base32hex texts

The encoder fills the last digit with fewer than five zero bits, and these are the spare bits that
the decoder asks for, so every list of octets is read back from its text. It is read from that text
in either case and from no other.
-/
namespace HashedDenial.Base32Hex

open Octets

theorem digitValue?_digit {value : Nat} (small : value < 32) :
    digitValue? (digit value) = some value := by
  have all_digits : ∀ value : Fin 32, digitValue? (digit value) = some value.val := by decide
  exact all_digits ⟨value, small⟩

theorem mapM_digitValue?_digit {values : List Nat} (small : ∀ value ∈ values, value < 32) :
    (values.map digit).mapM digitValue? = some values := by
  induction values with
  | nil => rfl
  | cons value values ih =>
    obtain ⟨first, others⟩ := List.forall_mem_cons.mp small
    rw [List.map_cons, List.mapM_cons, digitValue?_digit first, ih others]
    rfl

/-! ## Digits in either case -/

theorem digitValue?_lowerOctet (digit : UInt8) :
    digitValue? (lowerOctet digit) = digitValue? digit := by
  have all_octets : ∀ code : Fin 256,
      digitValue? (lowerOctet (UInt8.ofNat code)) = digitValue? (UInt8.ofNat code) := by
    decide +kernel
  have here := all_octets ⟨digit.toNat, digit.toNat_lt⟩
  rwa [UInt8.ofNat_toNat] at here

theorem decode?_lower (text : Octets) : decode? text.lower = decode? text := by
  have values : digitValue? ∘ lowerOctet = digitValue? := funext digitValue?_lowerOctet
  rw [decode?, decode?, lower, List.mapM_map, values]

/-- A digit is read from one octet up to case. -/
theorem lowerOctet_of_digitValue? {octet : UInt8} {value : Nat}
    (read : digitValue? octet = some value) : value < 32 ∧ lowerOctet octet = digit value := by
  have all_octets : ∀ code : Fin 256, ∀ value ∈ digitValue? (UInt8.ofNat code),
      value < 32 ∧ lowerOctet (UInt8.ofNat code) = digit value := by
    decide +kernel
  have here := all_octets ⟨octet.toNat, octet.toNat_lt⟩ value
  rw [UInt8.ofNat_toNat] at here
  exact here read

theorem lower_of_mapM_digitValue? {text : Octets} {values : List Nat}
    (read : text.mapM digitValue? = some values) :
    (∀ value ∈ values, value < 32) ∧ text.lower = values.map digit := by
  induction text generalizing values with
  | nil =>
    cases read
    exact ⟨by simp, rfl⟩
  | cons octet text ih =>
    simp only [List.mapM_cons, bind, Option.bind_eq_some_iff, pure, Option.some.injEq] at read
    obtain ⟨value, first, others, later, rfl⟩ := read
    obtain ⟨small, digit⟩ := lowerOctet_of_digitValue? first
    obtain ⟨smalls, digits⟩ := ih later
    exact ⟨List.forall_mem_cons.mpr ⟨small, smalls⟩, congrArg₂ List.cons digit digits⟩

/-! ## The filled bits -/

variable (octets : Octets)

/-- How many zero bits fill up the last digit. -/
def fillCount : Nat := 5 * ((octets.toBits.length + 4) / 5) - octets.toBits.length

/-- The values of the digits of some octets. -/
def digitValues : List Nat :=
  (chunks 5 ((octets.toBits.length + 4) / 5)
    (octets.toBits ++ List.replicate (fillCount octets) false)).map Bits.toNat

theorem encode_eq : encode octets = (digitValues octets).map digit := by
  rw [digitValues, List.map_map]
  rfl

theorem length_encode : (encode octets).length = (8 * octets.length + 4) / 5 := by
  rw [encode_eq, List.length_map, digitValues, List.length_map, length_chunks,
    Octets.length_toBits]

theorem length_filled : (octets.toBits ++ List.replicate (fillCount octets) false).length =
    5 * ((octets.toBits.length + 4) / 5) := by
  rw [List.length_append, List.length_replicate, fillCount]
  omega

theorem digitValues_lt : ∀ value ∈ digitValues octets, value < 32 := by
  intro value member
  obtain ⟨group, listed, rfl⟩ := List.mem_map.mp member
  have five := length_of_mem_chunks (Nat.le_of_eq (length_filled octets).symm) listed
  have bound := Bits.toNat_lt group
  rwa [five] at bound

/-- A text in base32hex may stand in a label. -/
theorem isLabelOctet_of_mem_encode {octets : Octets} {octet : UInt8}
    (member : octet ∈ encode octets) : IsLabelOctet octet := by
  have all_digits : ∀ value : Fin 32, IsLabelOctet (digit value) := by decide
  rw [encode_eq] at member
  obtain ⟨value, listed, rfl⟩ := List.mem_map.mp member
  exact all_digits ⟨value, digitValues_lt octets value listed⟩

/-- The digits hold the bits of the octets and nothing but zeros after them. -/
theorem flatMap_digitValues : (digitValues octets).flatMap (Bits.ofNat 5) =
    octets.toBits ++ List.replicate (fillCount octets) false := by
  rw [digitValues, List.flatMap_map, List.flatMap_def,
    List.map_congr_left fun _ => Bits.ofNat_toNat_of_mem_chunks (length_filled octets),
    List.map_id', flatten_chunks (length_filled octets)]

theorem decode?_encode : decode? (encode octets) = some octets := by
  -- the spare bits that the decoder looks at are the bits that fill the last digit
  have whole : 8 * ((octets.toBits ++ List.replicate (fillCount octets) false).length / 8) =
      octets.toBits.length := by
    rw [length_filled, Octets.length_toBits]
    omega
  have few : fillCount octets < 5 := by
    rw [fillCount]
    omega
  rw [decode?, encode_eq, mapM_digitValue?_digit (digitValues_lt octets)]
  simp only [Option.bind_eq_bind, Option.bind_some, flatMap_digitValues]
  rw [whole, List.drop_left, if_pos]
  · rw [Octets.ofBits_toBits_append octets]
    rw [List.length_replicate]
    omega
  · constructor
    · rwa [List.length_replicate]
    · simp

/-! ## Every text that is read -/

variable {octets} {text : Octets} {values : List Nat}

/-- The digits of some octets are the only values that hold their bits and fewer than five zeros
after them. -/
theorem digitValues_eq {spare : Nat} (small : ∀ value ∈ values, value < 32) (few : spare < 5)
    (bits : values.flatMap (Bits.ofNat 5) = octets.toBits ++ List.replicate spare false) :
    digitValues octets = values := by
  have pieces : (values.map (Bits.ofNat 5)).flatten =
      octets.toBits ++ List.replicate spare false := by
    rw [← List.flatMap_def, bits]
  have five : ∀ piece ∈ values.map (Bits.ofNat 5), piece.length = 5 := by simp
  have length : 5 * values.length = octets.toBits.length + spare := by
    have counted := congrArg List.length bits
    simpa [List.length_flatMap, List.map_const', Nat.mul_comm] using counted
  -- the number of digits leaves no choice of how many zeros follow
  have count : (octets.toBits.length + 4) / 5 = (values.map (Bits.ofNat 5)).length := by
    rw [List.length_map]
    omega
  have fill : fillCount octets = spare := by
    rw [fillCount]
    omega
  have groups := chunks_flatten five []
  rw [List.append_nil] at groups
  rw [digitValues, fill, ← pieces, count, groups, List.map_map]
  exact (List.map_congr_left fun value member => Bits.toNat_ofNat (small value member)).trans
    (List.map_id _)

/-- The decoder takes the text that the encoder writes, in either case, and no other. -/
theorem decode?_eq_some_iff : decode? text = some octets ↔ text.lower = encode octets := by
  constructor
  · intro decoded
    simp only [decode?, bind, Option.bind_eq_some_iff] at decoded
    obtain ⟨values, read, decoded⟩ := decoded
    obtain ⟨small, lowered⟩ := lower_of_mapM_digitValue? read
    split at decoded
    next spare =>
      cases decoded
      obtain ⟨few, zeros⟩ := spare
      have fill := List.eq_replicate_iff.mpr
        ⟨rfl, fun bit member => (Bool.not_eq_true' bit).mp (List.all_eq_true.mp zeros bit member)⟩
      have bits := toBits_ofBits_append_drop (values.flatMap (Bits.ofNat 5))
      rw [fill] at bits
      rw [lowered, encode_eq, digitValues_eq small few bits.symm]
    · cases decoded
  · intro lowered
    rw [← decode?_lower, lowered, decode?_encode]

theorem lower_encode (octets : Octets) : (encode octets).lower = encode octets :=
  decode?_eq_some_iff.mp (decode?_encode octets)

end HashedDenial.Base32Hex
