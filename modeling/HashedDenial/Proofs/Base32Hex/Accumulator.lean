import HashedDenial.Proofs.Base32Hex.Refusals

/-!
# Base32hex digit by digit

A decoder that takes one digit after another has to remember fewer than eight bits between two of
them, so a number of sixteen bits is room enough for these and the next five. It reads what the
decoder of whole texts reads.

The invariant is `Accumulator.Holds`: the octets given out and the pending bits are the bits read so
far. One digit keeps it (`Accumulator.Holds.push`), hence every text does.
-/
namespace HashedDenial.Base32Hex

open Octets

variable {text : Octets} {values : List Nat} {value : Nat}

/-! ## Sixteen bits -/

theorem toNat_append_digit {number : UInt16} (small : number.toNat < 2 ^ 11)
    (digit : value < 2 ^ 5) :
    (number <<< 5 ||| UInt16.ofNat value).toNat = number.toNat * 2 ^ 5 + value := by
  have shifted : (number <<< 5).toNat = number.toNat <<< 5 := by
    have amount : (5 : UInt16).toNat % 16 = 5 := rfl
    rw [UInt16.toNat_shiftLeft, amount, Nat.shiftLeft_eq]
    exact Nat.mod_eq_of_lt (by omega)
  rw [UInt16.toNat_or, shifted, UInt16.toNat_ofNat', Nat.mod_eq_of_lt (by omega),
    ← Nat.shiftLeft_add_eq_or_of_lt digit, Nat.shiftLeft_eq]

theorem toNat_shiftRight_ofNat {shift : Nat} (short : shift < 16) (number : UInt16) :
    (number >>> UInt16.ofNat shift).toNat = number.toNat / 2 ^ shift := by
  rw [UInt16.toNat_shiftRight, UInt16.toNat_ofNat', Nat.shiftRight_eq_div_pow]
  congr 2
  omega

theorem toNat_and_mask {shift : Nat} (short : shift < 16) (number : UInt16) :
    (number &&& ((1 <<< UInt16.ofNat shift) - 1)).toNat = number.toNat % 2 ^ shift := by
  have amount : (UInt16.ofNat shift).toNat % 16 = shift := by
    rw [UInt16.toNat_ofNat']
    omega
  have bound : 2 ^ shift < 2 ^ 16 := Nat.pow_lt_pow_right (by decide) short
  have power : ((1 : UInt16) <<< UInt16.ofNat shift).toNat = 2 ^ shift := by
    rw [UInt16.toNat_shiftLeft, amount, UInt16.toNat_one, Nat.one_shiftLeft,
      Nat.mod_eq_of_lt bound]
  have positive : (1 : UInt16) ≤ 1 <<< UInt16.ofNat shift := by
    rw [UInt16.le_iff_toNat_le, power]
    exact Nat.two_pow_pos shift
  rw [UInt16.toNat_and, UInt16.toNat_sub_of_le _ _ positive, power, UInt16.toNat_one,
    Nat.and_two_pow_sub_one_eq_mod]

/-! ## One digit -/

/-- A decoder between two digits: the octets that are complete, and behind them the `count` low bits
of a number. -/
structure Accumulator where
  octets : Octets
  pending : UInt16
  count : Nat

namespace Accumulator

variable {acc : Accumulator} {bits : List Bool}

/-- Before the first digit nothing is known. -/
def start : Accumulator := ⟨[], 0, 0⟩

/-- Takes up the five bits of a digit, and gives out an octet once eight bits are there. -/
def push (acc : Accumulator) (value : Nat) : Accumulator :=
  let pending := acc.pending <<< 5 ||| UInt16.ofNat value
  if acc.count + 5 < 8 then ⟨acc.octets, pending, acc.count + 5⟩
  else
    let rest := UInt16.ofNat (acc.count + 5 - 8)
    ⟨acc.octets ++ [(pending >>> rest).toUInt8], pending &&& ((1 <<< rest) - 1),
      acc.count + 5 - 8⟩

/-- What the decoder remembers of the bits read so far: all of them, fewer than eight as a
number. -/
structure Holds (acc : Accumulator) (bits : List Bool) : Prop where
  few : acc.count < 8
  small : acc.pending.toNat < 2 ^ acc.count
  bits_eq : acc.octets.toBits ++ Bits.ofNat acc.count acc.pending.toNat = bits

theorem holds_start : start.Holds [] := ⟨by decide, by decide, rfl⟩

/-- A digit adds its five bits to those read so far. -/
theorem Holds.push (held : acc.Holds bits) (digit : value < 2 ^ 5) :
    (acc.push value).Holds (bits ++ Bits.ofNat 5 value) := by
  obtain ⟨few, small, rfl⟩ := held
  have short : acc.pending.toNat < 2 ^ 7 :=
    Nat.lt_of_lt_of_le small (Nat.pow_le_pow_right (by decide) (by omega))
  have pending : (acc.pending <<< 5 ||| UInt16.ofNat value).toNat =
      acc.pending.toNat * 2 ^ 5 + value := toNat_append_digit (by omega) digit
  have bound : acc.pending.toNat * 2 ^ 5 + value < 2 ^ (acc.count + 5) := by
    rw [Nat.pow_add]
    omega
  rw [List.append_assoc, ← Bits.ofNat_append digit, Accumulator.push]
  split
  next fits =>
    -- no octet is complete yet
    refine ⟨fits, ?_, ?_⟩
    · rw [pending]
      exact bound
    · rw [pending]
  next full =>
    -- the eight high bits make an octet, and the low ones stay
    obtain ⟨rest, total⟩ := Nat.exists_eq_add_of_le (Nat.le_of_not_lt full)
    have left : acc.count + 5 - 8 = rest := by omega
    have whole : (acc.pending.toNat * 2 ^ 5 + value) / 2 ^ rest < 2 ^ 8 := by
      rw [total, Nat.pow_add] at bound
      exact Nat.div_lt_of_lt_mul (by rwa [Nat.mul_comm (2 ^ rest)])
    rw [left, total]
    refine ⟨show rest < 8 by omega, ?_, ?_⟩
    · rw [toNat_and_mask (by omega)]
      exact Nat.mod_lt _ (Nat.two_pow_pos rest)
    · rw [toNat_and_mask (by omega), pending, Bits.ofNat_mod, toBits_concat,
        UInt16.toNat_toUInt8, toNat_shiftRight_ofNat (by omega), pending, Nat.mod_eq_of_lt whole,
        List.append_assoc, Bits.ofNat_add]

/-- The octets given out are those that the bits fill, and the pending bits are left over. -/
theorem Holds.eq_ofBits (held : acc.Holds bits) : acc.octets = ofBits bits ∧
    Bits.ofNat acc.count acc.pending.toNat = bits.drop (8 * (bits.length / 8)) := by
  obtain ⟨few, _, rfl⟩ := held
  have short : (Bits.ofNat acc.count acc.pending.toNat).length < 8 := by rwa [Bits.length_ofNat]
  have whole : 8 * ((acc.octets.toBits ++
      Bits.ofNat acc.count acc.pending.toNat).length / 8) = acc.octets.toBits.length := by
    rw [List.length_append, length_toBits, Bits.length_ofNat]
    omega
  rw [ofBits_toBits_append acc.octets short, whole, List.drop_left]
  exact ⟨rfl, rfl⟩

/-! ## All digits -/

/-- Takes up the digits of a text one after another. -/
def pushAll? (acc : Accumulator) (text : Octets) : Option Accumulator :=
  text.foldlM (fun acc octet => (digitValue? octet).map acc.push) acc

theorem pushAll?_eq_none (unread : text.mapM digitValue? = none) (acc : Accumulator) :
    acc.pushAll? text = none := by
  induction text generalizing acc with
  | nil => cases unread
  | cons octet text ih =>
    rw [pushAll?, List.foldlM_cons]
    cases first : digitValue? octet with
    | none => rfl
    | some value =>
      -- the foreign octet is among the later ones
      apply ih
      cases later : text.mapM digitValue? with
      | none => rfl
      | some others => simp [first, later] at unread

theorem Holds.exists_pushAll? (held : acc.Holds bits) (read : text.mapM digitValue? = some values) :
    ∃ after, acc.pushAll? text = some after ∧
      after.Holds (bits ++ values.flatMap (Bits.ofNat 5)) := by
  induction text generalizing acc bits values with
  | nil =>
    cases read
    exact ⟨acc, rfl, by simpa using held⟩
  | cons octet text ih =>
    simp only [List.mapM_cons, bind, Option.bind_eq_some_iff, pure, Option.some.injEq] at read
    obtain ⟨value, first, others, later, rfl⟩ := read
    obtain ⟨after, done, final⟩ := ih (held.push (lowerOctet_of_digitValue? first).1) later
    refine ⟨after, ?_, ?_⟩
    · rw [← done, pushAll?, pushAll?, List.foldlM_cons, first]
      rfl
    · rwa [List.flatMap_cons, ← List.append_assoc]

end Accumulator

/-- Decodes a text digit by digit. -/
def decodeByDigits? (text : Octets) : Option Octets := do
  let acc ← Accumulator.start.pushAll? text
  if text.length % 8 ∈ [1, 3, 6] ∨ acc.pending ≠ 0 then none else some acc.octets

/-- Digit by digit the same is read as from the whole text. -/
theorem decodeByDigits?_eq (text : Octets) : decodeByDigits? text = decode? text := by
  rw [decodeByDigits?]
  cases read : text.mapM digitValue? with
  | none => simp [Accumulator.pushAll?_eq_none read, decode?, read]
  | some values =>
    obtain ⟨after, done, held⟩ := Accumulator.holds_start.exists_pushAll? read
    rw [List.nil_append] at held
    obtain ⟨complete, pending⟩ := held.eq_ofBits
    rw [length_flatMap_ofNat] at pending
    -- what is pending at the end are the spare bits
    have set : after.pending ≠ 0 ↔ true ∈ spareBits values := by
      rw [spareBits, ← pending, Bits.true_mem_ofNat_iff held.small, ne_eq, ← UInt16.toNat_inj]
      rfl
    rw [decode?_of_mapM read, done, Option.bind_eq_bind, Option.bind_some, complete]
    simp only [set]

/-! ## What is read -/

/-- The decoder takes the one text of some octets, in either case, and refuses all others; it may
work digit by digit. -/
theorem decode?_exact (text : Octets) :
    (∀ octets, decode? text = some octets ↔ text.lower = encode octets) ∧
      (∀ octets, decode? (encode octets) = some octets) ∧
      (decode? text = none ↔
        (∃ octet ∈ text, IsForeign octet) ∨ text.length % 8 ∈ [1, 3, 6] ∨
          ∃ values, text.mapM digitValue? = some values ∧ true ∈ spareBits values) ∧
      (∀ other octets, decode? text = some octets → decode? other = some octets →
        text.lower = other.lower) ∧
      decodeByDigits? text = decode? text := by
  refine ⟨fun octets => decode?_eq_some_iff, decode?_encode, decode?_eq_none_iff, ?_,
    decodeByDigits?_eq text⟩
  intro other octets decoded decoded'
  rw [decode?_eq_some_iff.mp decoded, decode?_eq_some_iff.mp decoded']

/-- The text of one octet in capital and in small letters. -/
theorem decode?_exact_capital : decode? [0x43, 0x4f] = some [0x66] ∧
    lower [0x43, 0x4f] = lower [0x63, 0x6f] := by
  obtain ⟨read_iff, _, _, same, _⟩ := decode?_exact [0x43, 0x4f]
  have capital : decode? [0x43, 0x4f] = some [0x66] := (read_iff [0x66]).mpr (by decide)
  have small : decode? [0x63, 0x6f] = some [0x66] := by decide
  exact ⟨capital, same [0x63, 0x6f] [0x66] capital small⟩

end HashedDenial.Base32Hex
