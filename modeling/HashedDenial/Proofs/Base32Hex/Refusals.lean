import HashedDenial.Proofs.Base32Hex
import Mathlib.Data.List.Basic

/-!
# Texts that are not base32hex

The decoder refuses a text for one of three reasons: it holds an octet that is no digit, its length
is one that no octets have, or a bit is set behind the last whole octet. Every other text is read.
-/
namespace HashedDenial.Base32Hex

open Octets

variable {octet : UInt8} {text : Octets} {values : List Nat}

/-! ## Foreign octets -/

/-- Whether an octet is no digit in either case. -/
def IsForeign (octet : UInt8) : Prop := ∀ value < 32, lowerOctet octet ≠ digit value

theorem digitValue?_eq_none_iff : digitValue? octet = none ↔ IsForeign octet := by
  constructor
  · intro unread value small same
    have read := digitValue?_digit small
    rw [← same, digitValue?_lowerOctet, unread] at read
    cases read
  · intro foreign
    cases read : digitValue? octet with
    | none => rfl
    | some value =>
      obtain ⟨small, same⟩ := lowerOctet_of_digitValue? read
      exact absurd same (foreign value small)

theorem mapM_digitValue?_eq_none_iff :
    text.mapM digitValue? = none ↔ ∃ octet ∈ text, IsForeign octet := by
  induction text with
  | nil => simp
  | cons octet text ih =>
    rw [List.mapM_cons, List.exists_mem_cons_iff, ← ih, ← digitValue?_eq_none_iff]
    cases digitValue? octet <;> cases text.mapM digitValue? <;> simp

theorem length_of_mapM_digitValue? (read : text.mapM digitValue? = some values) :
    values.length = text.length := by
  have lowered := (lower_of_mapM_digitValue? read).2
  rw [← length_lower text, lowered, List.length_map]

/-! ## Spare bits -/

/-- The bits of some digits that stand behind the last whole octet. -/
def spareBits (values : List Nat) : List Bool :=
  (values.flatMap (Bits.ofNat 5)).drop (8 * (5 * values.length / 8))

theorem length_flatMap_ofNat (values : List Nat) :
    (values.flatMap (Bits.ofNat 5)).length = 5 * values.length := by
  simp [List.length_flatMap, List.map_const', Nat.mul_comm]

theorem length_spareBits (values : List Nat) :
    (spareBits values).length = 5 * values.length % 8 := by
  rw [spareBits, List.length_drop, length_flatMap_ofNat]
  omega

/-- The spare bits make up a digit of their own for three lengths out of eight. -/
theorem length_spareBits_lt_iff (read : text.mapM digitValue? = some values) :
    (spareBits values).length < 5 ↔ text.length % 8 ∉ [1, 3, 6] := by
  have classes : ∀ rest : Fin 8, 5 * rest.val % 8 < 5 ↔ rest.val ∉ [1, 3, 6] := by decide
  rw [length_spareBits, length_of_mapM_digitValue? read, Nat.mul_mod]
  exact classes ⟨text.length % 8, Nat.mod_lt _ (by decide)⟩

/-- A text of digits is read unless its length or its spare bits are wrong. -/
theorem decode?_of_mapM (read : text.mapM digitValue? = some values) :
    decode? text = if text.length % 8 ∈ [1, 3, 6] ∨ true ∈ spareBits values then none
      else some (ofBits (values.flatMap (Bits.ofNat 5))) := by
  have spare : (values.flatMap (Bits.ofNat 5)).drop
      (8 * ((values.flatMap (Bits.ofNat 5)).length / 8)) = spareBits values := by
    rw [length_flatMap_ofNat, spareBits]
  have few := length_spareBits_lt_iff read
  have zero : (spareBits values).all not ↔ true ∉ spareBits values := by
    simp [List.all_eq_true]
  simp only [decode?, read, Option.bind_eq_bind, Option.bind_some, spare, few, zero, ← not_or,
    ite_not]

/-- A text is refused for a foreign octet, for its length or for a spare bit, and for nothing
else. -/
theorem decode?_eq_none_iff : decode? text = none ↔
    (∃ octet ∈ text, IsForeign octet) ∨ text.length % 8 ∈ [1, 3, 6] ∨
      ∃ values, text.mapM digitValue? = some values ∧ true ∈ spareBits values := by
  rw [← mapM_digitValue?_eq_none_iff]
  cases read : text.mapM digitValue? with
  | none => simp [decode?, read]
  | some values =>
    simp only [decode?_of_mapM read, ite_eq_left_iff, reduceCtorEq, imp_false, not_not, false_or,
      Option.some.injEq, exists_eq_left']

end HashedDenial.Base32Hex
