import HashedDenial.Proofs.Name.Validity
import Mathlib.Data.Nat.PSub

/-!
# The zone test by offsets

The zone is compared with the end of the text, from the offset that the two lengths leave, and a
label has to begin at that offset. Differences, cuts and look-ups need not have a result, but the
steps of the test come in an order in which they always have one: the zone is no longer than the
text, a text has no character that a cut could part, and an offset other than zero has an octet
before it.
-/
namespace HashedDenial

namespace Octets

/-- Whether a character may begin at a position of a UTF-8 text: what stands there is no octet that
continues a character. -/
def BeginsAt (position : Nat) (text : Octets) : Prop :=
  ∀ octet, text[position]? = some octet → octet < 0x80 ∨ 0xc0 ≤ octet

instance (position : Nat) (text : Octets) : Decidable (BeginsAt position text) :=
  decidable_of_iff ((text[position]?).all fun octet => octet < 0x80 ∨ 0xc0 ≤ octet) <| by
    simp [BeginsAt, Option.all_eq_true]

/-- What stands from a position on, unless the position is outside the text or inside a
character. -/
def from? (position : Nat) (text : Octets) : Option Octets :=
  if position ≤ text.length ∧ BeginsAt position text then some (text.drop position) else none

/-- Whether a label may begin at an offset of a text: at the start, or after a dot. -/
def startsLabel? (offset : Nat) (text : Octets) : Option Bool :=
  if offset = 0 then some true
  else do
    let before ← offset.psub' 1
    let octet ← text[before]?
    some (octet = dot)

theorem startsLabel?_eq {offset : Nat} {text : Octets} (within : offset ≤ text.length) :
    startsLabel? offset text =
      some (decide (offset = 0 ∨ (text.take offset).getLast? = some dot)) := by
  rw [startsLabel?]
  split
  next start => simp [start]
  next later =>
    have positive : 1 ≤ offset := Nat.pos_of_ne_zero later
    have before : offset.psub' 1 = some (offset - 1) := if_pos positive
    have inside : offset - 1 < text.length := by omega
    -- what is cut off ends with the octet that is looked up
    have last : (text.take offset).getLast? = some text[offset - 1] := by
      rw [List.getLast?_eq_getElem?, List.length_take, Nat.min_eq_left within, List.getElem?_take,
        if_pos (by omega), List.getElem?_eq_getElem inside]
    simp [before, List.getElem?_eq_getElem inside, last, later]

end Octets

namespace Name

open Octets

/-- Whether a name lies in a zone, by differences, cuts and look-ups that may have no result. -/
def inZoneByOffset? (name : Name) (zone : Octets) : Option Bool :=
  if zone = [dot] then some true
  else if name.text.length < zone.length then some false
  else do
    let offset ← name.text.length.psub' zone.length
    let ending ← from? offset name.text
    if ending.eqIgnoringCase zone then startsLabel? offset name.text else some false

theorem beginsAt_text (name : Name) (position : Nat) : BeginsAt position name.text := by
  intro octet stands
  have ascii := name.ascii_text octet (List.mem_of_getElem? stands)
  left
  rw [UInt8.lt_iff_toNat_lt]
  exact Nat.lt_succ_of_le ascii

theorem from?_text {name : Name} {position : Nat} (within : position ≤ name.text.length) :
    from? position name.text = some (name.text.drop position) :=
  if_pos ⟨within, beginsAt_text name position⟩

/-- The test by offsets always has a result, whether or not the zone is the text of a name. -/
theorem inZoneByOffset?_eq (name : Name) (zone : Octets) :
    name.inZoneByOffset? zone = some (name.inZone zone) := by
  rw [inZoneByOffset?, inZone]
  by_cases top : zone = [dot]
  · simp [top]
  by_cases long : name.text.length < zone.length
  · simp [top, long, Nat.not_le.mpr long]
  · -- the zone is no longer than the text, so the offset and what stands behind it exist
    have fits : zone.length ≤ name.text.length := Nat.not_lt.mp long
    have within : name.text.length - zone.length ≤ name.text.length := Nat.sub_le _ _
    have offset : name.text.length.psub' zone.length = some (name.text.length - zone.length) :=
      if_pos fits
    simp only [if_neg top, if_neg long, offset, from?_text within, startsLabel?_eq within,
      Option.bind_eq_bind, Option.bind_some]
    split
    next equal => simp [top, fits, equal]
    next different => simp [top, different]

end Name

end HashedDenial
