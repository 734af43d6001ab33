import HashedDenial.Proofs.Name.Zone
import HashedDenial.Name.Wire

/-!
# The case of names

Lowering the capital letters of a name commutes with all that is built from the name: its parent,
its suffixes and the wildcard below it. The zone test, the wire form and the test for a wildcard do
not see the case at all.
-/
namespace HashedDenial

namespace Octets

@[simp] theorem lowerOctet_lowerOctet (octet : UInt8) :
    lowerOctet (lowerOctet octet) = lowerOctet octet := by
  unfold lowerOctet
  split
  next capital =>
    -- a lowered capital is a small letter, above all capitals
    rw [if_neg]
    simp only [UInt8.le_iff_toNat_le, UInt8.toNat_add] at *
    simp at *
    omega
  next other => rfl

@[simp] theorem lower_lower (octets : Octets) : lower (lower octets) = lower octets := by
  simp [lower]

end Octets

@[simp] theorem Label.canonical_canonical (label : Label) :
    label.canonical.canonical = label.canonical := by
  simp [Label.canonical]

/-- The asterisk is no letter, so no other label becomes one. -/
theorem Label.canonical_eq_asterisk_iff {label : Label} :
    label.canonical = asterisk ↔ label = asterisk := by
  rw [← octets_injective.eq_iff, ← octets_injective.eq_iff]
  exact Octets.lower_eq_singleton_iff_of_lt (by decide)

namespace Name

variable {name : Name} {zone : Octets}

@[simp] theorem canonical_canonical (name : Name) : name.canonical.canonical = name.canonical := by
  apply labels_injective
  simp

@[simp] theorem inZone_canonical (name : Name) (zone : Octets) :
    name.canonical.inZone zone = name.inZone zone :=
  inZone_congr name.canonical_canonical rfl

@[simp] theorem wire_canonical (name : Name) : name.canonical.wire = name.wire := by
  rw [wire, wire, canonical_canonical]

@[simp] theorem isWildcard_canonical (name : Name) :
    name.canonical.isWildcard = name.isWildcard := by
  cases labels : name.labels with
  | nil => simp [isWildcard, labels]
  | cons label rest => simp [isWildcard, labels, Label.canonical_eq_asterisk_iff]

theorem parent?_canonical (name : Name) : name.canonical.parent? = name.parent?.map canonical := by
  obtain ⟨_ | ⟨label, labels⟩, short⟩ := name <;> rfl

/-- Lowering keeps the length of the text, which is all that can rule out the wildcard. -/
theorem wildcardChild?_map_canonical (name : Name) :
    name.canonical.wildcardChild? = name.wildcardChild?.map canonical := by
  cases built : name.wildcardChild? with
  | some wildcard => exact wildcardChild?_canonical built
  | none =>
    -- the text of the wildcard is too long in either spelling
    have long : ¬ textLength (Label.asterisk :: name.labels) ≤ 255 := by
      intro short
      rw [wildcardChild?, ofLabels?, dif_pos short] at built
      cases built
    rw [wildcardChild?, ofLabels?, dif_neg]
    · rfl
    · simpa using long

end Name

end HashedDenial
