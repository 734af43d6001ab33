import HashedDenial.Name.Basic
import HashedDenial.Octets.Field

/-!
# Names on the wire

Each label stands behind its length and a zero octet closes the name. Names are written in canonical
form, with capital letters lowered, and read as they are; compressed names are refused.
-/
namespace HashedDenial.Name

open Octets

/-- The canonical wire form of a name. -/
def wire (name : Name) : Octets :=
  (name.canonical.labels.flatMap fun label => counted label.octets) ++ [0]

/-- The number of octets in the wire form. -/
def wireLength (name : Name) : Nat := textLength name.labels + 1

/-- Reads labels up to the zero octet that closes a name. A length above 63 is a compression
pointer or reserved. -/
def readLabels? : Octets → Option (List Label × Octets)
  | [] => none
  | length :: input =>
    if length = 0 then some ([], input)
    else if length ≤ 63 ∧ length.toNat ≤ input.length then do
      let label ← Label.ofOctets? (input.take length.toNat)
      let (labels, rest) ← readLabels? (input.drop length.toNat)
      some (label :: labels, rest)
    else none
termination_by input => input.length
decreasing_by exact Nat.lt_succ_of_le (List.length_drop ▸ Nat.sub_le _ _)

/-- Reads an uncompressed name and returns the octets after it. -/
def read? (input : Octets) : Option (Name × Octets) := do
  let (labels, rest) ← readLabels? input
  let name ← ofLabels? labels
  some (name, rest)

/-! A name takes at least its closing octet, so reading one leaves fewer octets than there were. -/

theorem length_of_readLabels? {input rest : Octets} {labels : List Label}
    (returned : readLabels? input = some (labels, rest)) : rest.length < input.length := by
  fun_induction readLabels? input generalizing labels rest with
  | case1 => cases returned
  | case2 => cases returned; simp
  | case3 length input _ _ ih =>
    obtain ⟨label, _, continued⟩ := Option.bind_eq_some_iff.mp returned
    obtain ⟨⟨others, rest'⟩, read, same⟩ := Option.bind_eq_some_iff.mp continued
    cases same
    have shorter := ih read
    simp at shorter ⊢
    omega
  | case4 => cases returned

theorem length_of_read? {input rest : Octets} {name : Name}
    (returned : read? input = some (name, rest)) : rest.length < input.length := by
  obtain ⟨⟨labels, rest'⟩, read, continued⟩ := Option.bind_eq_some_iff.mp returned
  obtain ⟨name', _, same⟩ := Option.bind_eq_some_iff.mp continued
  cases same
  exact length_of_readLabels? read

theorem length_flatMap_counted (labels : List Label) :
    (labels.flatMap fun label => counted label.octets).length = textLength labels := by
  induction labels with
  | nil => rfl
  | cons label labels ih =>
    rw [List.flatMap_cons, List.length_append, ih]
    simp [counted]

theorem length_wire (name : Name) : name.wire.length = name.wireLength := by
  rw [wire, wireLength, List.length_append, length_flatMap_counted]
  simp [canonical]

end HashedDenial.Name
