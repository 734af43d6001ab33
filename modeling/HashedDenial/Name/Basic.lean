import HashedDenial.Octets

/-!
# Domain names

A name is a list of labels, the nearest to the root last, and the root is the empty list. Its text
closes every label with a dot and writes the root as a single dot. No label holds a dot, so the text
determines the labels, and two names are equal exactly when their texts are, case included.

A zone is given by the text of its apex. A name lies in the zone when its text ends with that text,
ignoring case, at the start of a label.
-/
namespace HashedDenial

/-! ## Labels -/

/-- The dot that closes a label in the text of a name. -/
def dot : UInt8 := 0x2e

/-- Whether an octet may stand in a label: printable ASCII other than the dot. -/
def IsLabelOctet (octet : UInt8) : Prop := 0x21 ≤ octet ∧ octet ≤ 0x7e ∧ octet ≠ dot

instance (octet : UInt8) : Decidable (IsLabelOctet octet) :=
  inferInstanceAs (Decidable (_ ∧ _ ∧ _))

/-- The octets that make up a label: 1 to 63 of them. -/
def IsLabel (octets : Octets) : Prop :=
  0 < octets.length ∧ octets.length ≤ 63 ∧ ∀ octet ∈ octets, IsLabelOctet octet

instance (octets : Octets) : Decidable (IsLabel octets) :=
  have : Decidable (∀ octet ∈ octets, IsLabelOctet octet) := List.decidableBAll _ octets
  inferInstanceAs (Decidable (_ ∧ _ ∧ _))

/-- One label of a domain name. -/
structure Label where
  octets : Octets
  isLabel : IsLabel octets
  deriving DecidableEq

namespace Label

/-- The label with the given octets, if they make up one. -/
def ofOctets? (octets : Octets) : Option Label :=
  if valid : IsLabel octets then some ⟨octets, valid⟩ else none

/-- The label `*`. -/
def asterisk : Label where
  octets := [0x2a]
  isLabel := by simp [IsLabel, IsLabelOctet, dot]

theorem isLabelOctet_lower {octet : UInt8} (valid : IsLabelOctet octet) :
    IsLabelOctet (Octets.lowerOctet octet) := by
  unfold Octets.lowerOctet
  split
  next capital =>
    simp only [IsLabelOctet, dot, UInt8.le_iff_toNat_le, ne_eq, ← UInt8.toNat_inj] at *
    simp at *
    omega
  · exact valid

/-- The label with its capital letters lowered. -/
def canonical (label : Label) : Label where
  octets := label.octets.lower
  isLabel := by
    obtain ⟨nonempty, short, printable⟩ := label.isLabel
    refine ⟨by simpa using nonempty, by simpa using short, ?_⟩
    intro octet member
    obtain ⟨source, present, rfl⟩ := List.mem_map.mp member
    exact isLabelOctet_lower (printable source present)

end Label

/-! ## Names -/

/-- The octets that some labels take in the text of a name, each with its dot. -/
@[simp] def textLength : List Label → Nat
  | [] => 0
  | label :: labels => label.octets.length + 1 + textLength labels

@[simp] theorem textLength_map_canonical (labels : List Label) :
    textLength (labels.map Label.canonical) = textLength labels := by
  induction labels with
  | nil => rfl
  | cons label labels ih => simp [Label.canonical, ih]

/-- A domain name whose text has at most 255 octets. -/
structure Name where
  labels : List Label
  textLength_le : textLength labels ≤ 255
  deriving DecidableEq

namespace Name

def root : Name := ⟨[], by simp⟩

/-- The name with the given labels, if it is short enough. -/
def ofLabels? (labels : List Label) : Option Name :=
  if short : textLength labels ≤ 255 then some ⟨labels, short⟩ else none

/-! ### The text of a name -/

/-- The text of a name, every label closed by a dot. -/
def text (name : Name) : Octets :=
  match name.labels with
  | [] => [dot]
  | labels => labels.flatMap fun label => label.octets ++ [dot]

/-- Splits a text into the parts that its dots close. A text that goes on after its last dot is
refused. -/
def closedParts? : Octets → Option (List Octets)
  | [] => some []
  | octet :: rest =>
    if octet = dot then (closedParts? rest).map ([] :: ·)
    else
      match closedParts? rest with
      | some (part :: parts) => some ((octet :: part) :: parts)
      | _ => none

/-- Reads the text of a name. A single dot is the root; every other text is one or more labels,
each closed by a dot. -/
def ofText? (text : Octets) : Option Name :=
  if text = [dot] then some root
  else do
    let parts ← closedParts? text
    let labels ← parts.mapM Label.ofOctets?
    if labels.isEmpty then none else ofLabels? labels

/-- Reads a name from a string. -/
def ofString? (s : String) : Option Name := ofText? (Octets.ofString s)

instance : ToString Name where
  toString name := name.text.toAscii

/-- Names are ordered by the octets of their texts. -/
instance : Ord Name where
  compare left right := compare left.text right.text

/-! ### Ancestors and wildcards -/

/-- The number of labels, the root not counted. -/
def labelCount (name : Name) : Nat := name.labels.length

/-- The name one label up; the root has none. -/
def parent? : Name → Option Name
  | ⟨[], _⟩ => none
  | ⟨label :: labels, short⟩ => some ⟨labels, by rw [textLength] at short; omega⟩

/-- The name itself and each of its ancestors, longest first, down to the root. -/
def suffixes (name : Name) : List Name := go name.labels name.textLength_le
where
  go : (labels : List Label) → textLength labels ≤ 255 → List Name
  | [], short => [⟨[], short⟩]
  | label :: labels, short =>
    ⟨label :: labels, short⟩ :: go labels (by rw [textLength] at short; omega)

/-- Whether the first label is the asterisk. -/
def isWildcard (name : Name) : Bool := name.labels.head? = some Label.asterisk

/-- The wildcard directly below a name, unless its text would be too long. -/
def wildcardChild? (name : Name) : Option Name := ofLabels? (Label.asterisk :: name.labels)

/-- The name with its capital letters lowered. -/
def canonical (name : Name) : Name where
  labels := name.labels.map Label.canonical
  textLength_le := by simpa using name.textLength_le

/-! ### Tests on the text of a name -/

/-- Whether the text of a name is the given one up to case. -/
def hasText (name : Name) (text : Octets) : Bool := name.text.eqIgnoringCase text

/-- Whether a name is the apex of a zone or lies below it. The text of the zone need not be the
text of a name: every name lies in the zone with the empty text. -/
def inZone (name : Name) (zone : Octets) : Bool :=
  let outside := name.text.length - zone.length
  zone = [dot] ∨
    (zone.length ≤ name.text.length ∧ Octets.eqIgnoringCase (name.text.drop outside) zone ∧
      (outside = 0 ∨ (name.text.take outside).getLast? = some dot))

end Name

end HashedDenial
