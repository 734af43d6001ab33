import HashedDenial.Proofs.Name.Case
import HashedDenial.Proofs.Name.Validity
import HashedDenial.Proofs.Name.Wire

/-!
# Wire forms and texts

The dots of a text part it into the labels and an empty part behind the last of them, and with its
count before each part this is the wire form: the count of the empty part is the zero octet at the
end. So the wire form holds one octet more than the text. The limit of 255 octets is put on the
text, and a text that reaches it has a wire form of 256 octets.
-/
namespace HashedDenial

namespace Name

open Octets

variable {name other : Name}

/-! ## Parts of a text -/

theorem splitOn_closedText (labels : List Label) :
    (closedText labels).splitOn dot = labels.map Label.octets ++ [[]] := by
  induction labels with
  | nil => rfl
  | cons label labels ih =>
    have inside (octet : UInt8) (member : octet ∈ label.octets) : (octet == dot) = false := by
      rw [beq_eq_false_iff_ne]
      rintro rfl
      exact dot_notMem_label label member
    rw [closedText_cons, List.splitOn,
      List.splitOnP_append_cons_of_forall_mem inside dot (beq_self_eq_true dot), ← List.splitOn, ih]
    rfl

/-- The wire form is made up of the parts between the dots of the lowered text, each behind its
count. Only the dot of the root parts nothing. -/
theorem wire_eq_splitOn (name : Name) : name.wire =
    if lower name.text = [dot] then [0] else ((lower name.text).splitOn dot).flatMap counted := by
  rw [← text_canonical]
  split
  next top =>
    have rooted : name.canonical = root := text_eq_dot_iff.mp top
    rw [wire, rooted]
    rfl
  next below =>
    rw [text_of_ne_dot below, splitOn_closedText, List.flatMap_append, List.flatMap_map]
    rfl

/-- Names have one wire form exactly if they differ at most in case. -/
theorem wire_eq_wire_iff : name.wire = other.wire ↔ name.hasText other.text = true := by
  rw [hasText_text_iff]
  constructor
  · intro same
    have read := read?_wire name []
    rw [same, read?_wire other []] at read
    exact (congrArg Prod.fst (Option.some.inj read)).symm
  · intro same
    rw [← wire_canonical name, same, wire_canonical]

/-! ## Lengths -/

/-- The octets of the text and one more. The dot of the root is left out. -/
theorem length_wire_eq (name : Name) : name.wire.length =
    if name.text = [dot] then 1 else name.text.length + 1 := by
  rw [length_wire, wireLength]
  split
  next top =>
    rw [text_eq_dot_iff.mp top]
    rfl
  next below =>
    rw [text_of_ne_dot below, length_closedText]

theorem length_wire_le (name : Name) : name.wire.length ≤ 256 := by
  rw [length_wire, wireLength]
  exact Nat.succ_le_succ name.textLength_le

theorem length_wire_le_iff : name.wire.length ≤ 255 ↔ name.text.length ≠ 255 := by
  have bound := length_wire_le name
  rw [length_wire_eq] at bound ⊢
  split at bound
  next top => simp [top]
  next below =>
    rw [if_neg below]
    omega

/-- Reading a name takes as many octets as writing it makes. -/
theorem exists_consumed {input rest : Octets} (returned : read? input = some (name, rest)) :
    ∃ consumed, input = consumed ++ rest ∧ consumed.length = name.wire.length := by
  refine ⟨(name.labels.flatMap fun label => counted label.octets) ++ [0], ?_, ?_⟩
  · rw [List.append_assoc]
    exact read?_eq_some_iff.mp returned
  · rw [List.length_append, length_flatMap_counted, length_wire]
    rfl

theorem length_wire_wildcardChild? (built : name.wildcardChild? = some other) :
    other.wire.length = name.wire.length + 2 := by
  have one : Label.asterisk.octets.length = 1 := rfl
  rw [length_wire, length_wire, wireLength, wireLength, wildcardChild?_eq_some_iff.mp built,
    textLength, one]
  omega

theorem length_wire_wildcardChild?_le_iff (built : name.wildcardChild? = some other) :
    other.wire.length ≤ 255 ↔ name.text.length ≠ 253 := by
  have bound := length_wire_le other
  rw [length_wire_wildcardChild? built, length_wire_eq] at bound ⊢
  split at bound
  next top => simp [top]
  next below =>
    rw [if_neg below]
    omega

/-- A name that is read from octets or from a string, or that is built as a wildcard, has a wire
form of at most 255 octets unless its text has 255 octets. In that case it has 256. -/
theorem wire_within_limit_iff (name : Name) :
    (∀ input rest, read? input = some (name, rest) →
      ∃ consumed, input = consumed ++ rest ∧ consumed.length ≤ 256 ∧
        (consumed.length ≤ 255 ↔ name.text.length ≠ 255)) ∧
    (∀ s, ofString? s = some name →
      name.wire.length ≤ 256 ∧ (name.wire.length ≤ 255 ↔ s.utf8ByteSize ≠ 255)) ∧
    ∀ wildcard, name.wildcardChild? = some wildcard →
      wildcard.wire.length ≤ 256 ∧ (wildcard.wire.length ≤ 255 ↔ name.text.length ≠ 253) := by
  refine ⟨?_, ?_, ?_⟩
  · intro input rest returned
    obtain ⟨consumed, split, length⟩ := exists_consumed returned
    refine ⟨consumed, split, ?_⟩
    rw [length]
    exact ⟨length_wire_le name, length_wire_le_iff⟩
  · intro s read
    obtain rfl := ofString?_eq_some_iff.mp read
    rw [← length_ofString, ofString_toString]
    exact ⟨length_wire_le name, length_wire_le_iff⟩
  · intro wildcard built
    exact ⟨length_wire_le wildcard, length_wire_wildcardChild?_le_iff built⟩

end Name

namespace Sample

/-- The label `a...a` of some length. -/
def run (count : Nat) (positive : 0 < count) (short : count ≤ 63) : Label where
  octets := List.replicate count 0x61
  isLabel := by
    refine ⟨by simpa using positive, by simpa using short, fun octet member => ?_⟩
    rw [List.eq_of_mem_replicate member]
    decide

/-- A name whose text has 253 octets, which leaves room for a label of one octet. -/
def roomy : Name where
  labels := [run 63 (by decide) (by decide), run 63 (by decide) (by decide),
    run 63 (by decide) (by decide), run 60 (by decide) (by decide)]
  textLength_le := by simp [run]

/-- A name whose text has 255 octets. -/
def brim : Name where
  labels := run 1 (by decide) (by decide) :: roomy.labels
  textLength_le := by simp [run, roomy]

/-- The wildcard below the name with 253 octets. -/
def brimWildcard : Name where
  labels := Label.asterisk :: roomy.labels
  textLength_le := by simp [run, roomy, Label.asterisk]

theorem length_text_roomy : roomy.text.length = 253 := by
  rw [Name.text_of_labels_ne_nil (List.cons_ne_nil _ _), Name.length_closedText]
  rfl

theorem length_wire_brim : brim.wire.length = 256 := by
  rw [Name.length_wire]
  rfl

theorem length_wire_brimWildcard : brimWildcard.wire.length = 256 := by
  rw [Name.length_wire]
  rfl

end Sample

/-- The wire form of a text of 253 octets is short enough. That of a text of 255 octets is not, and
neither is that of the wildcard for which 253 octets leave room. -/
theorem Name.wire_within_limit_iff_brim :
    Sample.roomy.wire.length ≤ 255 ∧ Sample.brim.canonical.text.length = 255 ∧
      ¬ Sample.brimWildcard.wire.length ≤ 255 := by
  obtain ⟨_, strings, wildcards⟩ := Name.wire_within_limit_iff Sample.roomy
  obtain ⟨readers, _, _⟩ := Name.wire_within_limit_iff Sample.brim.canonical
  have size : (toString Sample.roomy).utf8ByteSize = 253 := by
    rw [← Octets.length_ofString, Name.ofString_toString, Sample.length_text_roomy]
  have short := strings _ (Name.ofString?_eq_some_iff.mpr rfl)
  have read := Name.read?_wire Sample.brim []
  obtain ⟨consumed, split, _, fits⟩ := readers _ _ read
  have wild := wildcards Sample.brimWildcard (Name.wildcardChild?_eq_some_iff.mpr rfl)
  refine ⟨short.2.mpr (by rw [size]; decide), ?_, ?_⟩
  · -- all octets are consumed, and they are too many
    rw [List.append_cancel_right_eq] at split
    rw [← split, Sample.length_wire_brim] at fits
    by_contra other
    exact absurd (fits.mpr other) (by decide)
  · rw [wild.2, Sample.length_text_roomy]
    decide

/-- A name with a text of 255 octets is read from its wire form and from its string, and the wildcard
below a name with a text of 253 octets is built. The wire forms of both have more than 255 octets. -/
theorem Name.wire_exceeds_limit :
    Name.read? Sample.brim.wire = some (Sample.brim.canonical, []) ∧
      Name.ofString? (toString Sample.brim) = some Sample.brim ∧
      Sample.roomy.wildcardChild? = some Sample.brimWildcard ∧
      ¬ Sample.brim.wire.length ≤ 255 ∧ ¬ Sample.brimWildcard.wire.length ≤ 255 := by
  have read := Name.read?_wire Sample.brim []
  rw [List.append_nil] at read
  refine ⟨read, Name.ofString?_eq_some_iff.mpr rfl, Name.wildcardChild?_eq_some_iff.mpr rfl, ?_, ?_⟩
  · rw [Sample.length_wire_brim]
    decide
  · rw [Sample.length_wire_brimWildcard]
    decide

end HashedDenial
