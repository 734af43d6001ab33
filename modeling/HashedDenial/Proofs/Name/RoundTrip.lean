import HashedDenial.Proofs.Name.WireText

/-!
# Names to octets and back

The reader takes a name in the case in which its labels are spelled. The counts between the labels
are below all letters, so lowering all octets of a spelling lowers the labels and keeps the counts,
and that is the wire form: what is read from the wire is written as it was, in lower case. Two
spellings are therefore of names that differ at most in case exactly if they do so themselves.
-/
namespace HashedDenial

namespace Name

open Octets

variable {name other : Name} {input rest : Octets}

/-! ## Spellings -/

/-- The form of a name on the wire with its letters as they are. -/
def spelling (name : Name) : Octets := (name.labels.map Label.octets).flatMap counted ++ [0]

theorem wire_eq_spelling (name : Name) : name.wire = name.canonical.spelling := by
  rw [wire, spelling, List.flatMap_map]

theorem read?_eq_some_iff_spelling :
    read? input = some (name, rest) ↔ input = name.spelling ++ rest := by
  rw [read?_eq_some_iff, spelling, List.flatMap_map, List.append_assoc, List.singleton_append]

theorem lower_counted (label : Label) :
    lower (counted label.octets) = counted (lower label.octets) := by
  have short := label.isLabel.2.1
  -- a count is at most 63, below the capital letters
  have kept : lowerOctet (UInt8.ofNat label.octets.length) = UInt8.ofNat label.octets.length := by
    rw [lowerOctet_eq_self_iff, UInt8.le_iff_toNat_le, UInt8.toNat_ofNat']
    simp
    omega
  rw [counted, counted, length_lower, lower, List.map_cons, kept]
  rfl

theorem lower_spelling (name : Name) : lower name.spelling =
    ((name.labels.map Label.octets).map lower).flatMap counted ++ [0] := by
  have labels : lower ((name.labels.map Label.octets).flatMap counted) =
      ((name.labels.map Label.octets).map lower).flatMap counted := by
    induction name.labels with
    | nil => rfl
    | cons label labels ih =>
      simp only [List.map_cons, List.flatMap_cons, lower_append, lower_counted, ih]
  rw [spelling, lower_append, labels]
  rfl

/-- The wire form is the spelling in lower case. -/
theorem lower_spelling_eq_wire (name : Name) : lower name.spelling = name.wire := by
  rw [lower_spelling, wire_eq_spelling, spelling, labels_canonical, List.map_map, List.map_map]
  rfl

/-- Two spellings differ at most in case exactly if the names do. -/
theorem lower_spelling_eq_iff :
    lower name.spelling = lower other.spelling ↔ name.hasText other.text = true := by
  rw [lower_spelling_eq_wire, lower_spelling_eq_wire, wire_eq_wire_iff]

/-! ## Lengths -/

/-- The wire length counts the parts between the dots of the text, each with its count before it. -/
theorem wireLength_eq_foldl (name : Name) : name.wireLength = if name.text = [dot] then 1
    else (name.text.splitOn dot).foldl (fun total part => total + (1 + part.length)) 0 := by
  have parts (labels : List Label) (total : Nat) :
      (labels.map Label.octets ++ [[]]).foldl
          (fun total (part : Octets) => total + (1 + part.length)) total =
        total + (textLength labels + 1) := by
    induction labels generalizing total with
    | nil => rfl
    | cons label labels ih =>
      rw [List.map_cons, List.cons_append, List.foldl_cons, ih, textLength]
      omega
  split
  next top =>
    rw [text_eq_dot_iff.mp top]
    rfl
  next below =>
    rw [text_of_ne_dot below, splitOn_closedText, parts, wireLength, Nat.zero_add]

theorem length_le_of_mem_splitOn_text {part : Octets} (member : part ∈ name.text.splitOn dot) :
    part.length ≤ 63 := by
  by_cases top : name.text = [dot]
  · -- the dot of the root parts two empty texts
    have empty : part ∈ [[], []] := by
      rw [top] at member
      exact member
    simp at empty
    simp [empty]
  · rw [text_of_ne_dot top, splitOn_closedText, List.mem_append, List.mem_map] at member
    rcases member with ⟨label, _, rfl⟩ | closing
    · exact label.isLabel.2.1
    · rw [List.mem_singleton.mp closing]
      exact Nat.zero_le 63

/-! ## Round trips -/

/-- Reading what was written gives the name in lower case and leaves what comes after. The wire form
has the wire length, which fits into 16 bits, and the counts in it fit into eight. What was read is
written as it was spelled but in lower case, with the counts kept. So two spellings are read as
names that differ at most in case exactly if the spellings differ at most in case. -/
theorem wire_round_trip :
    (∀ (name : Name) (rest : Octets), read? (name.wire ++ rest) = some (name.canonical, rest) ∧
      name.canonical.text = lower name.text) ∧
    (∀ name : Name, name.wire.length = name.wireLength ∧
      name.wireLength = (if name.text = [dot] then 1
        else (name.text.splitOn dot).foldl (fun total part => total + (1 + part.length)) 0) ∧
      (UInt16.ofNat name.wireLength).toNat = name.wireLength ∧
      ∀ part ∈ (lower name.text).splitOn dot, (UInt8.ofNat part.length).toNat = part.length) ∧
    (∀ input name rest, read? input = some (name, rest) → ∃ labels : List Octets,
      (∀ label ∈ labels, IsLabel label) ∧ input = (labels.flatMap counted ++ [0]) ++ rest ∧
      name.wire = (labels.map lower).flatMap counted ++ [0] ∧
      name.wire = lower (labels.flatMap counted ++ [0])) ∧
    ∀ consumed consumed' name name' rest rest', read? (consumed ++ rest) = some (name, rest) →
      read? (consumed' ++ rest') = some (name', rest') →
        (name.hasText name'.text = true ↔ lower consumed = lower consumed') := by
  refine ⟨fun name rest => ⟨read?_wire name rest, text_canonical name⟩, ?_, ?_, ?_⟩
  · intro name
    have bound := length_wire_le name
    rw [length_wire] at bound
    refine ⟨length_wire name, wireLength_eq_foldl name, ?_, ?_⟩
    · rw [UInt16.toNat_ofNat']
      omega
    · intro part member
      rw [← text_canonical] at member
      have short := length_le_of_mem_splitOn_text member
      rw [UInt8.toNat_ofNat']
      omega
  · intro input name rest returned
    refine ⟨name.labels.map Label.octets, ?_, read?_eq_some_iff_spelling.mp returned, ?_,
      (lower_spelling_eq_wire name).symm⟩
    · intro octets member
      obtain ⟨label, _, rfl⟩ := List.mem_map.mp member
      exact label.isLabel
    · rw [← lower_spelling_eq_wire, lower_spelling]
  · intro consumed consumed' name name' rest rest' returned returned'
    -- what is consumed is the spelling of the name
    have spelled := List.append_cancel_right (read?_eq_some_iff_spelling.mp returned)
    have spelled' := List.append_cancel_right (read?_eq_some_iff_spelling.mp returned')
    rw [spelled, spelled', lower_spelling_eq_iff]

end Name

/-- The two spellings of `e.`, with an octet after them. -/
theorem Name.wire_round_trip_capital :
    Name.read? [1, 0x45, 0, 9] = some (Sample.capitalApex, [9]) ∧
      Sample.capitalApex.wire = [1, 0x65, 0] ∧
      Sample.capitalApex.hasText Sample.apex.text = true := by
  obtain ⟨_, _, rewritten, alike⟩ := Name.wire_round_trip
  have read : Name.read? [1, 0x45, 0, 9] = some (Sample.capitalApex, [9]) :=
    Name.read?_eq_some_iff.mpr rfl
  have read' : Name.read? [1, 0x65, 0, 9] = some (Sample.apex, [9]) :=
    Name.read?_eq_some_iff.mpr rfl
  refine ⟨read, ?_, (alike [1, 0x45, 0] [1, 0x65, 0] _ _ [9] [9] read read').mpr rfl⟩
  obtain ⟨labels, _, begins, _, lowered⟩ := rewritten _ _ _ read
  have consumed : [1, 0x45, 0] = labels.flatMap Octets.counted ++ [0] :=
    List.append_cancel_right begins
  rw [lowered, ← consumed]
  rfl

end HashedDenial
