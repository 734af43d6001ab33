import HashedDenial.Name.Basic
import Mathlib.Data.List.Infix

/-!
# Suffixes and wildcards of names

The suffixes of a name are the tails of its label list, so two suffixes of one name are ordered by
their label counts. Lowering the case of a name lowers its suffixes one by one.
-/
namespace HashedDenial

theorem Label.ofOctets?_eq_some_iff {octets : Octets} {label : Label} :
    ofOctets? octets = some label ↔ label.octets = octets := by
  obtain ⟨own, valid⟩ := label
  unfold ofOctets?
  constructor
  · intro built
    split at built
    · cases built
      rfl
    · cases built
  · rintro rfl
    rw [dif_pos valid]

theorem Label.octets_injective : Function.Injective Label.octets := by
  rintro ⟨left, _⟩ ⟨right, _⟩ same
  cases same
  rfl

namespace Name

variable {name suffix other : Name}

theorem labels_injective : Function.Injective labels := by
  rintro ⟨left, _⟩ ⟨right, _⟩ same
  cases same
  rfl

/-- Names are built from the root by putting labels in front. -/
theorem labelInduction {motive : Name → Prop} (root : motive root)
    (child : ∀ label parent short, motive parent → motive ⟨label :: parent.labels, short⟩)
    (name : Name) : motive name := by
  obtain ⟨labels, short⟩ := name
  induction labels with
  | nil => exact root
  | cons label labels ih =>
    have parentShort : textLength labels ≤ 255 := by
      rw [textLength] at short
      omega
    exact child label ⟨labels, parentShort⟩ short (ih parentShort)

/-! ## Suffixes -/

@[simp] theorem suffixes_root : root.suffixes = [root] := rfl

@[simp] theorem suffixes_child (label : Label) (parent : Name)
    (short : textLength (label :: parent.labels) ≤ 255) :
    (⟨label :: parent.labels, short⟩ : Name).suffixes =
      ⟨label :: parent.labels, short⟩ :: parent.suffixes := rfl

theorem map_labels_suffixes (name : Name) : name.suffixes.map labels = name.labels.tails := by
  induction name using labelInduction with
  | root => rfl
  | child label parent short ih => simp [ih]

theorem mem_suffixes_iff : suffix ∈ name.suffixes ↔ suffix.labels <:+ name.labels := by
  rw [← List.mem_tails, ← map_labels_suffixes, List.mem_map_of_injective labels_injective]

@[simp] theorem length_suffixes (name : Name) : name.suffixes.length = name.labelCount + 1 := by
  have counted := congrArg List.length (map_labels_suffixes name)
  simpa [labelCount] using counted

@[simp] theorem self_mem_suffixes (name : Name) : name ∈ name.suffixes :=
  mem_suffixes_iff.mpr (List.suffix_refl _)

theorem labelCount_le (member : suffix ∈ name.suffixes) : suffix.labelCount ≤ name.labelCount :=
  (mem_suffixes_iff.mp member).length_le

theorem suffixes_trans (inner : other ∈ suffix.suffixes) (outer : suffix ∈ name.suffixes) :
    other ∈ name.suffixes :=
  mem_suffixes_iff.mpr ((mem_suffixes_iff.mp inner).trans (mem_suffixes_iff.mp outer))

/-- Of two suffixes of one name, the one with fewer labels is a suffix of the other. -/
theorem mem_suffixes_of_le (shorter : other ∈ name.suffixes) (longer : suffix ∈ name.suffixes)
    (count : other.labelCount ≤ suffix.labelCount) : other ∈ suffix.suffixes :=
  mem_suffixes_iff.mpr (List.suffix_of_suffix_length_le (mem_suffixes_iff.mp shorter)
    (mem_suffixes_iff.mp longer) count)

theorem eq_of_labelCount_eq (left : suffix ∈ name.suffixes) (right : other ∈ name.suffixes)
    (count : suffix.labelCount = other.labelCount) : suffix = other := by
  have nested := mem_suffixes_iff.mp (mem_suffixes_of_le left right count.le)
  exact labels_injective (nested.eq_of_length count)

theorem eq_self_of_labelCount_eq (member : suffix ∈ name.suffixes)
    (count : suffix.labelCount = name.labelCount) : suffix = name :=
  eq_of_labelCount_eq member (self_mem_suffixes name) count

theorem labelCount_lt_of_ne (member : suffix ∈ name.suffixes) (proper : suffix ≠ name) :
    suffix.labelCount < name.labelCount :=
  Nat.lt_of_le_of_ne (labelCount_le member) fun count =>
    proper (eq_self_of_labelCount_eq member count)

theorem exists_suffix {count : Nat} (enough : count ≤ name.labelCount) :
    ∃ suffix ∈ name.suffixes, suffix.labelCount = count := by
  -- drop the labels in front that are too many
  have tail : name.labels.drop (name.labelCount - count) ∈ name.suffixes.map labels := by
    rw [map_labels_suffixes, List.mem_tails]
    exact List.drop_suffix _ _
  obtain ⟨suffix, member, same⟩ := List.mem_map.mp tail
  refine ⟨suffix, member, ?_⟩
  have length := congrArg List.length same
  simp only [labelCount, List.length_drop] at length enough ⊢
  omega

theorem mem_take_suffixes_iff {count : Nat} :
    suffix ∈ name.suffixes.take count ↔
      suffix ∈ name.suffixes ∧ name.labelCount < suffix.labelCount + count := by
  have none_taken (name : Name) :
      suffix ∈ name.suffixes.take 0 ↔
        suffix ∈ name.suffixes ∧ name.labelCount < suffix.labelCount + 0 := by
    constructor
    · intro member
      cases member
    · rintro ⟨member, longer⟩
      exact absurd (labelCount_le member) (Nat.not_le.mpr longer)
  -- the suffixes of a name are the name before those of its parent, of which one fewer is taken
  induction name using labelInduction generalizing count with
  | root =>
    cases count with
    | zero => exact none_taken root
    | succ count =>
      rw [suffixes_root, List.take_succ_cons, List.take_nil]
      refine ⟨fun member => ⟨member, ?_⟩, And.left⟩
      exact Nat.lt_add_left _ (Nat.succ_pos count)
  | child label parent short ih =>
    cases count with
    | zero => exact none_taken _
    | succ count =>
      simp only [suffixes_child, List.take_succ_cons, List.mem_cons, ih]
      simp only [labelCount, List.length_cons]
      constructor
      · rintro (rfl | ⟨member, longer⟩)
        · exact ⟨Or.inl rfl, by simp⟩
        · exact ⟨Or.inr member, by omega⟩
      · rintro ⟨rfl | member, longer⟩
        · exact Or.inl rfl
        · exact Or.inr ⟨member, by omega⟩

/-- The last of the longest suffixes that are taken is the shortest of them. -/
theorem exists_getLast_take_suffixes {count : Nat} (positive : 0 < count)
    (within : count ≤ name.labelCount) :
    ∃ last ∈ name.suffixes, (name.suffixes.take count).getLast? = some last ∧
      last.labelCount + count = name.labelCount + 1 := by
  induction name using labelInduction generalizing count with
  | root =>
    simp only [labelCount, root, List.length_nil, Nat.le_zero_eq] at within
    omega
  | child label parent short ih =>
    obtain _ | _ | count := count
    · omega
    · exact ⟨_, self_mem_suffixes _, by simp, rfl⟩
    · -- with two or more taken, the last comes from the parent
      simp only [labelCount, List.length_cons] at within ih ⊢
      obtain ⟨last, member, found, counted⟩ := ih (Nat.succ_pos count) (by omega)
      refine ⟨last, List.mem_cons_of_mem _ member, ?_, by omega⟩
      rw [suffixes_child, List.take_succ_cons, List.getLast?_cons, found]
      rfl

section Split

variable {longer shorter : List Name} (split : name.suffixes = longer ++ suffix :: shorter)

include split

theorem labelCount_of_split : suffix.labelCount + longer.length = name.labelCount := by
  induction name using labelInduction generalizing longer with
  | root =>
    obtain _ | ⟨first, longer⟩ := longer
    · cases split
      rfl
    · cases longer <;> cases split
  | child label parent short ih =>
    obtain _ | ⟨first, longer⟩ := longer
    · cases split
      rfl
    · have rest : parent.suffixes = longer ++ suffix :: shorter := (List.cons.inj split).2
      have counted := ih rest
      simp only [labelCount, List.length_cons] at counted ⊢
      omega

theorem mem_longer_iff :
    other ∈ longer ↔ other ∈ name.suffixes ∧ suffix.labelCount < other.labelCount := by
  have counted := labelCount_of_split split
  have taken : longer = name.suffixes.take longer.length := by rw [split, List.take_left]
  rw [taken, mem_take_suffixes_iff]
  refine and_congr_right fun _ => ?_
  omega

/-- What stands right before a suffix is one label longer, and the name itself has no longer one. -/
theorem getLastD_longer : longer.getLastD name ∈ name.suffixes ∧
    (longer.getLastD name).labelCount = min name.labelCount (suffix.labelCount + 1) := by
  have counted := labelCount_of_split split
  have taken : longer = name.suffixes.take longer.length := by rw [split, List.take_left]
  by_cases empty : longer.length = 0
  · -- nothing stands before the suffix, so it is the name itself
    rw [List.length_eq_zero_iff.mp empty, List.getLastD_nil]
    exact ⟨self_mem_suffixes name, by omega⟩
  · obtain ⟨last, member, found, lastCount⟩ :=
      exists_getLast_take_suffixes (Nat.pos_of_ne_zero empty) (by omega : _ ≤ name.labelCount)
    rw [List.getLastD_eq_getLast?, taken, found, Option.getD_some]
    exact ⟨member, by omega⟩

end Split

/-! ## Case -/

@[simp] theorem labels_canonical (name : Name) :
    name.canonical.labels = name.labels.map Label.canonical := rfl

@[simp] theorem labelCount_canonical (name : Name) :
    name.canonical.labelCount = name.labelCount := by
  simp [labelCount]

theorem labelCount_eq_of_canonical_eq (same : name.canonical = other.canonical) :
    name.labelCount = other.labelCount := by
  rw [← labelCount_canonical name, same, labelCount_canonical]

theorem suffixes_canonical (name : Name) :
    name.canonical.suffixes = name.suffixes.map canonical := by
  apply List.map_injective_iff.mpr labels_injective
  rw [map_labels_suffixes, List.map_map]
  -- lowering a name lowers its labels, and tails commute with a map
  have lowered : labels ∘ canonical = List.map Label.canonical ∘ labels := rfl
  rw [lowered, ← List.map_map, map_labels_suffixes, labels_canonical, List.map_tails]

theorem canonical_mem_suffixes (member : suffix ∈ name.suffixes) :
    suffix.canonical ∈ name.canonical.suffixes := by
  rw [suffixes_canonical]
  exact List.mem_map_of_mem member

/-- Names that are equal up to case have the same suffixes up to case. -/
theorem exists_suffix_of_canonical_eq (same : name.canonical = other.canonical)
    (member : suffix ∈ name.suffixes) :
    ∃ match_ ∈ other.suffixes, match_.canonical = suffix.canonical := by
  have lowered : suffix.canonical ∈ other.canonical.suffixes := by
    rw [← same]
    exact canonical_mem_suffixes member
  rw [suffixes_canonical] at lowered
  exact List.mem_map.mp lowered

/-! ## Parents and wildcards -/

theorem parent?_eq_some_iff :
    name.parent? = some suffix ↔ ∃ label, name.labels = label :: suffix.labels := by
  obtain ⟨labels, short⟩ := name
  cases labels with
  | nil => simp [parent?]
  | cons label labels =>
    simp only [parent?, Option.some.injEq, List.cons.injEq]
    constructor
    · rintro rfl
      exact ⟨label, rfl, rfl⟩
    · rintro ⟨_, _, rfl⟩
      rfl

/-- The parent is the suffix that is one label shorter. -/
theorem parent?_eq_some_iff_mem_suffixes : name.parent? = some suffix ↔
    suffix ∈ name.suffixes ∧ name.labelCount = suffix.labelCount + 1 := by
  rw [parent?_eq_some_iff, mem_suffixes_iff, labelCount, labelCount]
  constructor
  · intro ⟨label, whole⟩
    rw [whole]
    exact ⟨List.suffix_cons _ _, rfl⟩
  · intro ⟨⟨before, whole⟩, count⟩
    rw [← whole, List.length_append, Nat.add_comm, Nat.add_left_cancel_iff] at count
    obtain ⟨label, rfl⟩ := List.length_eq_one_iff.mp count
    exact ⟨label, whole.symm⟩

theorem ofLabels?_eq_some_iff {labels : List Label} :
    ofLabels? labels = some name ↔ name.labels = labels := by
  obtain ⟨own, short⟩ := name
  unfold ofLabels?
  constructor
  · intro built
    split at built
    · cases built
      rfl
    · cases built
  · rintro rfl
    rw [dif_pos short]

theorem wildcardChild?_eq_some_iff :
    name.wildcardChild? = some other ↔ other.labels = Label.asterisk :: name.labels :=
  ofLabels?_eq_some_iff

/-- A wildcard is the wildcard below its parent. -/
theorem isWildcard_and_parent?_iff :
    other.isWildcard = true ∧ other.parent? = some name ↔ name.wildcardChild? = some other := by
  rw [wildcardChild?_eq_some_iff, parent?_eq_some_iff, isWildcard, decide_eq_true_iff]
  constructor
  · rintro ⟨first, label, parent⟩
    rw [parent, List.head?_cons, Option.some.injEq] at first
    rw [parent, first]
  · intro labels
    rw [labels]
    exact ⟨rfl, _, rfl⟩

theorem mem_suffixes_of_wildcardChild? (built : name.wildcardChild? = some other) :
    name ∈ other.suffixes := by
  rw [mem_suffixes_iff, wildcardChild?_eq_some_iff.mp built]
  exact List.suffix_cons _ _

theorem labelCount_wildcardChild? (built : name.wildcardChild? = some other) :
    other.labelCount = name.labelCount + 1 := by
  rw [labelCount, wildcardChild?_eq_some_iff.mp built]
  rfl

theorem mem_suffixes_wildcardChild?_iff (built : name.wildcardChild? = some other) :
    suffix ∈ other.suffixes ↔ suffix = other ∨ suffix ∈ name.suffixes := by
  rw [mem_suffixes_iff, mem_suffixes_iff, wildcardChild?_eq_some_iff.mp built,
    List.suffix_cons_iff, ← wildcardChild?_eq_some_iff.mp built, labels_injective.eq_iff]

theorem wildcardChild?_canonical (built : name.wildcardChild? = some other) :
    name.canonical.wildcardChild? = some other.canonical := by
  rw [wildcardChild?_eq_some_iff] at built ⊢
  rw [labels_canonical, built]
  rfl

theorem textLength_append (left right : List Label) :
    textLength (left ++ right) = textLength left + textLength right := by
  induction left with
  | nil => simp
  | cons label left ih =>
    simp only [List.cons_append, textLength, ih]
    omega

/-- A proper suffix leaves room for the asterisk: the label it lacks takes no less. -/
theorem exists_wildcardChild (member : suffix ∈ name.suffixes) (proper : suffix ≠ name) :
    ∃ wildcard, suffix.wildcardChild? = some wildcard := by
  obtain ⟨before, whole⟩ := mem_suffixes_iff.mp member
  cases before with
  | nil => exact absurd (labels_injective whole) proper
  | cons label before =>
    -- the missing label has at least one octet, and the asterisk needs no more
    have within := name.textLength_le
    rw [← whole, textLength_append, textLength] at within
    have occupied := label.isLabel.1
    have short : textLength (Label.asterisk :: suffix.labels) ≤ 255 := by
      have one : Label.asterisk.octets.length = 1 := rfl
      rw [textLength, one]
      omega
    exact ⟨⟨_, short⟩, wildcardChild?_eq_some_iff.mpr rfl⟩

end Name

end HashedDenial
