import HashedDenial.Proofs.Denial.PlainRecord
import HashedDenial.Proofs.Name.Text

/-!
# Suffixes by position

Along the suffixes of a name the label counts fall by one, so a suffix is known by its label count
as well as by its position. A zone that holds the name is, up to case, the suffix that has as many
labels as the zone: comparing texts from the right, cutting them at their first dots and counting
their dots all lead to the same suffix.
-/
namespace HashedDenial.Name

variable {name suffix other zone : Name} {position : Nat}

/-! ## Positions and label counts -/

theorem getElem?_suffixes_eq_some_iff : name.suffixes[position]? = some suffix ↔
    suffix ∈ name.suffixes ∧ suffix.labelCount + position = name.labelCount := by
  constructor
  · intro stands
    obtain ⟨within, rfl⟩ := List.getElem?_eq_some_iff.mp stands
    have split : name.suffixes = name.suffixes.take position ++
        name.suffixes[position] :: name.suffixes.drop (position + 1) := by
      rw [← List.drop_eq_getElem_cons within, List.take_append_drop]
    have counted := labelCount_of_split split
    rw [List.length_take, Nat.min_eq_left within.le] at counted
    exact ⟨List.getElem_mem within, counted⟩
  · intro ⟨member, count⟩
    obtain ⟨longer, shorter, split⟩ := List.append_of_mem member
    have counted := labelCount_of_split split
    have place : position = longer.length := by omega
    rw [split, place, List.getElem?_append_right (Nat.le_refl _), Nat.sub_self,
      List.getElem?_cons_zero]

/-- The suffix after another one is its parent. -/
theorem getElem?_suffixes_succ (stands : name.suffixes[position]? = some suffix) :
    name.suffixes[position + 1]? = suffix.parent? := by
  obtain ⟨member, count⟩ := getElem?_suffixes_eq_some_iff.mp stands
  ext next
  rw [getElem?_suffixes_eq_some_iff, parent?_eq_some_iff_mem_suffixes]
  constructor
  · intro ⟨inside, shorter⟩
    exact ⟨mem_suffixes_of_le inside member (by omega), by omega⟩
  · intro ⟨inside, shorter⟩
    exact ⟨suffixes_trans inside member, by omega⟩

theorem head?_suffixes (name : Name) : name.suffixes.head? = some name := by
  rw [List.head?_eq_getElem?, getElem?_suffixes_eq_some_iff]
  exact ⟨self_mem_suffixes name, rfl⟩

theorem getLast?_suffixes (name : Name) : name.suffixes.getLast? = some root := by
  rw [List.getLast?_eq_getElem?, getElem?_suffixes_eq_some_iff, length_suffixes]
  exact ⟨mem_suffixes_iff.mpr List.nil_suffix, Nat.zero_add _⟩

/-- The suffixes after the first are the proper ancestors. -/
theorem mem_tail_suffixes_iff :
    suffix ∈ name.suffixes.tail ↔ suffix ∈ name.suffixes ∧ suffix ≠ name := by
  cases name using labelInduction with
  | root => simp
  | child label parent short =>
    rw [suffixes_child, List.tail_cons, List.mem_cons]
    -- the suffixes of the parent have fewer labels than the name
    have proper (member : suffix ∈ parent.suffixes) :
        suffix ≠ ⟨label :: parent.labels, short⟩ := by
      rintro rfl
      exact absurd (labelCount_le member) (Nat.not_succ_le_self _)
    constructor
    · intro member
      exact ⟨Or.inr member, proper member⟩
    · intro ⟨member, other⟩
      exact member.resolve_left other

/-- The parent has all labels but the first, and its text is what stands behind the first dot. -/
theorem labels_and_text_of_parent? (above : name.parent? = some other) :
    name.labels.tail = other.labels ∧ upperText name.text = other.text := by
  cases name using labelInduction with
  | root => cases above
  | child label parent short =>
    cases above
    exact ⟨rfl, upperText_text label parent short⟩

/-! ## Dots -/

theorem count_dot_closedText (labels : List Label) :
    (closedText labels).count dot = labels.length := by
  induction labels with
  | nil => rfl
  | cons label labels ih =>
    have inside : label.octets.count dot = 0 := List.count_eq_zero.mpr (dot_notMem_label label)
    rw [closedText_cons, List.count_append, inside, List.count_cons_self, ih, List.length_cons,
      Nat.zero_add]

/-- The dots of a text count its labels, but the dot of the root closes none. -/
theorem labelCount_eq_count_dot (name : Name) :
    name.labelCount = if name.text = [dot] then 0 else name.text.count dot := by
  split
  next top =>
    rw [text_eq_dot_iff.mp top]
    rfl
  next below =>
    rw [text_of_ne_dot below, count_dot_closedText]
    rfl

/-! ## Zones -/

theorem inZone_text_iff_hasText : name.inZone zone.text = true ↔
    ∃ suffix ∈ name.suffixes, suffix.hasText zone.text = true := by
  simp only [inZone_text_iff_exists, hasText_text_iff]

theorem labelCount_le_of_inZone (inside : name.inZone zone.text = true) :
    zone.labelCount ≤ name.labelCount := by
  obtain ⟨suffix, member, same⟩ := inZone_text_iff_exists.mp inside
  rw [← labelCount_eq_of_canonical_eq same]
  exact labelCount_le member

/-- Of the suffixes of a name only the one with as many labels as a zone can be the zone, and it is
if the zone holds the name. -/
theorem hasText_iff_labelCount (member : suffix ∈ name.suffixes) :
    suffix.hasText zone.text = true ↔
      name.inZone zone.text = true ∧ suffix.labelCount = zone.labelCount := by
  constructor
  · intro same
    have count := labelCount_eq_of_canonical_eq (hasText_text_iff.mp same)
    exact ⟨inZone_text_iff_hasText.mpr ⟨suffix, member, same⟩, count⟩
  · intro ⟨inside, count⟩
    obtain ⟨apex, inside, same⟩ := inZone_text_iff_hasText.mp inside
    have counted := labelCount_eq_of_canonical_eq (hasText_text_iff.mp same)
    rwa [eq_of_labelCount_eq member inside (count.trans counted.symm)]

theorem hasText_getElem?_suffixes_iff (stands : name.suffixes[position]? = some suffix) :
    suffix.hasText zone.text = true ↔
      name.inZone zone.text = true ∧ position = name.labelCount - zone.labelCount := by
  obtain ⟨member, count⟩ := getElem?_suffixes_eq_some_iff.mp stands
  rw [hasText_iff_labelCount member]
  refine and_congr_right fun inside => ?_
  have within := labelCount_le_of_inZone inside
  omega

theorem inZone_text_self (name : Name) : name.inZone name.text = true :=
  inZone_text_iff_exists.mpr ⟨name, self_mem_suffixes name, rfl⟩

/-- Zones that hold each other's apex have one apex, up to case. -/
theorem inZone_and_inZone_iff : name.inZone other.text = true ∧ other.inZone name.text = true ↔
    name.hasText other.text = true := by
  rw [hasText_iff_labelCount (self_mem_suffixes name)]
  refine and_congr_right fun inside => ?_
  constructor
  · intro inside'
    exact (labelCount_le_of_inZone inside').antisymm (labelCount_le_of_inZone inside)
  · intro count
    have same := (hasText_iff_labelCount (self_mem_suffixes name)).mpr ⟨inside, count⟩
    exact inZone_text_iff_exists.mpr ⟨other, self_mem_suffixes other, (hasText_text_iff.mp same).symm⟩

/-- The suffixes of a name are the name, its parent and so on down to the root, each with one label
fewer, and the zones that hold the name are its suffixes up to case, each at the position that the
label counts tell. So zones are ordered by inclusion, and a wildcard lies right below its
encloser. -/
theorem suffixes_locate_zones :
    (∀ name : Name, name.suffixes.length = name.labelCount + 1 ∧
      name.labelCount = (if name.text = [dot] then 0 else name.text.count dot) ∧
      name.suffixes.head? = some name ∧ name.suffixes.getLast? = some root ∧
      ∀ position suffix, name.suffixes[position]? = some suffix →
        suffix.labelCount = name.labelCount - position ∧
        name.suffixes[position + 1]? = suffix.parent? ∧
        ∀ next, name.suffixes[position + 1]? = some next →
          suffix.labels.tail = next.labels ∧ upperText suffix.text = next.text) ∧
    (∀ name zone : Name,
      (name.inZone zone.text = true ↔
        ∃ suffix ∈ name.suffixes, suffix.hasText zone.text = true) ∧
      (name.inZone zone.text = true → zone.labelCount ≤ name.labelCount) ∧
      ∀ position suffix, name.suffixes[position]? = some suffix →
        (suffix.hasText zone.text = true ↔
          name.inZone zone.text = true ∧ position = name.labelCount - zone.labelCount)) ∧
    (∀ name : Name, name.inZone name.text = true) ∧
    (∀ low middle high : Name, low.inZone middle.text = true → middle.inZone high.text = true →
      low.inZone high.text = true) ∧
    (∀ left right : Name, left.inZone right.text = true ∧ right.inZone left.text = true ↔
      left.hasText right.text = true) ∧
    ∀ name wildcard : Name, name.wildcardChild? = some wildcard →
      wildcard.parent? = some name := by
  refine ⟨fun name => ⟨length_suffixes name, labelCount_eq_count_dot name, head?_suffixes name,
      getLast?_suffixes name, ?_⟩,
    fun name zone => ⟨inZone_text_iff_hasText, labelCount_le_of_inZone,
      fun position suffix => hasText_getElem?_suffixes_iff⟩,
    inZone_text_self, fun low middle high => inZone_trans,
    fun left right => inZone_and_inZone_iff, ?_⟩
  · intro position suffix stands
    have following := getElem?_suffixes_succ stands
    obtain ⟨_, count⟩ := getElem?_suffixes_eq_some_iff.mp stands
    refine ⟨by omega, following, fun next after => ?_⟩
    exact labels_and_text_of_parent? (following.symm.trans after)
  · intro name wildcard built
    exact (isWildcard_and_parent?_iff.mpr built).2

/-- The name `h.n.e.` has `n.e.` as its second suffix and `e.` as its third, which is the zone `E.` in
another spelling. -/
theorem suffixes_locate_zones_capital :
    upperText Sample.belowMissing.text = Sample.missing.text ∧
      Sample.belowMissing.inZone Sample.apex.text = true ∧
      Sample.capitalWildcard.parent? = some Sample.capitalApex := by
  obtain ⟨suffixes, zones, _, transitive, equal, wildcards⟩ := suffixes_locate_zones
  obtain ⟨_, _, _, _, places⟩ := suffixes Sample.belowMissing
  obtain ⟨_, _, located⟩ := zones Sample.belowMissing Sample.capitalApex
  have inside := ((located 2 Sample.apex (by decide)).mp (by decide)).1
  have upward := ((equal Sample.capitalApex Sample.apex).mpr (by decide)).1
  exact ⟨((places 0 Sample.belowMissing rfl).2.2 Sample.missing rfl).2,
    transitive _ _ _ inside upward, wildcards Sample.capitalApex Sample.capitalWildcard (by decide)⟩

end HashedDenial.Name
