import HashedDenial.Name.Basic
import HashedDenial.Proofs.Name.Suffixes
import Mathlib.Data.List.Basic

/-!
# Zone membership by labels

Membership in a zone compares texts from the right and looks for a dot before the match. Dots close
labels and stand nowhere else, so the test finds exactly the zones whose labels end the labels of
the name, up to case.
-/
namespace HashedDenial

/-! ## Case of texts -/

namespace Octets

theorem lower_append (left right : Octets) : lower (left ++ right) = lower left ++ lower right :=
  List.map_append

theorem lower_take (count : Nat) (octets : Octets) :
    lower (octets.take count) = (lower octets).take count :=
  List.map_take

theorem lower_drop (count : Nat) (octets : Octets) :
    lower (octets.drop count) = (lower octets).drop count :=
  List.map_drop

/-- Lowering moves only letters, and among letters, so it neither makes nor changes an octet below
them. -/
theorem lowerOctet_eq_iff_of_lt {octet fixed : UInt8} (low : fixed < 0x41) :
    lowerOctet octet = fixed ↔ octet = fixed := by
  unfold lowerOctet
  split
  next capital =>
    simp only [UInt8.lt_iff_toNat_lt, UInt8.le_iff_toNat_le, ← UInt8.toNat_inj,
      UInt8.toNat_add] at *
    simp at *
    omega
  · exact Iff.rfl

theorem lowerOctet_eq_dot_iff {octet : UInt8} : lowerOctet octet = dot ↔ octet = dot :=
  lowerOctet_eq_iff_of_lt (by decide)

theorem lower_eq_singleton_iff_of_lt {octets : Octets} {fixed : UInt8} (low : fixed < 0x41) :
    lower octets = [fixed] ↔ octets = [fixed] := by
  obtain _ | ⟨octet, _ | ⟨next, rest⟩⟩ := octets <;> simp [lower, lowerOctet_eq_iff_of_lt low]

theorem lower_eq_dot_iff {octets : Octets} : lower octets = [dot] ↔ octets = [dot] :=
  lower_eq_singleton_iff_of_lt (by decide)

end Octets

namespace Name

variable {name other suffix : Name} {zone : Octets}

/-! ## Closed texts -/

/-- Labels in text form, each closed by a dot. -/
def closedText (labels : List Label) : Octets :=
  labels.flatMap fun label => label.octets ++ [dot]

/-- Whether a text ends where a label may begin. -/
def AtLabelStart (before : Octets) : Prop := before = [] ∨ before.getLast? = some dot

@[simp] theorem closedText_nil : closedText [] = [] := rfl

theorem closedText_cons (label : Label) (labels : List Label) :
    closedText (label :: labels) = label.octets ++ dot :: closedText labels := by
  simp [closedText]

theorem closedText_append (left right : List Label) :
    closedText (left ++ right) = closedText left ++ closedText right :=
  List.flatMap_append

theorem text_of_labels_ne_nil (nonempty : name.labels ≠ []) :
    name.text = closedText name.labels := by
  unfold text closedText
  split
  next empty => exact absurd empty nonempty
  · rfl

@[simp] theorem text_root : root.text = [dot] := rfl

theorem dot_notMem_label (label : Label) : dot ∉ label.octets :=
  fun member => (label.isLabel.2.2 dot member).2.2 rfl

theorem takeWhile_label (label : Label) (rest : Octets) :
    (label.octets ++ dot :: rest).takeWhile (· ≠ dot) = label.octets := by
  have inside (octet : UInt8) (member : octet ∈ label.octets) : decide (octet ≠ dot) = true := by
    apply decide_eq_true
    rintro rfl
    exact dot_notMem_label label member
  rw [List.takeWhile_append_of_pos inside, List.takeWhile_cons_of_neg (by simp), List.append_nil]

theorem atLabelStart_lower_iff {before : Octets} :
    AtLabelStart (Octets.lower before) ↔ AtLabelStart before := by
  have last : (Octets.lower before).getLast? = some dot ↔ before.getLast? = some dot := by
    rw [Octets.lower, List.getLast?_map, Option.map_eq_some_iff]
    simp [Octets.lowerOctet_eq_dot_iff]
  rw [AtLabelStart, AtLabelStart, last, Octets.lower, List.map_eq_nil_iff]

theorem atLabelStart_append {left right : Octets} (start : AtLabelStart left)
    (next : AtLabelStart right) : AtLabelStart (left ++ right) := by
  rcases next with rfl | last
  · rwa [List.append_nil]
  · right
    rw [List.getLast?_append, last]
    rfl

theorem atLabelStart_closedText (labels : List Label) : AtLabelStart (closedText labels) := by
  induction labels with
  | nil => exact Or.inl rfl
  | cons label labels ih =>
    have closed : AtLabelStart (label.octets ++ [dot]) := Or.inr (by simp)
    have whole := atLabelStart_append closed ih
    rw [closedText_cons]
    simpa using whole

/-- A text that stops at the start of a label holds the first label with its dot, if anything. -/
private theorem split_first_label {label : Label} {before after rest : Octets}
    (start : before.getLast? = some dot) (same : label.octets ++ dot :: rest = before ++ after) :
    ∃ between, AtLabelStart between ∧ rest = between ++ after := by
  have dotted : dot ∈ before := List.mem_of_getLast? start
  rcases List.append_eq_append_iff.mp same with ⟨between, whole, tail⟩ | ⟨between, whole, tail⟩
  · cases between with
    | nil =>
      -- the text before would be the label without its dot
      rw [List.append_nil] at whole
      exact absurd (whole ▸ dotted) (dot_notMem_label label)
    | cons first between =>
      obtain ⟨rfl, split⟩ := List.cons.inj tail
      refine ⟨between, ?_, split⟩
      cases between with
      | nil => exact Or.inl rfl
      | cons second between =>
        right
        rw [whole, List.getLast?_append, List.getLast?_cons_cons] at start
        simpa using start
  · -- the text before stops within the label, where no dot stands
    have inLabel : dot ∈ label.octets := by
      rw [whole]
      exact List.mem_append_left _ dotted
    exact absurd inLabel (dot_notMem_label label)

theorem closedText_injective : Function.Injective closedText := by
  intro left
  induction left with
  | nil =>
    rintro (_ | ⟨label, right⟩) same
    · rfl
    · simp [closedText_cons] at same
  | cons label left ih =>
    rintro (_ | ⟨label', right⟩) same
    · simp [closedText_cons] at same
    · rw [closedText_cons, closedText_cons] at same
      -- the octets up to the first dot are the first label
      have first := congrArg (List.takeWhile (· ≠ dot)) same
      rw [takeWhile_label, takeWhile_label] at first
      rw [first] at same
      have rest := (List.cons.inj (List.append_cancel_left same)).2
      rw [Label.octets_injective first, ih rest]

theorem suffix_of_closedText {labels others : List Label} {before : Octets}
    (start : AtLabelStart before) (same : closedText labels = before ++ closedText others) :
    others <:+ labels := by
  induction labels generalizing before with
  | nil =>
    have empty : closedText others = closedText [] := (List.append_eq_nil_iff.mp same.symm).2
    rw [closedText_injective empty]
  | cons label labels ih =>
    rcases start with rfl | last
    · rw [List.nil_append] at same
      rw [closedText_injective same]
    · -- the suffix starts after the first label, so it is a suffix of what follows
      rw [closedText_cons] at same
      obtain ⟨between, next, rest⟩ := split_first_label last same
      exact (ih next rest).trans (List.suffix_cons _ _)

theorem two_le_length_closedText {labels : List Label} (nonempty : labels ≠ []) :
    2 ≤ (closedText labels).length := by
  cases labels with
  | nil => exact absurd rfl nonempty
  | cons label labels =>
    have occupied := label.isLabel.1
    simp only [closedText_cons, List.length_append, List.length_cons]
    omega

theorem closedText_map_canonical (labels : List Label) :
    closedText (labels.map Label.canonical) = Octets.lower (closedText labels) := by
  induction labels with
  | nil => rfl
  | cons label labels ih =>
    rw [List.map_cons, closedText_cons, closedText_cons, Octets.lower_append, ih]
    rfl

/-! ## The text test -/

theorem text_canonical (name : Name) : name.canonical.text = Octets.lower name.text := by
  by_cases top : name.labels = []
  · have rooted : name = root := labels_injective top
    subst rooted
    rfl
  · have below : name.canonical.labels ≠ [] := by simpa using top
    rw [text_of_labels_ne_nil top, text_of_labels_ne_nil below, labels_canonical,
      closedText_map_canonical]

theorem getLast?_text (name : Name) : name.text.getLast? = some dot := by
  by_cases top : name.labels = []
  · have rooted : name = root := labels_injective top
    subst rooted
    rfl
  · have long := two_le_length_closedText top
    rw [text_of_labels_ne_nil top]
    rcases atLabelStart_closedText name.labels with empty | last
    · rw [empty] at long
      contradiction
    · exact last

/-- The test on texts up to case: what stands before the zone ends at the start of a label. -/
theorem inZone_iff : name.inZone zone = true ↔ zone = [dot] ∨
    ∃ before, name.canonical.text = before ++ Octets.lower zone ∧ AtLabelStart before := by
  rw [inZone, decide_eq_true_iff, text_canonical, Octets.eqIgnoringCase_iff]
  refine or_congr_right ?_
  constructor
  · rintro ⟨within, tail, start⟩
    refine ⟨Octets.lower (name.text.take (name.text.length - zone.length)), ?_, ?_⟩
    · rw [← tail, ← Octets.lower_append, List.take_append_drop]
    · apply atLabelStart_lower_iff.mpr
      rcases start with none | last
      · left
        rw [none, List.take_zero]
      · exact Or.inr last
  · rintro ⟨before, whole, start⟩
    have length := congrArg List.length whole
    simp only [List.length_append, Octets.length_lower] at length
    -- the test cuts the text where the zone would begin, which is after the text before
    have outside : name.text.length - zone.length = before.length := by omega
    have front : Octets.lower (name.text.take before.length) = before := by
      rw [Octets.lower_take, whole, List.take_left]
    have back : Octets.lower (name.text.drop before.length) = Octets.lower zone := by
      rw [Octets.lower_drop, whole, List.drop_left]
    rw [outside]
    refine ⟨by omega, back, ?_⟩
    rw [← front, atLabelStart_lower_iff] at start
    rcases start with empty | last
    · left
      have none := congrArg List.length empty
      simp only [List.length_take, List.length_nil] at none
      omega
    · exact Or.inr last

/-- A name lies in the zone of another name exactly if one of its suffixes is that name, up to
case. -/
theorem inZone_text_iff :
    name.inZone other.text = true ↔ other.canonical ∈ name.canonical.suffixes := by
  rw [inZone_iff, ← text_canonical]
  by_cases top : other.labels = []
  · -- every name lies in the zone of the root
    have rooted : other = root := labels_injective top
    subst rooted
    simp only [text_root, true_or, true_iff]
    exact mem_suffixes_iff.mpr List.nil_suffix
  have below : other.canonical.labels ≠ [] := by simpa using top
  rw [text_of_labels_ne_nil below, mem_suffixes_iff]
  constructor
  · rintro (single | ⟨before, whole, start⟩)
    · have long := two_le_length_closedText top
      rw [← text_of_labels_ne_nil top, single] at long
      contradiction
    · by_cases apex : name.canonical.labels = []
      · -- the root is too short to end with the text of another name
        have long := two_le_length_closedText below
        have rooted : name.canonical = root := labels_injective apex
        have length := congrArg List.length whole
        rw [rooted, text_root, List.length_append, List.length_singleton] at length
        omega
      · rw [text_of_labels_ne_nil apex] at whole
        exact suffix_of_closedText start whole
  · rintro ⟨before, whole⟩
    refine Or.inr ⟨closedText before, ?_, atLabelStart_closedText before⟩
    have nonempty : name.canonical.labels ≠ [] := by
      rw [← whole]
      exact List.append_ne_nil_of_right_ne_nil _ below
    rw [text_of_labels_ne_nil nonempty, ← whole, closedText_append]

theorem hasText_iff {text : Octets} :
    name.hasText text = true ↔ name.canonical.text = Octets.lower text := by
  rw [hasText, Octets.eqIgnoringCase_iff, text_canonical]

theorem inZone_text_iff_exists : name.inZone other.text = true ↔
    ∃ ancestor ∈ name.suffixes, ancestor.canonical = other.canonical := by
  rw [inZone_text_iff, suffixes_canonical, List.mem_map]

theorem inZone_congr {zone' : Octets} (names : name.canonical = other.canonical)
    (zones : Octets.lower zone = Octets.lower zone') : name.inZone zone = other.inZone zone' := by
  have dots : zone = [dot] ↔ zone' = [dot] := by
    rw [← Octets.lower_eq_dot_iff, zones, Octets.lower_eq_dot_iff]
  rw [Bool.eq_iff_iff, inZone_iff, inZone_iff, names, zones, dots]

/-- What lies below a name of a zone is in the zone, whatever text the zone has. -/
theorem inZone_of_suffix (member : suffix ∈ name.suffixes) (inside : suffix.inZone zone = true) :
    name.inZone zone = true := by
  have lowered := canonical_mem_suffixes member
  rw [inZone_iff] at inside ⊢
  rcases inside with top | ⟨before, whole, start⟩
  · exact Or.inl top
  by_cases apex : suffix.canonical.labels = []
  · -- the dot of the root closes no label, so the zone is the root or has no text at all
    have rooted : suffix.canonical = root := labels_injective apex
    rw [rooted, text_root] at whole
    rcases List.singleton_eq_append_iff.mp whole with ⟨_, zone_⟩ | ⟨_, zone_⟩
    · exact Or.inl (Octets.lower_eq_dot_iff.mp zone_)
    · exact Or.inr ⟨name.canonical.text, by rw [zone_, List.append_nil], Or.inr (getLast?_text _)⟩
  · obtain ⟨front, labels⟩ := mem_suffixes_iff.mp lowered
    have nonempty : name.canonical.labels ≠ [] := by
      rw [← labels]
      exact List.append_ne_nil_of_right_ne_nil _ apex
    refine Or.inr ⟨closedText front ++ before, ?_,
      atLabelStart_append (atLabelStart_closedText front) start⟩
    rw [text_of_labels_ne_nil nonempty, ← labels, closedText_append, List.append_assoc, ← whole,
      text_of_labels_ne_nil apex]

/-- A zone holds all that lies in the zone of a name of its own. -/
theorem inZone_trans (inside : name.inZone other.text = true) (upper : other.inZone zone = true) :
    name.inZone zone = true := by
  obtain ⟨ancestor, member, same⟩ := inZone_text_iff_exists.mp inside
  rw [← inZone_congr same rfl] at upper
  exact inZone_of_suffix member upper

end Name

end HashedDenial
