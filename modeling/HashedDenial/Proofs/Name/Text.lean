import HashedDenial.Proofs.Name.Zone
import Mathlib.Data.List.Iterate

/-!
# Reading the text of a name

Every dot in a text closes a part, so a text is read in one way only, and reading the text of a name
gives the name back. Cutting a text behind its first dot leaves the text of the parent, where
nothing left stands for the root.
-/
namespace HashedDenial.Name

variable {name : Name} {labels : List Label} {parts : List Octets} {text : Octets}

/-! ## Parts and labels -/

theorem closedParts?_append_dot {part rest : Octets} (inside : dot ∉ part) :
    closedParts? (part ++ dot :: rest) = (closedParts? rest).map (part :: ·) := by
  induction part with
  | nil => simp [closedParts?]
  | cons octet part ih =>
    obtain ⟨first, later⟩ : dot ≠ octet ∧ dot ∉ part := by simpa using inside
    rw [List.cons_append, closedParts?, if_neg (Ne.symm first), ih later]
    cases closedParts? rest <;> rfl

/-- A text is read as the parts that make it up, each closed by a dot that it does not hold. -/
theorem closedParts?_eq_some_iff : closedParts? text = some parts ↔
    (∀ part ∈ parts, dot ∉ part) ∧ text = parts.flatMap (· ++ [dot]) := by
  constructor
  · intro read
    fun_induction closedParts? text generalizing parts with
    | case1 =>
      cases read
      simp
    | case2 rest ih =>
      -- a dot closes an empty part
      obtain ⟨others, closed, rfl⟩ := Option.map_eq_some_iff.mp read
      obtain ⟨inside, whole⟩ := ih closed
      exact ⟨List.forall_mem_cons.mpr ⟨List.not_mem_nil, inside⟩, by simp [← whole]⟩
    | case3 octet rest other part others closed ih =>
      cases read
      obtain ⟨inside, whole⟩ := ih closed
      obtain ⟨here, later⟩ := List.forall_mem_cons.mp inside
      have kept : dot ∉ octet :: part := by simp [Ne.symm other, here]
      exact ⟨List.forall_mem_cons.mpr ⟨kept, later⟩, by simp [whole]⟩
    | case4 => cases read
  · rintro ⟨inside, rfl⟩
    induction parts with
    | nil => rfl
    | cons part parts ih =>
      obtain ⟨here, later⟩ := List.forall_mem_cons.mp inside
      rw [List.flatMap_cons, List.append_assoc, List.singleton_append, closedParts?_append_dot here,
        ih later]
      rfl

theorem mapM_ofOctets?_eq_some_iff :
    parts.mapM Label.ofOctets? = some labels ↔ parts = labels.map Label.octets := by
  induction parts generalizing labels with
  | nil => cases labels <;> simp [pure]
  | cons part parts ih =>
    simp only [List.mapM_cons, bind, Option.bind_eq_some_iff, Label.ofOctets?_eq_some_iff, ih, pure,
      Option.some.injEq]
    constructor
    · rintro ⟨label, rfl, others, rfl, rfl⟩
      rfl
    · intro same
      cases labels with
      | nil => cases same
      | cons label labels =>
        obtain ⟨rfl, rfl⟩ := List.cons.inj same
        exact ⟨label, rfl, labels, rfl, rfl⟩

theorem exists_map_octets_eq (valid : ∀ part ∈ parts, IsLabel part) :
    ∃ labels : List Label, parts = labels.map Label.octets := by
  induction parts with
  | nil => exact ⟨[], rfl⟩
  | cons part parts ih =>
    obtain ⟨here, later⟩ := List.forall_mem_cons.mp valid
    obtain ⟨labels, rfl⟩ := ih later
    exact ⟨⟨part, here⟩ :: labels, rfl⟩

theorem closedText_eq (labels : List Label) :
    closedText labels = (labels.map Label.octets).flatMap (· ++ [dot]) := by
  rw [closedText, List.flatMap_map]

theorem length_closedText (labels : List Label) :
    (closedText labels).length = textLength labels := by
  induction labels with
  | nil => rfl
  | cons label labels ih =>
    rw [closedText_cons, List.length_append, List.length_cons, ih, textLength]
    omega

/-! ## Names -/

theorem eq_root_of_labels_eq_nil (empty : name.labels = []) : name = root :=
  labels_injective empty

theorem text_eq_dot_iff : name.text = [dot] ↔ name = root := by
  constructor
  · intro single
    by_contra below
    have nonempty : name.labels ≠ [] := fun empty => below (eq_root_of_labels_eq_nil empty)
    -- a label takes at least one octet besides its dot
    have long := two_le_length_closedText nonempty
    rw [← text_of_labels_ne_nil nonempty, single] at long
    contradiction
  · rintro rfl
    rfl

theorem text_of_ne_dot (below : name.text ≠ [dot]) : name.text = closedText name.labels :=
  text_of_labels_ne_nil fun empty => below (text_eq_dot_iff.mpr (eq_root_of_labels_eq_nil empty))

/-- Reading takes exactly the texts of names, and gives the name whose text it is. -/
theorem ofText?_eq_some_iff : ofText? text = some name ↔ name.text = text := by
  by_cases single : text = [dot]
  · rw [ofText?, if_pos single, single, text_eq_dot_iff, Option.some.injEq, eq_comm]
  · -- the root is not read from its parts, so the name has labels
    simp only [ofText?, if_neg single, bind, Option.bind_eq_some_iff, closedParts?_eq_some_iff,
      mapM_ofOctets?_eq_some_iff]
    constructor
    · rintro ⟨parts, ⟨_, rfl⟩, labels, rfl, named⟩
      split at named
      · cases named
      next nonempty =>
        have own := ofLabels?_eq_some_iff.mp named
        have below : name.labels ≠ [] := by
          rw [own]
          exact fun empty => nonempty (List.isEmpty_iff.mpr empty)
        rw [text_of_labels_ne_nil below, own, closedText_eq]
    · rintro rfl
      have below : name.labels ≠ [] := fun empty =>
        single (text_eq_dot_iff.mpr (eq_root_of_labels_eq_nil empty))
      refine ⟨name.labels.map Label.octets, ⟨?_, ?_⟩, name.labels, rfl, ?_⟩
      · intro part member
        obtain ⟨label, _, rfl⟩ := List.mem_map.mp member
        exact dot_notMem_label label
      · rw [text_of_labels_ne_nil below, closedText_eq]
      · rw [if_neg (by simpa using below)]
        exact ofLabels?_eq_some_iff.mpr rfl

theorem text_injective : Function.Injective Name.text := by
  intro left right same
  have read := ofText?_eq_some_iff.mpr same
  exact (Option.some.inj ((ofText?_eq_some_iff.mpr rfl).symm.trans read)).symm

theorem hasText_text_iff {other : Name} :
    name.hasText other.text = true ↔ name.canonical = other.canonical := by
  rw [hasText_iff, ← text_canonical, text_injective.eq_iff]

/-- A text is that of a name if it is a dot or consists of labels, each closed by a dot, and is not
too long. -/
theorem exists_text_eq_iff : (∃ name : Name, name.text = text) ↔
    text = [dot] ∨ ∃ parts ≠ [], (∀ part ∈ parts, IsLabel part) ∧
      text = parts.flatMap (· ++ [dot]) ∧ text.length ≤ 255 := by
  constructor
  · rintro ⟨name, rfl⟩
    by_cases top : name.labels = []
    · left
      rw [eq_root_of_labels_eq_nil top, text_root]
    · right
      -- the parts are the octets of the labels
      rw [text_of_labels_ne_nil top]
      refine ⟨name.labels.map Label.octets, by simpa using top, ?_, closedText_eq _, ?_⟩
      · intro part member
        obtain ⟨label, _, rfl⟩ := List.mem_map.mp member
        exact label.isLabel
      · rw [length_closedText]
        exact name.textLength_le
  · intro form
    rcases form with rfl | ⟨parts, nonempty, valid, rfl, short⟩
    · exact ⟨root, rfl⟩
    · obtain ⟨labels, rfl⟩ := exists_map_octets_eq valid
      rw [← closedText_eq, length_closedText] at short
      refine ⟨⟨labels, short⟩, ?_⟩
      rw [text_of_labels_ne_nil (by simpa using nonempty), closedText_eq]

/-! ## Cutting labels off -/

/-- What stands behind the first dot of a text; if that is nothing, the dot of the root. -/
def upperText (text : Octets) : Octets :=
  match (text.dropWhile (· ≠ dot)).tail with
  | [] => [dot]
  | rest => rest

theorem upperText_text (label : Label) (parent : Name)
    (short : textLength (label :: parent.labels) ≤ 255) :
    upperText (⟨label :: parent.labels, short⟩ : Name).text = parent.text := by
  have inside (octet : UInt8) (member : octet ∈ label.octets) : decide (octet ≠ dot) = true := by
    apply decide_eq_true
    rintro rfl
    exact dot_notMem_label label member
  have behind : ((label.octets ++ dot :: closedText parent.labels).dropWhile (· ≠ dot)).tail =
      closedText parent.labels := by
    rw [List.dropWhile_append_of_pos inside, List.dropWhile_cons_of_neg (by simp), List.tail_cons]
  rw [text_of_labels_ne_nil (List.cons_ne_nil _ _), closedText_cons, upperText, behind]
  by_cases top : parent.labels = []
  · -- nothing is left behind the only label
    rw [eq_root_of_labels_eq_nil top]
    rfl
  · have long := two_le_length_closedText top
    rw [text_of_labels_ne_nil top]
    cases rest : closedText parent.labels with
    | nil =>
      rw [rest] at long
      contradiction
    | cons octet rest => rfl

/-- The texts of the suffixes are what cutting the text of the name again and again leaves. -/
theorem map_text_suffixes (name : Name) :
    name.suffixes.map Name.text = List.iterate upperText name.text (name.labelCount + 1) := by
  induction name using labelInduction with
  | root => rfl
  | child label parent short ih =>
    rw [suffixes_child, List.map_cons, ih, ← upperText_text label parent short]
    rfl

end HashedDenial.Name
