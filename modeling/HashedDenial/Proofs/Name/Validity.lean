import HashedDenial.Proofs.Denial.PlainRecord
import HashedDenial.Proofs.Name.Text
import HashedDenial.Proofs.Nsec3.Stream
import HashedDenial.Proofs.Octets.Ascii

/-!
# Strings that are names

A string is a name if it is a dot or some labels, each closed by a dot, and is not too long. No other
string is read as a name. Names that are not read from a string are cut out of one, put together
from labels or taken from octets, and all of them have such a string too.
-/
namespace HashedDenial

open Octets

/-- Whether a character may stand in a label: printable ASCII other than the dot. -/
def IsLabelChar (c : Char) : Prop := '!' ≤ c ∧ c ≤ '~' ∧ c ≠ '.'

/-- Whether a string is that of a name: a dot, or labels of 1 to 63 characters that a dot closes,
and no more than 255 octets in all. -/
def IsNameString (s : String) : Prop :=
  s = "." ∨ ∃ labels : List (List Char), labels ≠ [] ∧
    (∀ label ∈ labels, 0 < label.length ∧ label.length ≤ 63 ∧ ∀ c ∈ label, IsLabelChar c) ∧
    s.toList = labels.flatMap (· ++ ['.']) ∧ s.utf8ByteSize ≤ 255

/-! ## Characters and octets -/

theorem isLabelChar_iff {c : Char} : IsLabelChar c ↔ 0x21 ≤ c.toNat ∧ c.toNat ≤ 0x7e ∧
    c.toNat ≠ 0x2e := by
  have dot : c ≠ '.' ↔ c.toNat ≠ 0x2e := by
    rw [ne_eq, ← Char.toNat_inj]
    rfl
  rw [IsLabelChar, dot]
  rfl

theorem isLabelOctet_iff {octet : UInt8} : IsLabelOctet octet ↔ 0x21 ≤ octet.toNat ∧
    octet.toNat ≤ 0x7e ∧ octet.toNat ≠ 0x2e := by
  rw [IsLabelOctet, dot, UInt8.le_iff_toNat_le, UInt8.le_iff_toNat_le, ne_eq, ← UInt8.toNat_inj]
  rfl

theorem isLabelChar_of_isLabelOctet {octet : UInt8} (valid : IsLabelOctet octet) :
    IsLabelChar (Char.ofNat octet.toNat) := by
  rw [isLabelChar_iff, toNat_charOfNat]
  exact isLabelOctet_iff.mp valid

theorem isLabelOctet_of_isLabelChar {c : Char} (valid : IsLabelChar c) :
    IsLabelOctet (UInt8.ofNat c.toNat) := by
  have code := isLabelChar_iff.mp valid
  rw [isLabelOctet_iff, UInt8.toNat_ofNat', Nat.mod_eq_of_lt (by omega)]
  exact code

theorem isLabel_ofAscii {label : List Char} (nonempty : 0 < label.length)
    (short : label.length ≤ 63) (valid : ∀ c ∈ label, IsLabelChar c) : IsLabel (ofAscii label) := by
  refine ⟨by simpa [ofAscii] using nonempty, by simpa [ofAscii] using short, ?_⟩
  intro octet member
  obtain ⟨c, present, rfl⟩ := List.mem_map.mp member
  exact isLabelOctet_of_isLabelChar (valid c present)

theorem ascii_of_labels {labels : List (List Char)}
    (valid : ∀ label ∈ labels, ∀ c ∈ label, IsLabelChar c) :
    ∀ c ∈ labels.flatMap (· ++ ['.']), c.toNat ≤ 0x7f := by
  intro c member
  obtain ⟨label, present, inside⟩ := List.mem_flatMap.mp member
  rcases List.mem_append.mp inside with own | closing
  · have code := isLabelChar_iff.mp (valid label present c own)
    omega
  · rw [List.mem_singleton] at closing
    subst closing
    decide

theorem ofAscii_of_labels (labels : List (List Char)) :
    ofAscii (labels.flatMap (· ++ ['.'])) = (labels.map ofAscii).flatMap (· ++ [dot]) := by
  rw [ofAscii, List.map_flatMap, List.flatMap_map]
  simp [ofAscii, dot]

namespace Name

variable {name : Name} {s : String}

/-! ## Strings and texts -/

theorem ascii_text (name : Name) : ∀ octet ∈ name.text, octet.toNat ≤ 0x7f := by
  intro octet member
  by_cases top : name.labels = []
  · rw [eq_root_of_labels_eq_nil top, text_root, List.mem_singleton] at member
    subst member
    decide
  · rw [text_of_labels_ne_nil top, closedText, List.mem_flatMap] at member
    obtain ⟨label, _, inside⟩ := member
    -- an octet of a text is one of a label or the dot behind it
    rcases List.mem_append.mp inside with own | closing
    · have valid := isLabelOctet_iff.mp (label.isLabel.2.2 octet own)
      omega
    · rw [List.mem_singleton] at closing
      subst closing
      decide

theorem ofString_toString (name : Name) : ofString (toString name) = name.text :=
  ofString_toAscii name.ascii_text

/-- A string is read as the name that it writes. -/
theorem ofString?_eq_some_iff : ofString? s = some name ↔ toString name = s := by
  rw [ofString?, ofText?_eq_some_iff, ← ofString_toString, ofString_injective.eq_iff]

theorem isNameString_toString (name : Name) : IsNameString (toString name) := by
  by_cases top : name.labels = []
  · left
    rw [eq_root_of_labels_eq_nil top]
    decide
  · right
    -- the characters of a label are those with its octets as their codes
    refine ⟨name.labels.map fun label => label.octets.map fun octet => Char.ofNat octet.toNat,
      by simpa using top, ?_, ?_, ?_⟩
    · intro chars member
      obtain ⟨label, _, rfl⟩ := List.mem_map.mp member
      obtain ⟨nonempty, short, valid⟩ := label.isLabel
      refine ⟨by simpa using nonempty, by simpa using short, ?_⟩
      intro c present
      obtain ⟨octet, inside, rfl⟩ := List.mem_map.mp present
      exact isLabelChar_of_isLabelOctet (valid octet inside)
    · change name.text.toAscii.toList = _
      rw [toAscii, String.toList_ofList, text_of_labels_ne_nil top, closedText, List.map_flatMap,
        List.flatMap_map]
      simp [dot]
    · rw [← length_ofString, ofString_toString, text_of_labels_ne_nil top, length_closedText]
      exact name.textLength_le

theorem exists_toString_eq (valid : IsNameString s) : ∃ name : Name, toString name = s := by
  rcases valid with rfl | ⟨labels, nonempty, valid, spelled, short⟩
  · exact ⟨root, by decide⟩
  · have ascii : ∀ c ∈ s.toList, c.toNat ≤ 0x7f := by
      rw [spelled]
      exact ascii_of_labels fun label present => (valid label present).2.2
    have text : ofString s = (labels.map ofAscii).flatMap (· ++ [dot]) := by
      rw [ofString_of_ascii ascii, spelled, ofAscii_of_labels]
    have named : ∃ name : Name, name.text = ofString s := by
      refine exists_text_eq_iff.mpr (.inr ⟨labels.map ofAscii, by simpa using nonempty, ?_, text, ?_⟩)
      · intro part member
        obtain ⟨label, present, rfl⟩ := List.mem_map.mp member
        obtain ⟨occupied, bounded, printable⟩ := valid label present
        exact isLabel_ofAscii occupied bounded printable
      · rw [length_ofString]
        exact short
    obtain ⟨name, same⟩ := named
    refine ⟨name, ofString_injective ?_⟩
    rw [ofString_toString, same]

/-! ## Sources of names -/

theorem parent?_eq_getElem?_suffixes (name : Name) : name.parent? = name.suffixes[1]? := by
  cases name using labelInduction with
  | root => rfl
  | child label parent short =>
    -- the suffixes of the parent begin with the parent
    rw [suffixes_child, List.getElem?_cons_succ]
    cases parent using labelInduction with
    | root => rfl
    | child => rfl

/-- The wildcard is read from its text. -/
theorem wildcardChild?_eq_ofText? (name : Name) : name.wildcardChild? =
    ofText? (0x2a :: dot :: if name = root then [] else name.text) := by
  have text : closedText (Label.asterisk :: name.labels) =
      0x2a :: dot :: if name = root then [] else name.text := by
    rw [closedText_cons]
    split
    next top =>
      rw [top]
      rfl
    next below =>
      have nonempty : name.labels ≠ [] := fun empty => below (eq_root_of_labels_eq_nil empty)
      rw [text_of_labels_ne_nil nonempty]
      rfl
  ext wildcard
  rw [wildcardChild?_eq_some_iff, ofText?_eq_some_iff, ← text]
  constructor
  · intro labels
    rw [text_of_labels_ne_nil (by rw [labels]; exact List.cons_ne_nil _ _), labels]
  · intro same
    by_cases top : wildcard.labels = []
    · -- the text of the root is shorter
      rw [eq_root_of_labels_eq_nil top, text_root, closedText_cons] at same
      cases same
    · rw [text_of_labels_ne_nil top] at same
      exact closedText_injective same

/-- A name is read from octets by joining the labels in them and reading the text they make up. -/
theorem exists_labels_of_read? {input rest : Octets} (returned : read? input = some (name, rest)) :
    ∃ labels : List Octets, input = labels.flatMap counted ++ 0 :: rest ∧
      ofText? (if labels = [] then [dot] else labels.flatMap (· ++ [dot])) = some name := by
  refine ⟨name.labels.map Label.octets, ?_, ofText?_eq_some_iff.mpr ?_⟩
  · rw [List.flatMap_map]
    exact read?_eq_some_iff.mp returned
  · by_cases top : name.labels = []
    · rw [if_pos (by simpa using top), eq_root_of_labels_eq_nil top, text_root]
    · rw [if_neg (by simpa using top), text_of_labels_ne_nil top, closedText_eq]

end Name

namespace Nsec3

variable {record : Nsec3} {records : List Nsec3} {input rest : Octets}

theorem exists_read?_owner (returned : read? input = some (record, rest)) :
    ∃ more, Name.read? input = some (record.owner, more) := by
  obtain ⟨_, ttl, bitmap, _, _, rfl⟩ := read?_eq_some_iff.mp returned
  have begins : ∃ more, record.wireWith ttl bitmap ++ rest =
      (record.owner.labels.flatMap fun label => counted label.octets) ++ 0 :: more := by
    apply Exists.intro
    simp only [wireWith, List.append_assoc]
    rfl
  obtain ⟨more, spelled⟩ := begins
  exact ⟨more, Name.read?_eq_some_iff.mpr spelled⟩

/-- The owner of each record in a stream is read as a name from where the record begins. -/
theorem Reads.exists_read?_owner (reads : Reads input records rest) (member : record ∈ records) :
    ∃ before after more, input = before ++ after ∧
      Name.read? after = some (record.owner, more) := by
  induction reads with
  | done => cases member
  | step read _ ih =>
    rcases List.mem_cons.mp member with rfl | later
    · obtain ⟨more, owned⟩ := Nsec3.exists_read?_owner read
      exact ⟨[], _, more, rfl, owned⟩
    · obtain ⟨before, after, more, rfl, owned⟩ := ih later
      obtain ⟨form, _, rfl⟩ := WireForm.exists_of_read? read
      exact ⟨form.octets ++ before, after, more, by rw [List.append_assoc], owned⟩

end Nsec3

/-- Whether the string of a name is that of a name. -/
def Name.IsValid (name : Name) : Prop := IsNameString (toString name)

/-- A string is read as a name exactly if it is that of a name, and then it is the string of what is
read. All other names have such strings too: the suffixes, which are cut out of the text without
looking at it, the parent and the wildcard child, the names and the owners that are read from
octets, and what the search for the closest encloser finds. -/
theorem Name.isValid_of_source :
    (∀ s, (∃ name, ofString? s = some name) ↔ IsNameString s) ∧
    (∀ s name, ofString? s = some name ↔ toString name = s) ∧
    root.IsValid ∧
    (∀ name : Name,
      name.suffixes.map text = List.iterate upperText name.text (name.labelCount + 1) ∧
        ∀ suffix ∈ name.suffixes, suffix.IsValid) ∧
    (∀ name : Name, name.parent? = name.suffixes[1]? ∧
      ∀ parent, name.parent? = some parent → parent.IsValid) ∧
    (∀ name : Name, name.wildcardChild? =
        ofText? (0x2a :: dot :: if name = root then [] else name.text) ∧
      ∀ wildcard, name.wildcardChild? = some wildcard → wildcard.IsValid) ∧
    (∀ input name rest, read? input = some (name, rest) → name.IsValid ∧
      ∃ labels : List Octets, input = labels.flatMap counted ++ 0 :: rest ∧
        ofText? (if labels = [] then [dot] else labels.flatMap (· ++ [dot])) = some name) ∧
    (∀ input record rest, Nsec3.read? input = some (record, rest) → record.owner.IsValid ∧
      ∃ more, read? input = some (record.owner, more)) ∧
    (∀ input records, Nsec3.readStream? input = some records → ∀ record ∈ records,
      record.owner.IsValid ∧ ∃ before after more, input = before ++ after ∧
        read? after = some (record.owner, more)) ∧
    ∀ {ρ : Type} [DenialRecord ρ] [BEq ρ] (records : List ρ) (name : Name) (encloser : Encloser),
      findClosestEncloser name records = .ok (some encloser) →
        (encloser.closest ∈ name.suffixes ∧ encloser.closest.IsValid) ∧
          encloser.nextCloser ∈ name.suffixes ∧ encloser.nextCloser.IsValid := by
  have valid : ∀ name : Name, name.IsValid := isNameString_toString
  refine ⟨fun s => ⟨?_, ?_⟩, fun s name => ofString?_eq_some_iff, valid root,
    fun name => ⟨map_text_suffixes name, fun suffix _ => valid suffix⟩,
    fun name => ⟨parent?_eq_getElem?_suffixes name, fun parent _ => valid parent⟩,
    fun name => ⟨wildcardChild?_eq_ofText? name, fun wildcard _ => valid wildcard⟩,
    fun input name rest returned => ⟨valid name, exists_labels_of_read? returned⟩,
    fun input record rest returned => ⟨valid record.owner, Nsec3.exists_read?_owner returned⟩,
    ?_, ?_⟩
  · intro ⟨name, read⟩
    obtain rfl := ofString?_eq_some_iff.mp read
    exact valid name
  · intro written
    obtain ⟨name, same⟩ := exists_toString_eq written
    exact ⟨name, ofString?_eq_some_iff.mpr same⟩
  · intro input records returned record member
    have reads := Nsec3.readStream?_eq_some_iff.mp returned
    exact ⟨valid record.owner, reads.exists_read?_owner member⟩
  · intro ρ _ _ records name encloser found
    have encloses := findClosestEncloser_eq_some_iff.mp found
    exact ⟨⟨encloses.closest_mem, valid _⟩, encloses.nextCloser_mem, valid _⟩

/-- A string with two labels, the ancestors and the wildcard of a name, a name in capital letters with
an octet after it, a record alone, another twice in a stream, and a name below an encloser. -/
theorem Name.isValid_of_source_sample :
    (∃ name, Name.ofString? "h.e." = some name) ∧
    (∀ suffix ∈ Sample.belowMissing.suffixes, suffix.IsValid) ∧
    Sample.apex.IsValid ∧ Sample.wildcard.IsValid ∧ Sample.capitalApex.IsValid ∧
    Sample.capitalForm.record.owner.IsValid ∧
    (∀ record ∈ [Sample.shortestForm.record, Sample.shortestForm.record], record.owner.IsValid) ∧
    Sample.host.IsValid := by
  obtain ⟨strings, _, _, suffixes, parents, wildcards, names, records, streams, searches⟩ :=
    Name.isValid_of_source
  have labels : IsNameString "h.e." :=
    .inr ⟨[['h'], ['e']], List.cons_ne_nil _ _, by simp [IsLabelChar], by decide, by decide⟩
  have read : Name.read? [1, 0x45, 0, 9] = some (Sample.capitalApex, [9]) :=
    Name.read?_eq_some_iff.mpr rfl
  have twice : Nsec3.readStream? (Sample.shortestForm.octets ++ Sample.shortestForm.octets) =
      some [Sample.shortestForm.record, Sample.shortestForm.record] := by
    apply Nsec3.readStream?_eq_some_iff.mpr
    have last := Sample.shortestForm.read?_octets []
    rw [List.append_nil] at last
    exact .step (Sample.shortestForm.read?_octets _) (.step last (.done []))
  have found : findClosestEncloser Sample.host Sample.wildcardRecords =
      .ok (some ⟨Sample.apex, Sample.host⟩) := by decide
  refine ⟨(strings _).mpr labels, (suffixes _).2, (parents Sample.host).2 _ rfl,
    (wildcards Sample.apex).2 _ rfl, (names _ _ _ read).1,
    (records _ _ _ (Sample.capitalForm.read?_octets [])).1, ?_, (searches _ _ _ found).2.2⟩
  intro record member
  exact (streams _ _ twice record member).1

end HashedDenial
