import HashedDenial.Name.Wire
import HashedDenial.Proofs.Name.Suffixes
import HashedDenial.Proofs.Octets.Field

/-!
# Reading names back

The reader takes the labels of a name in any case, each behind its length, and the zero octet after
them. What the writer makes of a name is read as the same name with its capital letters lowered.
-/
namespace HashedDenial.Name

open Octets

variable {name : Name} {labels : List Label} {input rest : Octets}

theorem length_label_ne_zero (label : Label) : UInt8.ofNat label.octets.length ≠ 0 := by
  have occupied := label.isLabel.1
  have short := label.isLabel.2.1
  rw [ne_eq, ← UInt8.toNat_inj, UInt8.toNat_ofNat']
  simp
  omega

theorem readLabels?_eq_some_iff : readLabels? input = some (labels, rest) ↔
    input = (labels.flatMap fun label => counted label.octets) ++ 0 :: rest := by
  constructor
  · intro returned
    fun_induction readLabels? input generalizing labels rest with
    | case1 => cases returned
    | case2 => cases returned; rfl
    | case3 length input _ enough ih =>
      simp only [bind, Option.bind_eq_some_iff, Prod.exists, Option.some.injEq, Prod.mk.injEq]
        at returned
      obtain ⟨label, taken, others, tail, read, rfl, rfl⟩ := returned
      have octets := Label.ofOctets?_eq_some_iff.mp taken
      have count : UInt8.ofNat label.octets.length = length := by
        rw [octets, List.length_take, Nat.min_eq_left enough.2, UInt8.ofNat_toNat]
      rw [List.flatMap_cons, List.append_assoc, ← ih read, counted, count, octets,
        List.cons_append, List.take_append_drop]
    | case4 => cases returned
  · rintro rfl
    induction labels with
    | nil => simp [readLabels?]
    | cons label labels ih =>
      have short := label.isLabel.2.1
      have length : (UInt8.ofNat label.octets.length).toNat = label.octets.length := by
        rw [UInt8.toNat_ofNat']
        omega
      have within : UInt8.ofNat label.octets.length ≤ 63 := by
        rw [UInt8.le_iff_toNat_le, length]
        exact short
      have taken : Label.ofOctets? label.octets = some label := Label.ofOctets?_eq_some_iff.mpr rfl
      rw [List.flatMap_cons, List.append_assoc, counted, List.cons_append, readLabels?,
        if_neg (length_label_ne_zero label), length]
      simp [within, taken, ih]

/-- Names are read as they are written, but in any case. -/
theorem read?_eq_some_iff : read? input = some (name, rest) ↔
    input = (name.labels.flatMap fun label => counted label.octets) ++ 0 :: rest := by
  simp only [read?, bind, Option.bind_eq_some_iff, readLabels?_eq_some_iff, ofLabels?_eq_some_iff,
    Prod.exists, Option.some.injEq, Prod.mk.injEq]
  constructor
  · rintro ⟨labels, tail, rfl, named, rfl, rfl, rfl⟩
    rfl
  · rintro rfl
    exact ⟨name.labels, rest, rfl, name, rfl, rfl, rfl⟩

theorem read?_wire (name : Name) (rest : Octets) :
    read? (name.wire ++ rest) = some (name.canonical, rest) := by
  rw [read?_eq_some_iff, wire, List.append_assoc]
  rfl

/-! ## Names without capital letters -/

theorem lowerOctet_eq_self_iff {octet : UInt8} :
    lowerOctet octet = octet ↔ ¬ (0x41 ≤ octet ∧ octet ≤ 0x5a) := by
  unfold lowerOctet
  split
  next capital =>
    have moved : octet + 0x20 ≠ octet := by
      rw [ne_eq, ← UInt8.toNat_inj, UInt8.toNat_add]
      have bound := octet.toNat_lt
      simp
      omega
    simp [moved, capital]
  next small => simp [small]

private theorem map_eq_self_iff {α : Type} {change : α → α} {items : List α} :
    items.map change = items ↔ ∀ item ∈ items, change item = item := by
  simpa using List.map_inj_left (f := change) (g := id) (l := items)

theorem canonical_eq_self_iff : name.canonical = name ↔
    ∀ label ∈ name.labels, ∀ octet ∈ label.octets, ¬ (0x41 ≤ octet ∧ octet ≤ 0x5a) := by
  have label_iff (label : Label) : label.canonical = label ↔ label.octets.lower = label.octets := by
    cases label
    simp [Label.canonical]
  rw [← labels_injective.eq_iff, labels_canonical, map_eq_self_iff]
  simp only [label_iff, lower, map_eq_self_iff, lowerOctet_eq_self_iff]

end HashedDenial.Name
