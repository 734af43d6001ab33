import HashedDenial.Proofs.Name.Suffixes

/-!
# Walks along the suffixes of a name

A walk passes over some items and ends at the first that stops it. Along the suffixes of a name the
items before it are the longer ones, so a walk ends at the longest suffix that is not passed over.
-/
namespace HashedDenial

/-- Whether a walk along a list ends at an item of one kind, with only items of another kind before
it. -/
def StopsAt {α : Type} (passed stop : α → Prop) (items : List α) : Prop :=
  ∃ before item after, items = before ++ item :: after ∧ (∀ other ∈ before, passed other) ∧
    stop item

section StopsAt

variable {α : Type} {passed stop : α → Prop} {item : α} {items : List α}

@[simp] theorem not_stopsAt_nil : ¬ StopsAt passed stop [] := by
  simp [StopsAt]

/-- The first item stops the walk, or the walk passes over it and goes on. -/
@[simp] theorem stopsAt_cons_iff :
    StopsAt passed stop (item :: items) ↔ stop item ∨ passed item ∧ StopsAt passed stop items := by
  constructor
  · intro ⟨before, last, after, split, skipped, stopped⟩
    -- the first item is where the walk stops unless it is among those passed over
    cases before with
    | nil =>
      obtain ⟨rfl, _⟩ := List.cons.inj split
      exact Or.inl stopped
    | cons first before =>
      obtain ⟨rfl, rest⟩ := List.cons.inj split
      obtain ⟨here, later⟩ := List.forall_mem_cons.mp skipped
      exact Or.inr ⟨here, before, last, after, rest, later, stopped⟩
  · intro walked
    rcases walked with stopped | ⟨here, before, last, after, rfl, later, stopped⟩
    · exact ⟨[], item, items, rfl, by simp, stopped⟩
    · exact ⟨item :: before, last, after, rfl, List.forall_mem_cons.mpr ⟨here, later⟩, stopped⟩

end StopsAt

namespace Name

variable {name : Name} {passed stop : Name → Prop} {count : Nat}

/-- A walk along the longest suffixes ends at one of them, and all that are longer are passed
over. -/
theorem stopsAt_take_suffixes_iff : StopsAt passed stop (name.suffixes.take count) ↔
    ∃ last ∈ name.suffixes, name.labelCount < last.labelCount + count ∧ stop last ∧
      ∀ longer ∈ name.suffixes, last.labelCount < longer.labelCount → passed longer := by
  -- what is taken and what is left make up the suffixes, whichever of those taken is looked at
  have whole {before after : List Name} {last : Name}
      (split : name.suffixes.take count = before ++ last :: after) :
      name.suffixes = before ++ last :: (after ++ name.suffixes.drop count) := by
    rw [← List.cons_append, ← List.append_assoc, ← split, List.take_append_drop]
  constructor
  · intro ⟨before, last, after, split, skipped, stopped⟩
    have taken : last ∈ name.suffixes.take count := by
      rw [split]
      exact List.mem_append_right _ List.mem_cons_self
    obtain ⟨inside, within⟩ := mem_take_suffixes_iff.mp taken
    refine ⟨last, inside, within, stopped, fun longer member above => skipped longer ?_⟩
    exact (mem_longer_iff (whole split)).mpr ⟨member, above⟩
  · intro ⟨last, inside, within, stopped, skipped⟩
    obtain ⟨before, after, split⟩ := List.append_of_mem (mem_take_suffixes_iff.mpr ⟨inside, within⟩)
    refine ⟨before, last, after, split, fun longer passedOver => ?_, stopped⟩
    obtain ⟨member, above⟩ := (mem_longer_iff (whole split)).mp passedOver
    exact skipped longer member above

theorem stopsAt_suffixes_iff : StopsAt passed stop name.suffixes ↔
    ∃ last ∈ name.suffixes, stop last ∧
      ∀ longer ∈ name.suffixes, last.labelCount < longer.labelCount → passed longer := by
  have all : name.suffixes.take (name.labelCount + 1) = name.suffixes := by
    rw [← length_suffixes, List.take_length]
  rw [← all, stopsAt_take_suffixes_iff, all]
  refine exists_congr fun last => and_congr_right fun _ => and_iff_right ?_
  omega

end Name

end HashedDenial
