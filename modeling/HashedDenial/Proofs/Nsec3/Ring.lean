import HashedDenial.Nsec3.Basic

/-!
# The ring of hashes

Every hash of a finite set leads to the least one above it, and the greatest leads back to the
least. The gaps between a hash and the one that follows part the hashes outside the set: each of
them lies in exactly one gap, and no hash of the set lies in any.
-/
namespace HashedDenial.Nsec3

variable {hashes : List Octets} {owner next owner' next' hash : Octets}

instance : Min Octets := Min.leftLeaningOfLE Octets

instance : Max Octets := Max.leftLeaningOfLE Octets

/-- The hash that follows on the ring: the least one above, or the least of all if there is none. -/
def successor (hashes : List Octets) (hash : Octets) : Octets :=
  ((hashes.filter (hash < ·)).min? <|> hashes.min?).getD hash

/-- Whether `next` is the hash that follows `owner` on the ring. -/
structure Follows (hashes : List Octets) (owner next : Octets) : Prop where
  next_mem : next ∈ hashes
  /-- Either `next` is the least hash above, or it leads from the greatest hash to the least. -/
  nearest : (owner < next ∧ ∀ hash ∈ hashes, owner < hash → next ≤ hash) ∨
    ∀ hash ∈ hashes, next ≤ hash ∧ hash ≤ owner

theorem follows_successor (member : owner ∈ hashes) :
    Follows hashes owner (successor hashes owner) := by
  unfold successor
  cases above : (hashes.filter (owner < ·)).min? with
  | some next =>
    obtain ⟨listed, least⟩ := List.min?_eq_some_iff.mp above
    obtain ⟨present, greater⟩ := List.mem_filter.mp listed
    refine ⟨present, Or.inl ⟨of_decide_eq_true greater, ?_⟩⟩
    intro hash inside higher
    exact least hash (List.mem_filter.mpr ⟨inside, decide_eq_true higher⟩)
  | none =>
    -- nothing lies above, so the ring leads back to the least hash
    have greatest : ∀ hash ∈ hashes, hash ≤ owner := by
      have empty := List.min?_eq_none_iff.mp above
      intro hash inside
      have bound := List.filter_eq_nil_iff.mp empty hash inside
      grind
    obtain ⟨next, lowest⟩ := Option.isSome_iff_exists.mp (List.isSome_min?_of_mem member)
    obtain ⟨present, least⟩ := List.min?_eq_some_iff.mp lowest
    rw [lowest]
    exact ⟨present, Or.inr fun hash inside => ⟨least hash inside, greatest hash inside⟩⟩

theorem inGap_iff : inGap owner next hash = true ↔
    (owner < next ∧ owner < hash ∧ hash < next) ∨
      (¬ owner < next ∧ (owner < hash ∨ hash < next)) := by
  unfold inGap
  split
  next below => simp [below]
  next last => simp [last]

/-! ## The gaps part the other hashes -/

theorem Follows.notMem (follows : Follows hashes owner next) (gap : inGap owner next hash = true) :
    hash ∉ hashes := by
  intro member
  have split := inGap_iff.mp gap
  rcases follows.nearest with ⟨below, least⟩ | wrapped
  · have bound := least hash member
    grind
  · have bound := wrapped hash member
    have bound' := wrapped next follows.next_mem
    grind

/-- Two gaps with a hash in common are one. -/
theorem Follows.owner_eq (member : owner ∈ hashes) (member' : owner' ∈ hashes)
    (follows : Follows hashes owner next) (follows' : Follows hashes owner' next')
    (gap : inGap owner next hash = true) (gap' : inGap owner' next' hash = true) :
    owner = owner' := by
  have split := inGap_iff.mp gap
  have split' := inGap_iff.mp gap'
  -- neither owner lies in the gap of the other, whichever of the gaps wraps around
  rcases follows.nearest with ⟨below, least⟩ | wrapped
  · have bound := least owner' member'
    rcases follows'.nearest with ⟨below', least'⟩ | wrapped'
    · have bound' := least' owner member
      grind
    · have bound' := wrapped' owner member
      have bound'' := wrapped' next follows.next_mem
      grind
  · have bound := wrapped owner' member'
    have bound' := wrapped next' follows'.next_mem
    rcases follows'.nearest with ⟨below', least'⟩ | wrapped'
    · grind
    · have bound'' := wrapped' owner member
      grind

/-- A hash outside the set lies in the gap after the greatest hash below it, or after the greatest
of all if there is none below. -/
theorem exists_gap (nonempty : hashes ≠ []) (absent : hash ∉ hashes) :
    ∃ owner ∈ hashes, ∀ next, Follows hashes owner next → inGap owner next hash = true := by
  cases below : (hashes.filter (· < hash)).max? with
  | some owner =>
    obtain ⟨listed, greatest⟩ := List.max?_eq_some_iff.mp below
    obtain ⟨member, lower⟩ := List.mem_filter.mp listed
    refine ⟨owner, member, fun next follows => inGap_iff.mpr ?_⟩
    have lower := of_decide_eq_true lower
    have next_ne : next ≠ hash := fun same => absent (same ▸ follows.next_mem)
    by_cases inside : next < hash
    · -- then `next` is not above the owner, so the owner is the greatest of all
      have bound := greatest next (List.mem_filter.mpr ⟨follows.next_mem, decide_eq_true inside⟩)
      grind
    · grind
  | none =>
    have empty := List.max?_eq_none_iff.mp below
    -- every hash lies above, so the gap that wraps around holds this one
    have above : ∀ other ∈ hashes, hash < other := by
      intro other member
      have bound := List.filter_eq_nil_iff.mp empty other member
      have other_ne : other ≠ hash := fun same => absent (same ▸ member)
      grind
    obtain ⟨owner, highest⟩ := Option.isSome_iff_exists.mp (List.isSome_max?_of_ne_nil nonempty)
    obtain ⟨member, greatest⟩ := List.max?_eq_some_iff.mp highest
    refine ⟨owner, member, fun next follows => inGap_iff.mpr ?_⟩
    have bound := greatest next follows.next_mem
    have bound' := above next follows.next_mem
    grind

end HashedDenial.Nsec3
