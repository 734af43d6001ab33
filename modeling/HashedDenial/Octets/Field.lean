import HashedDenial.Octets

/-!
# Wire fields

Numbers are big-endian and of fixed width, strings are preceded by one octet that counts them.
A reader returns the value together with the octets after it, or nothing if the input is too short.
-/
namespace HashedDenial.Octets

/-! ## Written forms -/

/-- The number written in base 256, most significant octet first. -/
def ofBigEndian (octets : Octets) : Nat :=
  octets.foldl (fun number octet => 256 * number + octet.toNat) 0

/-- The low `width` octets of a number, most significant first. -/
def toBigEndian : (width : Nat) → (number : Nat) → Octets
  | 0, _ => []
  | width + 1, number => toBigEndian width (number / 256) ++ [UInt8.ofNat number]

/-- A string of at most 255 octets behind its count. -/
def counted (octets : Octets) : Octets := UInt8.ofNat octets.length :: octets

/-! ## Readers -/

/-- Splits off exactly `count` octets. -/
def readExactly? (count : Nat) (input : Octets) : Option (Octets × Octets) :=
  if count ≤ input.length then some (input.take count, input.drop count) else none

/-- Reads a number of `width` octets. -/
def readNumber? (width : Nat) (input : Octets) : Option (Nat × Octets) := do
  let (digits, rest) ← readExactly? width input
  some (ofBigEndian digits, rest)

/-- Reads a string behind its count. -/
def readCounted? (input : Octets) : Option (Octets × Octets) := do
  let (count, rest) ← readNumber? 1 input
  readExactly? count rest

/-! ## Lengths -/

@[simp] theorem length_toBigEndian (width number : Nat) :
    (toBigEndian width number).length = width := by
  induction width generalizing number with
  | zero => rfl
  | succ width ih => simp [toBigEndian, ih]

/-- What is split off and what is left make up the input. -/
theorem readExactly?_eq_some_iff {count : Nat} {input taken rest : Octets} :
    readExactly? count input = some (taken, rest) ↔
      input = taken ++ rest ∧ taken.length = count := by
  unfold readExactly?
  constructor
  · intro returned
    split at returned
    next enough =>
      cases returned
      exact ⟨(List.take_append_drop count input).symm, by simp [enough]⟩
    · cases returned
  · rintro ⟨rfl, rfl⟩
    simp

theorem length_of_readExactly? {count : Nat} {input taken rest : Octets}
    (returned : readExactly? count input = some (taken, rest)) :
    rest.length + count = input.length := by
  obtain ⟨rfl, rfl⟩ := readExactly?_eq_some_iff.mp returned
  simp [Nat.add_comm]

theorem length_of_readNumber? {width number : Nat} {input rest : Octets}
    (returned : readNumber? width input = some (number, rest)) :
    rest.length + width = input.length := by
  obtain ⟨⟨digits, rest'⟩, split, same⟩ := Option.bind_eq_some_iff.mp returned
  cases same
  exact length_of_readExactly? split

end HashedDenial.Octets
