import HashedDenial.HashParams
import HashedDenial.Proofs.Name.WireText

/-!
# Iterated hashes of names

The hash of a name goes through a number of rounds. The first hashes the salted wire form of the
name and every other one the salted digest of the round before. The wire form tells names apart up
to case, so names that differ in more than case have one hash only if, in some round, the hash
function takes different messages to one digest.
-/
namespace HashedDenial

section Rounds

/-- The hash of a salted input, salted and hashed again in each further round. -/
def iteratedHash (hash : Octets → Octets) (salt input : Octets) : (rounds : Nat) → Octets
  | 0 => hash (input ++ salt)
  | rounds + 1 => hash (iteratedHash hash salt input rounds ++ salt)

/-- The message that is hashed in a round. -/
def roundMessage (hash : Octets → Octets) (salt input : Octets) : (round : Nat) → Octets
  | 0 => input ++ salt
  | round + 1 => iteratedHash hash salt input round ++ salt

/-- Whether two inputs lead to different messages with one digest in some round up to the last. -/
def Collide (hash : Octets → Octets) (salt left right : Octets) (rounds : Nat) : Prop :=
  ∃ round ≤ rounds, roundMessage hash salt left round ≠ roundMessage hash salt right round ∧
    hash (roundMessage hash salt left round) = hash (roundMessage hash salt right round)

variable {hash : Octets → Octets} {salt left right : Octets} {rounds : Nat}

theorem hash_roundMessage (hash : Octets → Octets) (salt input : Octets) (round : Nat) :
    hash (roundMessage hash salt input round) = iteratedHash hash salt input round := by
  cases round <;> rfl

theorem collide_succ_iff : Collide hash salt left right (rounds + 1) ↔
    Collide hash salt left right rounds ∨
      roundMessage hash salt left (rounds + 1) ≠ roundMessage hash salt right (rounds + 1) ∧
        hash (roundMessage hash salt left (rounds + 1)) =
          hash (roundMessage hash salt right (rounds + 1)) := by
  constructor
  · intro ⟨round, within, collision⟩
    rcases Nat.le_succ_iff.mp within with earlier | rfl
    · exact Or.inl ⟨round, earlier, collision⟩
    · exact Or.inr collision
  · intro collided
    rcases collided with ⟨round, within, collision⟩ | collision
    · exact ⟨round, Nat.le_succ_of_le within, collision⟩
    · exact ⟨rounds + 1, Nat.le_refl _, collision⟩

/-- Equal digests stay equal, and different messages become equal digests only by a collision. -/
theorem iteratedHash_eq_iff :
    iteratedHash hash salt left rounds = iteratedHash hash salt right rounds ↔
      left = right ∨ Collide hash salt left right rounds := by
  induction rounds with
  | zero =>
    by_cases same : left = right
    · simp [same]
    · have differ : left ++ salt ≠ right ++ salt := fun whole =>
        same (List.append_cancel_right whole)
      simp [Collide, iteratedHash, roundMessage, same, differ]
  | succ rounds ih =>
    rw [collide_succ_iff, ← or_assoc, ← ih, hash_roundMessage hash, hash_roundMessage hash]
    by_cases earlier : iteratedHash hash salt left rounds = iteratedHash hash salt right rounds
    · simp [iteratedHash, earlier]
    · have differ : roundMessage hash salt left (rounds + 1) ≠
          roundMessage hash salt right (rounds + 1) := fun whole =>
        earlier (List.append_cancel_right whole)
      simp [earlier, differ]

end Rounds

theorem iteratedDigest_eq (salt message : Octets) (iterations : Nat) :
    iteratedDigest salt message iterations = iteratedHash Sha1.digest salt message iterations := by
  induction iterations with
  | zero => rfl
  | succ iterations ih => exact congrArg (fun digest => Sha1.digest (digest ++ salt)) ih

namespace HashParams

/-- Only one algorithm is known, and under it the hash of a name is the iterated SHA-1 digest of its
wire form: the lowered labels behind their counts, as the dots of the text part them, and a zero
octet. Names that differ at most in case are hashed alike, and all others differ unless the hash
function has a collision among the messages hashed for them. -/
theorem hash?_exact :
    (∀ (params : HashParams) (name : Name),
      (params.hash? name = none ↔ params.algorithm ≠ sha1Algorithm) ∧
      ∀ hash, params.hash? name = some hash ↔ params.algorithm = sha1Algorithm ∧
        iteratedHash Sha1.digest params.salt name.wire params.iterations.toNat = hash) ∧
    (∀ name : Name,
      name.wire = (name.labels.flatMap fun label => Octets.counted label.octets.lower) ++ [0] ∧
      name.wire = if name.text.lower = [dot] then [0]
        else (name.text.lower.splitOn dot).flatMap Octets.counted) ∧
    (∀ left right : Name, left.wire = right.wire ↔ left.hasText right.text = true) ∧
    ∀ (iterations : UInt16) (salt : Octets) (left right : Name),
      (⟨sha1Algorithm, iterations, salt⟩ : HashParams).hash? left =
          (⟨sha1Algorithm, iterations, salt⟩ : HashParams).hash? right ↔
        left.hasText right.text = true ∨
          Collide Sha1.digest salt left.wire right.wire iterations.toNat := by
  refine ⟨fun params name => ⟨hash?_eq_none_iff, fun hash => ?_⟩,
    fun name => ⟨?_, name.wire_eq_splitOn⟩, fun left right => Name.wire_eq_wire_iff, ?_⟩
  · rw [hash?_eq_some_iff, iteratedDigest_eq]
  · rw [Name.wire, Name.labels_canonical, List.flatMap_map]
    rfl
  · intro iterations salt left right
    rw [hash?_sha1, hash?_sha1, Option.some.injEq, iteratedDigest_eq, iteratedDigest_eq,
      iteratedHash_eq_iff, Name.wire_eq_wire_iff]

/-- The root is hashed as a single zero octet. -/
example : (⟨sha1Algorithm, 0, []⟩ : HashParams).hash? Name.root = some
    [0x5b, 0xa9, 0x3c, 0x9d, 0xb0, 0xcf, 0xf9, 0x3f, 0x52, 0xb5, 0x21, 0xd7, 0x42, 0x0e, 0x43, 0xf6,
      0xed, 0xa2, 0x78, 0x4f] := by
  decide +kernel

end HashParams

end HashedDenial
