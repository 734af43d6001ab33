import HashedDenial.Name.Basic
import HashedDenial.TypeBitmap

/-!
# Records of denial and why a proof fails

The proofs of denial consult records only through the questions below, so any kind of record that
answers them will do. Two records that compare unequal and speak about the same name contradict each
other, whatever they say. Every failure of a proof means that the response must not be accepted.
-/
namespace HashedDenial

/-! ## Records -/

/-- A record that can deny the existence of names and types. -/
class DenialRecord (ρ : Type) where
  /-- Whether the record stands at the hash of a name, so that the name exists. -/
  matchesName : ρ → Name → Bool
  /-- Whether the hash of a name falls into the gap after the record, so that no such name
  exists. -/
  coversName : ρ → Name → Bool
  /-- The types that exist at the name the record stands for. -/
  types : ρ → List RRType
  /-- Whether the gap may hold unsigned delegations. -/
  optOut : ρ → Bool
  /-- The text of the zone that the record was issued for. -/
  zone : ρ → Octets

/-! ## Failures -/

/-- The first problem found in a proof. -/
inductive DenialError where
  /-- The records are of several zones or contradict the claimed kind of response. -/
  | mismatch
  /-- The type asked for, or an alias, exists at the name. -/
  | typeExists
  /-- Records that differ match or cover the same name. -/
  | multipleCoverage
  /-- No record matches or covers a name that the proof needs. -/
  | missingCoverage
  /-- The record of an unsigned delegation shows a signed delegation or the apex of a zone. -/
  | badDelegation
  /-- The record of an unsigned delegation shows no delegation. -/
  | nsMissing
  /-- The record that covers the next closer name leaves no room for unsigned delegations. -/
  | optOut
  deriving DecidableEq, Repr

namespace DenialError

/-- The text of an error. -/
def message : DenialError → String
  | mismatch => "NSEC3 records don't match the question"
  | typeExists => "NSEC3 record shows the question type exists"
  | multipleCoverage => "Multiple NSEC3 records match or cover the same name"
  | missingCoverage => "NSEC3 record missing for a required name"
  | badDelegation => "DS or SOA bit set in delegation NSEC3 type map"
  | nsMissing => "NS bit not set in delegation NSEC3 type map"
  | optOut => "Opt-Out bit not set for NSEC3 record covering next closer"

end DenialError

/-- Fails with the given error unless the condition holds. -/
def ensure (condition : Prop) [Decidable condition] (failure : DenialError) :
    Except DenialError Unit :=
  if condition then .ok () else .error failure

/-- The value, or the given error if there is none. -/
def valueOr {α : Type} (failure : DenialError) : Option α → Except DenialError α
  | some value => .ok value
  | none => .error failure

@[simp] theorem ensure_eq_ok_iff (condition : Prop) [Decidable condition] (failure : DenialError) :
    ensure condition failure = .ok () ↔ condition := by
  unfold ensure
  split <;> simp [*]

@[simp] theorem valueOr_eq_ok_iff {α : Type} (failure : DenialError) (found : Option α)
    (value : α) : valueOr failure found = .ok value ↔ found = some value := by
  cases found <;> simp [valueOr]

end HashedDenial
