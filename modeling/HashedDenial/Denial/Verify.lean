import HashedDenial.Denial.Encloser

/-!
# Verifying proofs of denial

One verifier for each kind of response that comes with hashed denial records. All of them take the
records to be authentic, require them to be of one zone, and report the first problem. A name
outside that zone needs no check of its own: no record matches any of its suffixes within the zone.
-/
namespace HashedDenial

open DenialRecord

/-- What a response answered. -/
structure Question where
  name : Name
  type : RRType
  deriving DecidableEq

variable {ρ : Type} [DenialRecord ρ]

/-- The zone that the records were issued for, in the spelling of the first. -/
def commonZone : List ρ → Except DenialError Octets
  | [] => .error .missingCoverage
  | first :: others =>
    if others.all fun record => (zone record).eqIgnoringCase (zone first) then .ok (zone first)
    else .error .mismatch

variable [BEq ρ]

/-- Whether the type asked for, or an alias for the name, is among the types at a name. -/
def answers (types : List RRType) (type : RRType) : Bool :=
  types.contains type || types.contains RRType.cname

/-- Requires that the next closer name lie in a gap that may hold unsigned delegations. -/
def verifyOptOut (name : Name) (records : List ρ) : Except DenialError Unit := do
  let encloser ← requireEncloser name records
  let coverage ← findCoverer encloser.nextCloser records
  ensure coverage.optOut .optOut

/-- Requires that no record match a name. -/
def ensureUnmatched (name : Name) (records : List ρ) : Except DenialError Unit :=
  match findMatching name records with
  | .ok _ => .error .mismatch
  | .error .missingCoverage => .ok ()
  | .error failure => .error failure

/-! ## The verifiers -/

/-- A name error: the name does not exist, and neither does the wildcard below its closest
encloser, which could have answered for it. -/
def verifyNameError (question : Question) (records : List ρ) : Except DenialError Unit := do
  let _ ← commonZone records
  let encloser ← requireEncloser question.name records
  ensure (encloser.closest ≠ question.name) .mismatch
  let wildcard ← valueOr .missingCoverage encloser.closest.wildcardChild?
  let _ ← findCoverer wildcard records

/-- No data: the name exists without the type asked for and without an alias. A delegation signer
may instead be missing because the name lies in an opt-out gap. -/
def verifyNoData (question : Question) (records : List ρ) : Except DenialError Unit := do
  let _ ← commonZone records
  match findMatching question.name records with
  | .ok types => ensure (¬ answers types question.type) .typeExists
  | .error .missingCoverage =>
    if question.type = RRType.ds then verifyOptOut question.name records
    else .error .missingCoverage
  | .error failure => .error failure

/-- An unsigned delegation: the name is a delegation point without a delegation signer, or lies in
an opt-out gap. -/
def verifyDelegation (name : Name) (records : List ρ) : Except DenialError Unit := do
  let _ ← commonZone records
  match findMatching name records with
  | .ok types =>
    ensure (¬ types.contains RRType.ds ∧ ¬ types.contains RRType.soa) .badDelegation
    ensure (types.contains RRType.ns) .nsMissing
  | .error .missingCoverage => verifyOptOut name records
  | .error failure => .error failure

/-- An answer synthesized from a wildcard: the name lies below the parent of the wildcard, and
nothing exists from the name up to the next closer name, which a record covers. -/
def verifyWildcardAnswer (question : Question) (wildcard : Name) (records : List ρ) :
    Except DenialError Unit := do
  let zone ← commonZone records
  ensure wildcard.isWildcard .mismatch
  let encloser ← valueOr .mismatch wildcard.parent?
  ensure (encloser.inZone zone ∧ question.name.inZone encloser.text ∧
    encloser.labelCount < question.name.labelCount) .mismatch
  let closer := question.name.suffixes.take (question.name.labelCount - encloser.labelCount)
  closer.forM fun name => ensureUnmatched name records
  let nextCloser ← valueOr .mismatch closer.getLast?
  let _ ← findCoverer nextCloser records

/-- No data at a wildcard: the name does not exist, and the wildcard below its closest encloser
exists without the type asked for and without an alias. -/
def verifyWildcardNoData (question : Question) (records : List ρ) : Except DenialError Unit := do
  let _ ← commonZone records
  let encloser ← requireEncloser question.name records
  ensure (encloser.closest ≠ question.name) .mismatch
  let _ ← findCoverer encloser.nextCloser records
  let wildcard ← valueOr .missingCoverage encloser.closest.wildcardChild?
  let types ← findMatching wildcard records
  ensure (¬ answers types question.type) .typeExists

end HashedDenial
