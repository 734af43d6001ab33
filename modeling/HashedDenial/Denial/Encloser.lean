import HashedDenial.Denial.Basic

/-!
# Finding records and the closest encloser

The closest encloser of a name is its longest suffix that a record matches, and the next closer name
is the suffix one label longer. Where records speak about the same name they have to agree.
-/
namespace HashedDenial

open DenialRecord

variable {ρ : Type} [DenialRecord ρ] [BEq ρ]

/-- The one record that meets a condition. Repetitions of it do not count. -/
def soleRecord (condition : ρ → Bool) (records : List ρ) : Except DenialError ρ :=
  match records.filter condition with
  | [] => .error .missingCoverage
  | first :: others => if others.any (· != first) then .error .multipleCoverage else .ok first

/-- The types at a name that some record matches. -/
def findMatching (name : Name) (records : List ρ) : Except DenialError (List RRType) :=
  (soleRecord (matchesName · name) records).map types

/-- A record that covers a name: the types it lists and whether it is an opt-out record. -/
structure Coverage where
  types : List RRType
  optOut : Bool
  deriving DecidableEq, Repr

/-- What is known from the record that covers a name. -/
def findCoverer (name : Name) (records : List ρ) : Except DenialError Coverage :=
  (soleRecord (coversName · name) records).map fun record => ⟨types record, optOut record⟩

/-- The closest encloser of a name and the next closer name. The two are equal if the name itself
is matched. -/
structure Encloser where
  closest : Name
  nextCloser : Name
  deriving DecidableEq

/-- The first of some names that is matched, together with the name before it. Records that
disagree about a name end the search. -/
def firstMatched (records : List ρ) (before : Name) : List Name →
    Except DenialError (Option Encloser)
  | [] => .ok none
  | name :: names =>
    match findMatching name records with
    | .ok _ => .ok (some ⟨name, before⟩)
    | .error .missingCoverage => firstMatched records name names
    | .error failure => .error failure

/-- The closest encloser of a name, if any suffix of the name is matched. -/
def findClosestEncloser (name : Name) (records : List ρ) : Except DenialError (Option Encloser) :=
  firstMatched records name name.suffixes

/-- The closest encloser of a name, whose absence is a failure. -/
def requireEncloser (name : Name) (records : List ρ) : Except DenialError Encloser := do
  let encloser? ← findClosestEncloser name records
  valueOr .missingCoverage encloser?

end HashedDenial
