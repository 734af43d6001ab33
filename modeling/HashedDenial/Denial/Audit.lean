import HashedDenial.Denial.Verify
import HashedDenial.Nsec3.Wire

/-!
# Auditing an encoded response

A question and the records that came with it are read from octets and put to every verifier. The
audit is the log of the verdicts, one entry for each proof tried.
-/
namespace HashedDenial

/-- The kinds of response that can be proved. -/
inductive ProofKind where
  | nameError
  | noData
  | delegation
  | wildcardNoData
  | wildcardAnswer (wildcard : Name)
  deriving DecidableEq

namespace ProofKind

/-- The words for a kind of proof. -/
def label : ProofKind → String
  | nameError => "name error"
  | noData => "no data"
  | delegation => "delegation"
  | wildcardNoData => "wildcard no data"
  | wildcardAnswer _ => "wildcard answer"

/-- The verdict of the verifier for a kind of proof. -/
def verify {ρ : Type} [DenialRecord ρ] [BEq ρ] (kind : ProofKind) (question : Question)
    (records : List ρ) : Except DenialError Unit :=
  match kind with
  | nameError => verifyNameError question records
  | noData => verifyNoData question records
  | delegation => verifyDelegation question.name records
  | wildcardNoData => verifyWildcardNoData question records
  | wildcardAnswer wildcard => verifyWildcardAnswer question wildcard records

/-- The proofs to try for a name. Each of its proper ancestors could be the encloser below which a
wildcard answered. -/
def all (name : Name) : List ProofKind :=
  [nameError, noData, delegation, wildcardNoData] ++
    name.suffixes.tail.filterMap fun ancestor => ancestor.wildcardChild?.map wildcardAnswer

end ProofKind

/-! ## The log -/

/-- How much an entry of the log matters: accepted proofs are only traced. -/
inductive LogLevel where
  | trace
  | debug
  deriving DecidableEq, Repr

/-- A line of the log. -/
structure LogEntry where
  level : LogLevel
  text : String
  deriving DecidableEq, Repr

/-- The entry for a verdict. -/
def LogEntry.ofVerdict (kind : ProofKind) (name : Name) (verdict : Except DenialError Unit) :
    LogEntry :=
  let subject := "NSEC3 " ++ kind.label ++ " proof for " ++ toString name
  match verdict with
  | .ok () => ⟨.trace, subject ++ " is valid"⟩
  | .error failure => ⟨.debug, subject ++ " rejected: " ++ failure.message⟩

/-- Reads a name, a type and records up to the end of the input. -/
def readResponse? (input : Octets) : Option (Question × List Nsec3) := do
  let (name, input) ← Name.read? input
  let (type, input) ← Octets.readNumber? 2 input
  let records ← Nsec3.readStream? input
  some (⟨name, UInt16.ofNat type⟩, records)

/-- The verdicts of all verifiers on an encoded response; input that is none logs nothing. -/
def audit (input : Octets) : List LogEntry :=
  match readResponse? input with
  | none => []
  | some (question, records) =>
    (ProofKind.all question.name).map fun kind =>
      LogEntry.ofVerdict kind question.name (kind.verify question records)

end HashedDenial
