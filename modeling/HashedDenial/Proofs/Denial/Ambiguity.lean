import HashedDenial.Denial.Audit
import HashedDenial.Proofs.Denial.Completeness

/-!
# What a verdict depends on

A verifier learns of the records only their zone up to case and what the finders return for the
names that a proof may consult. A comparison that tells more records apart makes more answers
ambiguous and changes no others. No verifier recovers from an ambiguous answer, so the same holds of
the verdicts: each is either ambiguous or the one that the coarser comparison leads to. Records that
give the same answers lead to the same verdict, with the same error where they fail.
-/
namespace HashedDenial

/-! ## Verdicts up to ambiguity -/

/-- Whether a computation is ambiguous or comes out as another does. -/
def UnlessAmbiguous {α : Type} (computed other : Except DenialError α) : Prop :=
  computed = .error .multipleCoverage ∨ computed = other

namespace UnlessAmbiguous

variable {α β γ : Type} {first first' : Except DenialError α}
  {next next' : α → Except DenialError β}

theorem refl (computed : Except DenialError α) : UnlessAmbiguous computed computed := Or.inr rfl

theorem antisymm (agree : UnlessAmbiguous first first') (agree' : UnlessAmbiguous first' first) :
    first = first' := by
  rcases agree with ambiguous | same
  · rcases agree' with ambiguous' | same'
    · rw [ambiguous, ambiguous']
    · exact same'.symm
  · exact same

theorem map (agree : UnlessAmbiguous first first') (f : α → β) :
    UnlessAmbiguous (first.map f) (first'.map f) := by
  rcases agree with rfl | rfl
  · exact Or.inl rfl
  · exact refl _

/-- Ambiguity of the first step is that of the whole. -/
theorem bind (agree : UnlessAmbiguous first first')
    (agrees : ∀ value, first = .ok value → UnlessAmbiguous (next value) (next' value)) :
    UnlessAmbiguous (first >>= next) (first' >>= next') := by
  rcases agree with rfl | rfl
  · exact Or.inl rfl
  · cases first with
    | error failure => exact refl _
    | ok value => exact agrees value rfl

theorem bind_of_map_eq {f : α → γ} (same : first.map f = first'.map f)
    (agrees : ∀ value value', f value = f value' → UnlessAmbiguous (next value) (next' value')) :
    UnlessAmbiguous (first >>= next) (first' >>= next') := by
  cases first <;> cases first' <;> simp only [Except.map, reduceCtorEq] at same
  · cases same
    exact refl _
  · exact agrees _ _ (Except.ok.inj same)

theorem forM {step step' : α → Except DenialError Unit} {items : List α}
    (agrees : ∀ item ∈ items, UnlessAmbiguous (step item) (step' item)) :
    UnlessAmbiguous (items.forM step) (items.forM step') := by
  induction items with
  | nil => exact refl _
  | cons item items ih =>
    obtain ⟨here, later⟩ := List.forall_mem_cons.mp agrees
    exact here.bind fun _ _ => ih later

end UnlessAmbiguous

variable {ρ : Type} [DenialRecord ρ] [BEq ρ] {left right : List ρ} {name before : Name}
  {names : List Name} {question : Question}

theorem UnlessAmbiguous.firstMatched
    (agrees : ∀ name ∈ names, UnlessAmbiguous (findMatching name left) (findMatching name right)) :
    UnlessAmbiguous (firstMatched left before names) (firstMatched right before names) := by
  induction names generalizing before with
  | nil => exact .refl _
  | cons name names ih =>
    obtain ⟨here, later⟩ := List.forall_mem_cons.mp agrees
    rw [HashedDenial.firstMatched, HashedDenial.firstMatched]
    rcases here with ambiguous | same
    · rw [ambiguous]
      exact Or.inl rfl
    · rw [same]
      split
      · exact .refl _
      · exact ih later
      · exact .refl _

/-- Whether two record lists are of one zone up to case, or fail alike to be of one, and each answer
of a finder from the first, about a name that a proof about `name` may consult, is ambiguous or the
one from the second. -/
structure AnswersUnlessAmbiguous (left right : List ρ) (name : Name) : Prop where
  zone : (commonZone left).map Octets.lower = (commonZone right).map Octets.lower
  matching : ∀ other, Consults name other →
    UnlessAmbiguous (findMatching other left) (findMatching other right)
  covering : ∀ other, Consults name other →
    UnlessAmbiguous (findCoverer other left) (findCoverer other right)

namespace AnswersUnlessAmbiguous

section Name

variable (agree : AnswersUnlessAmbiguous left right name)

include agree

theorem findClosestEncloser :
    UnlessAmbiguous (findClosestEncloser name left) (findClosestEncloser name right) :=
  .firstMatched fun other member => agree.matching other (Or.inl member)

theorem requireEncloser :
    UnlessAmbiguous (requireEncloser name left) (requireEncloser name right) :=
  agree.findClosestEncloser.bind fun _ _ => .refl _

theorem ensureUnmatched {other : Name} (consulted : Consults name other) :
    UnlessAmbiguous (ensureUnmatched other left) (ensureUnmatched other right) := by
  rw [HashedDenial.ensureUnmatched, HashedDenial.ensureUnmatched]
  rcases agree.matching other consulted with ambiguous | same
  · rw [ambiguous]
    exact Or.inl rfl
  · rw [same]
    exact .refl _

theorem verifyOptOut : UnlessAmbiguous (verifyOptOut name left) (verifyOptOut name right) := by
  refine agree.requireEncloser.bind fun encloser found => ?_
  have encloses := requireEncloser_eq_ok_iff.mp found
  exact (agree.covering _ (Or.inl encloses.nextCloser_mem)).bind fun _ _ => .refl _

theorem verdictAt {recorded : List RRType → Except DenialError Unit}
    {unrecorded unrecorded' : Except DenialError Unit}
    (agrees : UnlessAmbiguous unrecorded unrecorded') :
    UnlessAmbiguous (verdictAt name left recorded unrecorded)
      (verdictAt name right recorded unrecorded') := by
  refine .bind_of_map_eq agree.zone fun _ _ _ => ?_
  rcases agree.matching name (Or.inl (Name.self_mem_suffixes name)) with ambiguous | same
  · rw [ambiguous]
    exact Or.inl rfl
  · rw [same]
    split
    · exact .refl _
    · exact agrees
    · exact .refl _

theorem verifyDelegation :
    UnlessAmbiguous (verifyDelegation name left) (verifyDelegation name right) := by
  rw [verifyDelegation_eq_verdictAt, verifyDelegation_eq_verdictAt]
  exact agree.verdictAt agree.verifyOptOut

end Name

variable (agree : AnswersUnlessAmbiguous left right question.name)

include agree

theorem verifyNoData :
    UnlessAmbiguous (verifyNoData question left) (verifyNoData question right) := by
  rw [verifyNoData_eq_verdictAt, verifyNoData_eq_verdictAt]
  apply agree.verdictAt
  split
  · exact agree.verifyOptOut
  · exact .refl _

theorem verifyNameError :
    UnlessAmbiguous (verifyNameError question left) (verifyNameError question right) := by
  refine .bind_of_map_eq agree.zone fun _ _ _ => ?_
  refine agree.requireEncloser.bind fun encloser found => ?_
  -- the checks between the finders do not look at the records
  refine (UnlessAmbiguous.refl _).bind fun _ _ => ?_
  refine (UnlessAmbiguous.refl _).bind fun wildcard built => ?_
  have encloses := requireEncloser_eq_ok_iff.mp found
  have below := (valueOr_eq_ok_iff _ _ _).mp built
  have consulted : Consults question.name wildcard :=
    Or.inr ⟨encloser.closest, encloses.closest_mem, below⟩
  exact (agree.covering wildcard consulted).bind fun _ _ => .refl _

theorem verifyWildcardNoData :
    UnlessAmbiguous (verifyWildcardNoData question left) (verifyWildcardNoData question right) := by
  refine .bind_of_map_eq agree.zone fun _ _ _ => ?_
  refine agree.requireEncloser.bind fun encloser found => ?_
  refine (UnlessAmbiguous.refl _).bind fun _ _ => ?_
  have encloses := requireEncloser_eq_ok_iff.mp found
  refine (agree.covering _ (Or.inl encloses.nextCloser_mem)).bind fun _ _ => ?_
  refine (UnlessAmbiguous.refl _).bind fun wildcard built => ?_
  have below := (valueOr_eq_ok_iff _ _ _).mp built
  have consulted : Consults question.name wildcard :=
    Or.inr ⟨encloser.closest, encloses.closest_mem, below⟩
  exact (agree.matching wildcard consulted).bind fun _ _ => .refl _

theorem verifyWildcardAnswer (wildcard : Name) :
    UnlessAmbiguous (verifyWildcardAnswer question wildcard left)
      (verifyWildcardAnswer question wildcard right) := by
  refine .bind_of_map_eq agree.zone fun common common' spelled => ?_
  refine (UnlessAmbiguous.refl _).bind fun _ _ => ?_
  refine (UnlessAmbiguous.refl _).bind fun encloser _ => ?_
  -- the zones may differ in case, which membership in a zone does not see
  rw [Name.inZone_congr rfl spelled]
  refine (UnlessAmbiguous.refl _).bind fun _ _ => ?_
  have closer (other : Name) (taken : other ∈ question.name.suffixes.take
      (question.name.labelCount - encloser.labelCount)) : Consults question.name other :=
    Or.inl (List.mem_of_mem_take taken)
  refine (UnlessAmbiguous.forM fun other taken =>
    agree.ensureUnmatched (closer other taken)).bind fun _ _ => ?_
  refine (UnlessAmbiguous.refl _).bind fun nextCloser last => ?_
  have taken := List.mem_of_getLast? ((valueOr_eq_ok_iff _ _ _).mp last)
  exact (agree.covering nextCloser (closer nextCloser taken)).bind fun _ _ => .refl _

/-- Every verdict is ambiguous or the other one. -/
theorem verify (kind : ProofKind) :
    UnlessAmbiguous (kind.verify question left) (kind.verify question right) := by
  cases kind with
  | nameError => exact agree.verifyNameError
  | noData => exact agree.verifyNoData
  | delegation => exact agree.verifyDelegation
  | wildcardNoData => exact agree.verifyWildcardNoData
  | wildcardAnswer wildcard => exact agree.verifyWildcardAnswer wildcard

end AnswersUnlessAmbiguous

/-! ## Equal verdicts -/

/-- Whether two record lists are of one zone up to case, or fail alike to be of one, and answer the
finders alike about each name that a proof about `name` may consult. -/
structure SameAnswers (left right : List ρ) (name : Name) : Prop where
  zone : (commonZone left).map Octets.lower = (commonZone right).map Octets.lower
  matching : ∀ other, Consults name other → findMatching other left = findMatching other right
  covering : ∀ other, Consults name other → findCoverer other left = findCoverer other right

namespace SameAnswers

theorem symm (same : SameAnswers left right name) : SameAnswers right left name where
  zone := same.zone.symm
  matching other consulted := (same.matching other consulted).symm
  covering other consulted := (same.covering other consulted).symm

theorem answersUnlessAmbiguous (same : SameAnswers left right name) :
    AnswersUnlessAmbiguous left right name where
  zone := same.zone
  matching other consulted := Or.inr (same.matching other consulted)
  covering other consulted := Or.inr (same.covering other consulted)

/-! Neither of two equal answers is ambiguous alone, and so neither of what they lead to is. -/

theorem findClosestEncloser_eq (same : SameAnswers left right name) :
    findClosestEncloser name left = findClosestEncloser name right :=
  same.answersUnlessAmbiguous.findClosestEncloser.antisymm
    same.symm.answersUnlessAmbiguous.findClosestEncloser

theorem verify_eq (same : SameAnswers left right question.name) (kind : ProofKind) :
    kind.verify question left = kind.verify question right :=
  (same.answersUnlessAmbiguous.verify kind).antisymm (same.symm.answersUnlessAmbiguous.verify kind)

end SameAnswers

end HashedDenial
