import HashedDenial.Proofs.Denial.Content

/-!
# Records without hashes

A plain record stands at a name and covers a list of names, all of them given openly. Such records
are faithful to a finite zone if each of them agrees with the entries of the zone, which can be
checked, so they serve to show that the conditions of the theory can be met.
-/
namespace HashedDenial

/-- A record that names what it matches and what it covers. -/
structure PlainRecord where
  zone : Octets
  owner : Option Name
  covered : List Name
  types : List RRType
  optOut : Bool
  deriving DecidableEq

namespace PlainRecord

instance : DenialRecord PlainRecord where
  matchesName record name := record.owner.any fun owner => owner.canonical = name.canonical
  coversName record name := record.covered.any fun covered => covered.canonical = name.canonical
  types := types
  optOut := optOut
  zone := zone

/-- A record that only matches. -/
def matching (zone : Name) (owner : Name) (types : List RRType) : PlainRecord :=
  ⟨zone.text, some owner, [], types, false⟩

/-- A record that only covers. -/
def covering (zone : Name) (covered : List Name) : PlainRecord :=
  ⟨zone.text, none, covered, [], false⟩

variable {zone : Octets} {entries : List ZoneEntry} {records : List PlainRecord} {inZone closed}

theorem faithful_ofEntries
    (zones : ∀ record ∈ records, Octets.lower record.zone = Octets.lower zone)
    (owners : ∀ record ∈ records, ∀ owner ∈ record.owner,
      (∃ entry ∈ entries, entry.name.canonical = owner.canonical) ∧
        record.types = typesAt entries owner)
    (gaps : ∀ record ∈ records, ∀ covered ∈ record.covered, ∀ entry ∈ entries,
      entry.name.canonical ≠ covered.canonical) :
    Faithful (ZoneContent.ofEntries zone entries inZone closed) records := by
  have owned {record : PlainRecord} {name : Name}
      (matched : DenialRecord.matchesName record name = true) :
      ∃ owner ∈ record.owner, owner.canonical = name.canonical := by
    obtain ⟨owner, held, same⟩ := (Option.any_eq_true _ _).mp matched
    exact ⟨owner, held, of_decide_eq_true same⟩
  refine ⟨⟨zones, ?_, ?_⟩, ?_⟩
  · intro record member name matched
    obtain ⟨owner, held, same⟩ := owned matched
    obtain ⟨entry, listed, lowered⟩ := (owners record member owner held).1
    exact ZoneContent.mem_ofEntries_iff.mpr ⟨entry, listed, lowered.trans same⟩
  · intro record member name covered present
    obtain ⟨denied, listed, same⟩ := List.any_eq_true.mp covered
    obtain ⟨entry, inEntries, lowered⟩ := ZoneContent.mem_ofEntries_iff.mp present
    exact gaps record member denied listed entry inEntries
      (lowered.trans (of_decide_eq_true same).symm)
  · intro record member name matched
    obtain ⟨owner, held, same⟩ := owned matched
    have listed := (owners record member owner held).2
    have spelled := ZoneContent.types_caseless
      (ZoneContent.ofEntries zone entries inZone closed) owner name same
    exact listed.trans spelled

end PlainRecord

/-! ## Small zones -/

namespace Sample

/-- The zone `e.` -/
def apex : Name := ⟨[⟨[0x65], by decide⟩], by decide⟩

/-- The name `h.e.` -/
def host : Name := ⟨⟨[0x68], by decide⟩ :: apex.labels, by decide⟩

/-- The name `n.e.`, which exists in none of the zones below. -/
def missing : Name := ⟨⟨[0x6e], by decide⟩ :: apex.labels, by decide⟩

/-- The name `h.n.e.` -/
def belowMissing : Name := ⟨⟨[0x68], by decide⟩ :: missing.labels, by decide⟩

/-- The wildcard `*.e.` -/
def wildcard : Name := ⟨Label.asterisk :: apex.labels, by decide⟩

/-- The wildcard `*.E.`, another spelling. -/
def capitalWildcard : Name := ⟨[Label.asterisk, ⟨[0x45], by decide⟩], by decide⟩

/-- The name `E.`, another spelling of `e.` -/
def capitalApex : Name := ⟨capitalWildcard.labels.tail, by decide⟩

def hostContent : ZoneContent apex.text :=
  .ofEntries apex.text [⟨apex, [RRType.soa], 0⟩, ⟨host, [RRType.ns], 0⟩]
    (by decide) (by decide)

/-- Records that show the apex and that there is no wildcard below it. -/
def hostRecords : List PlainRecord :=
  [.matching apex apex [RRType.soa], .covering apex [wildcard]]

theorem faithful_hostRecords : Faithful hostContent hostRecords :=
  PlainRecord.faithful_ofEntries (by decide) (by decide) (by decide)

def wildcardContent : ZoneContent apex.text :=
  .ofEntries apex.text [⟨apex, [RRType.soa], 0⟩, ⟨wildcard, [RRType.ns], 0⟩]
    (by decide) (by decide)

/-- Records that show the apex with its wildcard and that a name next to it is missing. -/
def wildcardRecords : List PlainRecord :=
  [.matching apex apex [RRType.soa], .covering apex [missing], .matching apex wildcard [RRType.ns]]

theorem faithful_wildcardRecords : Faithful wildcardContent wildcardRecords :=
  PlainRecord.faithful_ofEntries (by decide) (by decide) (by decide)

end Sample

end HashedDenial
