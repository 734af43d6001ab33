import HashedDenial.Base32Hex
import HashedDenial.Denial.Audit
import HashedDenial.Denial.Basic
import HashedDenial.Denial.Encloser
import HashedDenial.Denial.Verify
import HashedDenial.HashParams
import HashedDenial.Name.Basic
import HashedDenial.Name.Wire
import HashedDenial.Nsec3.Basic
import HashedDenial.Nsec3.Wire
import HashedDenial.Octets
import HashedDenial.Octets.Field
import HashedDenial.Proofs.Base32Hex
import HashedDenial.Proofs.Base32Hex.Accumulator
import HashedDenial.Proofs.Base32Hex.Order
import HashedDenial.Proofs.Denial.Agreement
import HashedDenial.Proofs.Denial.Ambiguity
import HashedDenial.Proofs.Denial.Audit
import HashedDenial.Proofs.Denial.Completeness
import HashedDenial.Proofs.Denial.Content
import HashedDenial.Proofs.Denial.EncloserSearch
import HashedDenial.Proofs.Denial.Exclusion
import HashedDenial.Proofs.Denial.Fallbacks
import HashedDenial.Proofs.Denial.Finders
import HashedDenial.Proofs.Denial.Mismatch
import HashedDenial.Proofs.Denial.NameError
import HashedDenial.Proofs.Denial.OptOut
import HashedDenial.Proofs.Denial.OptOutFlag
import HashedDenial.Proofs.Denial.Outside
import HashedDenial.Proofs.Denial.OwnerCase
import HashedDenial.Proofs.Denial.PlainRecord
import HashedDenial.Proofs.Denial.QuestionCase
import HashedDenial.Proofs.Denial.RecordSets
import HashedDenial.Proofs.Denial.Relevance
import HashedDenial.Proofs.Denial.Soundness
import HashedDenial.Proofs.Denial.UnsignedDelegation
import HashedDenial.Proofs.Denial.Verdicts
import HashedDenial.Proofs.Denial.ZoneCut
import HashedDenial.Proofs.HashParams
import HashedDenial.Proofs.Name.Case
import HashedDenial.Proofs.Name.Offsets
import HashedDenial.Proofs.Name.Positions
import HashedDenial.Proofs.Name.RoundTrip
import HashedDenial.Proofs.Name.Suffixes
import HashedDenial.Proofs.Name.Text
import HashedDenial.Proofs.Name.Validity
import HashedDenial.Proofs.Name.Walk
import HashedDenial.Proofs.Name.Wire
import HashedDenial.Proofs.Name.WireText
import HashedDenial.Proofs.Name.Zone
import HashedDenial.Proofs.Nsec3.Chain
import HashedDenial.Proofs.Nsec3.HashedOwner
import HashedDenial.Proofs.Nsec3.Order
import HashedDenial.Proofs.Nsec3.Partition
import HashedDenial.Proofs.Nsec3.Ring
import HashedDenial.Proofs.Nsec3.Stream
import HashedDenial.Proofs.Nsec3.Wire
import HashedDenial.Proofs.Nsec3.WireForm
import HashedDenial.Proofs.Nsec3.WriteAll
import HashedDenial.Proofs.Octets.Ascii
import HashedDenial.Proofs.TypeBitmap
import HashedDenial.Proofs.TypeBitmap.SetBits
import HashedDenial.Proofs.TypeBitmap.Trimmed
import HashedDenial.Proofs.TypeBitmap.Unsorted
import HashedDenial.Sha1
import HashedDenial.TypeBitmap
