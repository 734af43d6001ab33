import HashedDenial.Octets

/-!
# Resource record types and their bitmaps

A type is its 16-bit code. The 65536 types are divided into 256 windows of 256. A bitmap is a
sequence of blocks, each with the number of its window, a count of 1 to 32 octets and that many
octets of bits; bit `k` of the block for window `w`, the most significant bit of an octet first,
stands for type `256 * w + k`.
-/
namespace HashedDenial

/-- The code of a resource record type. -/
abbrev RRType := UInt16

/-! ## The types that a denial of existence depends on -/

namespace RRType

/-- A name server of a zone. -/
def ns : RRType := 2

/-- A canonical name that the owner is an alias of. -/
def cname : RRType := 5

/-- The start of a zone of authority. -/
def soa : RRType := 6

/-- A delegation signer, present where the delegated zone is signed. -/
def ds : RRType := 43

/-- A hashed authenticated denial of existence. -/
def nsec3 : RRType := 50

end RRType

namespace TypeBitmap

/-! ## Blocks -/

structure Block where
  window : UInt8
  octets : Octets
  deriving DecidableEq, Repr

namespace Block

/-- The types whose bits are set, in increasing order. -/
def types (block : Block) : List RRType :=
  block.octets.toBits.zipIdx.filterMap fun (bit, position) =>
    if bit then some (UInt16.ofNat (256 * block.window.toNat + position)) else none

def wire (block : Block) : Octets :=
  block.window :: UInt8.ofNat block.octets.length :: block.octets

end Block

/-! ## Reading -/

/-- Splits the whole input into blocks. -/
def readBlocks? : Octets → Option (List Block)
  | [] => some []
  | [_] => none
  | window :: length :: input =>
    if 1 ≤ length ∧ length ≤ 32 ∧ length.toNat ≤ input.length then
      (readBlocks? (input.drop length.toNat)).map (⟨window, input.take length.toNat⟩ :: ·)
    else none
termination_by input => input.length
decreasing_by exact Nat.lt_succ_of_lt (Nat.lt_succ_of_le (List.length_drop ▸ Nat.sub_le _ _))

/-- Reads the types of a bitmap that fills the input. Each window must be above the one before it,
so the types come out in increasing order. -/
def read? (input : Octets) : Option (List RRType) := do
  let blocks ← readBlocks? input
  if (blocks.map Block.window).Pairwise (· < ·) then some (blocks.flatMap Block.types) else none

/-! ## Writing -/

def window (type : RRType) : Nat := type.toNat / 256

def position (type : RRType) : Nat := type.toNat % 256

def blockOf? (run : List RRType) : Option Block := do
  -- The block ends with the octet of the last type listed, which for types in increasing order is
  -- the last octet that is not zero.
  let last ← run.getLast?
  let positions := run.map position
  let bits := (List.range (8 * (position last / 8 + 1))).map fun k => positions.contains k
  some ⟨UInt8.ofNat (window last), Octets.ofBits bits⟩

/-- The blocks of a type list, one for each run of types of one window. -/
def blocksOf (types : List RRType) : List Block :=
  (types.splitBy fun left right => window left == window right).filterMap blockOf?

/-- The bitmap of a list of types in increasing order. -/
def write (types : List RRType) : Octets := (blocksOf types).flatMap Block.wire

end TypeBitmap

end HashedDenial
