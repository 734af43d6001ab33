import HashedDenial.Octets
import HashedDenial.Octets.Field

/-!
# SHA-1

The message is padded to blocks of 64 octets, and each block is mixed into five words of state by
eighty rounds.
-/
namespace HashedDenial.Sha1

open Octets

/-- The five words that are carried from block to block. -/
structure State where
  a : UInt32
  b : UInt32
  c : UInt32
  d : UInt32
  e : UInt32
  deriving DecidableEq

/-- The state before the first block. -/
def initial : State := ⟨0x67452301, 0xefcdab89, 0x98badcfe, 0x10325476, 0xc3d2e1f0⟩

/-- Rotates a word to the left by fewer than 32 bits. -/
def rotateLeft (word amount : UInt32) : UInt32 :=
  (word <<< amount) ||| (word >>> (32 - amount))

/-- The mixing function of three words in a round. -/
def mix (index : Nat) (b c d : UInt32) : UInt32 :=
  if index < 20 then (b &&& c) ||| (~~~b &&& d)
  else if index < 40 then b ^^^ c ^^^ d
  else if index < 60 then (b &&& c) ||| (b &&& d) ||| (c &&& d)
  else b ^^^ c ^^^ d

/-- The constant that is added in a round. -/
def constant (index : Nat) : UInt32 :=
  if index < 20 then 0x5a827999
  else if index < 40 then 0x6ed9eba1
  else if index < 60 then 0x8f1bbcdc
  else 0xca62c1d6

/-- One round with its word of the schedule. -/
def round (index : Nat) (word : UInt32) (state : State) : State where
  a := rotateLeft state.a 5 + mix index state.b state.c state.d + state.e + constant index + word
  b := state.a
  c := rotateLeft state.b 30
  d := state.c
  e := state.d

/-- The word after those scheduled so far. -/
def nextWord (words : Array UInt32) : UInt32 :=
  let back (distance : Nat) := words.getD (words.size - distance) 0
  rotateLeft (back 3 ^^^ back 8 ^^^ back 14 ^^^ back 16) 1

/-- The eighty words of a block: its own sixteen, and sixty-four that depend on earlier ones. -/
def schedule (block : Octets) : Array UInt32 :=
  let own := (chunks 4 16 block).map fun word => UInt32.ofNat (ofBigEndian word)
  Nat.repeat (fun words => words.push (nextWord words)) 64 own.toArray

/-- Mixes one block into the state. -/
def compress (state : State) (block : Octets) : State :=
  let words := schedule block
  let mixed := Nat.fold 80 (fun index _ state => round index (words.getD index 0) state) state
  ⟨state.a + mixed.a, state.b + mixed.b, state.c + mixed.c, state.d + mixed.d, state.e + mixed.e⟩

/-- The message followed by a one bit, zero bits and the number of its bits in eight octets, which
fills whole blocks. -/
def padded (message : Octets) : Octets :=
  -- nine octets are appended besides the zeros: the one that starts with a one bit, and the count
  message ++ 0x80 :: List.replicate ((119 - message.length % 64) % 64) 0 ++
    toBigEndian 8 (8 * message.length)

/-- The digest of a message. -/
def digest (message : Octets) : Octets :=
  let blocks := chunks 64 ((padded message).length / 64) (padded message)
  let state := blocks.foldl compress initial
  [state.a, state.b, state.c, state.d, state.e].flatMap fun word => toBigEndian 4 word.toNat

theorem length_digest (message : Octets) : (digest message).length = 20 := by
  simp [digest]

end HashedDenial.Sha1
