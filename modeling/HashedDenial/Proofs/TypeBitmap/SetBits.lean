import HashedDenial.Proofs.TypeBitmap

/-!
# Bits of a type bitmap

Bit `j` of octet `i` in the block of window `w` stands for type `256 * w + 8 * i + j`. What is read
from a bitmap are the types whose bits are set, so two bitmaps are read alike exactly if they set
the same bits, however many zero octets stand in them.
-/
namespace HashedDenial.TypeBitmap

variable {type : RRType} {block : Block} {blocks others : List Block} {window : UInt8}
  {index bit : Nat}

/-- Whether a bit of an octet is set in the block of a window. The first bit of an octet is the most
significant one. -/
def SetsBit (blocks : List Block) (window : UInt8) (index bit : Nat) : Prop :=
  bit < 8 ∧ ∃ block ∈ blocks, block.window = window ∧
    ∃ octet, block.octets[index]? = some octet ∧ octet.toNat.testBit (7 - bit) = true

/-- The number of the type that a bit stands for. -/
def code (window : UInt8) (index bit : Nat) : Nat := 256 * window.toNat + 8 * index + bit

namespace IsBitmap

theorem index_lt (bitmap : IsBitmap blocks) (set : SetsBit blocks window index bit) :
    index < 32 := by
  obtain ⟨_, block, member, _, octet, listed, _⟩ := set
  obtain ⟨within, _⟩ := List.getElem?_eq_some_iff.mp listed
  exact Nat.lt_of_lt_of_le within (bitmap.sized block member).2

/-- The types of a bitmap are those whose bits it sets. -/
theorem mem_types_iff_setsBit (bitmap : IsBitmap blocks) : type ∈ blocks.flatMap Block.types ↔
    ∃ window index bit, SetsBit blocks window index bit ∧ type.toNat = code window index bit := by
  rw [bitmap.mem_types_iff]
  constructor
  · rintro ⟨block, member, windows, stored⟩
    -- the position of the type is cut into that of the octet and that of the bit in it
    have small : position type % 8 < 8 := Nat.mod_lt _ (by decide)
    rw [← Nat.div_add_mod (position type) 8, Octets.getElem?_toBits _ _ small,
      Option.map_eq_some_iff] at stored
    obtain ⟨octet, listed, set⟩ := stored
    refine ⟨block.window, position type / 8, position type % 8,
      ⟨small, block, member, rfl, octet, listed, set⟩, ?_⟩
    rw [code, ← windows, TypeBitmap.window, position]
    omega
  · rintro ⟨_, index, bit, set, number⟩
    have short := bitmap.index_lt set
    obtain ⟨small, block, member, rfl, octet, listed, set⟩ := set
    rw [code] at number
    have place : position type = 8 * index + bit := by
      rw [position]
      omega
    refine ⟨block, member, ?_, ?_⟩
    · rw [TypeBitmap.window]
      omega
    · rw [place, Octets.getElem?_toBits _ _ small, listed, Option.map_some, set]

/-- A bit is set exactly if the type that it stands for is in the bitmap. -/
theorem setsBit_iff (bitmap : IsBitmap blocks) : SetsBit blocks window index bit ↔
    index < 32 ∧ bit < 8 ∧ UInt16.ofNat (code window index bit) ∈ blocks.flatMap Block.types := by
  have number (short : index < 32) (small : bit < 8) :
      (UInt16.ofNat (code window index bit)).toNat = code window index bit := by
    have below := window.toNat_lt
    rw [UInt16.toNat_ofNat', code]
    omega
  rw [bitmap.mem_types_iff_setsBit]
  constructor
  · intro set
    have short := bitmap.index_lt set
    exact ⟨short, set.1, window, index, bit, set, number short set.1⟩
  · rintro ⟨short, small, window', index', bit', set, same⟩
    -- a type is the type of one bit only
    have short' := bitmap.index_lt set
    have small' := set.1
    rw [number short small, code, code] at same
    have windows : window = window' := UInt8.toNat_inj.mp (by omega)
    obtain ⟨rfl, rfl⟩ : index = index' ∧ bit = bit' := by omega
    rw [windows]
    exact set

theorem types_eq_iff_setsBit (bitmap : IsBitmap blocks) (bitmap' : IsBitmap others) :
    blocks.flatMap Block.types = others.flatMap Block.types ↔
      ∀ window index bit, SetsBit blocks window index bit ↔ SetsBit others window index bit := by
  constructor
  · intro same window index bit
    rw [bitmap.setsBit_iff, bitmap'.setsBit_iff, same]
  · intro same
    apply bitmap.pairwise_types.eq_of_mem_iff bitmap'.pairwise_types
    intro type
    rw [bitmap.mem_types_iff_setsBit, bitmap'.mem_types_iff_setsBit]
    simp only [same]

end IsBitmap

/-- An input is read exactly if it is a sequence of blocks in the order of their windows. The result
is the increasing list of the types whose bits are set, and depends on these bits alone. -/
theorem read?_exact (input : Octets) :
    ((read? input).isSome ↔ ∃ blocks, IsBitmap blocks ∧ input = blocks.flatMap Block.wire) ∧
      ∀ blocks, IsBitmap blocks → input = blocks.flatMap Block.wire →
        (∃ types, read? input = some types ∧ types.Pairwise (· < ·) ∧
          ∀ type, type ∈ types ↔ ∃ window index bit,
            SetsBit blocks window index bit ∧ type.toNat = code window index bit) ∧
        ∀ others, IsBitmap others → (read? (others.flatMap Block.wire) = read? input ↔
          ∀ window index bit,
            SetsBit others window index bit ↔ SetsBit blocks window index bit) := by
  constructor
  · rw [Option.isSome_iff_exists]
    constructor
    · rintro ⟨types, returned⟩
      obtain ⟨blocks, bitmap, spelled, _⟩ := read?_eq_some_iff.mp returned
      exact ⟨blocks, bitmap, spelled⟩
    · rintro ⟨blocks, bitmap, rfl⟩
      exact ⟨_, bitmap.read?_wire⟩
  · rintro blocks bitmap rfl
    constructor
    · exact ⟨_, bitmap.read?_wire, bitmap.pairwise_types, fun _ => bitmap.mem_types_iff_setsBit⟩
    · intro others bitmap'
      rw [bitmap.read?_wire, bitmap'.read?_wire, Option.some_inj,
        bitmap'.types_eq_iff_setsBit bitmap]

end HashedDenial.TypeBitmap

namespace HashedDenial

namespace Sample

/-- The block that holds type 1. -/
def plainBlock : TypeBitmap.Block := ⟨0, [0x40]⟩

/-- The same block with a zero octet at its end. -/
def paddedBlock : TypeBitmap.Block := ⟨0, [0x40, 0x00]⟩

theorem isBitmap_plainBlock : TypeBitmap.IsBitmap [plainBlock] := ⟨by decide, by decide⟩

theorem isBitmap_paddedBlock : TypeBitmap.IsBitmap [paddedBlock] := ⟨by decide, by decide⟩

theorem setsBit_paddedBlock (window : UInt8) (index bit : Nat) :
    TypeBitmap.SetsBit [paddedBlock] window index bit ↔
      TypeBitmap.SetsBit [plainBlock] window index bit :=
  (isBitmap_paddedBlock.types_eq_iff_setsBit isBitmap_plainBlock).mp (by decide) window index bit

end Sample

/-- A zero octet at the end of a block is not seen. -/
theorem TypeBitmap.read?_exact_padded :
    (∃ types, read? [0, 1, 0x40] = some types ∧ 1 ∈ types) ∧
      read? [0, 2, 0x40, 0x00] = read? [0, 1, 0x40] := by
  obtain ⟨_, described⟩ := read?_exact [0, 1, 0x40]
  obtain ⟨⟨types, returned, _, mem_iff⟩, same_iff⟩ := described _ Sample.isBitmap_plainBlock rfl
  constructor
  · refine ⟨types, returned, (mem_iff 1).mpr ⟨0, 0, 1, ?_, rfl⟩⟩
    exact ⟨by decide, _, List.mem_singleton_self _, rfl, 0x40, rfl, by decide⟩
  · exact (same_iff _ Sample.isBitmap_paddedBlock).mpr Sample.setsBit_paddedBlock

end HashedDenial
