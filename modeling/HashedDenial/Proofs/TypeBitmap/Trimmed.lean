import HashedDenial.Proofs.TypeBitmap
import Mathlib.Data.List.DropRight

/-!
# Trimmed bitmaps

Zero octets at the end of a block hold no types, so one list of types has many bitmaps. Exactly one
of them has no block that ends in a zero octet, and the writer makes that one: written again, a
bitmap loses the zero octets at the end of its blocks and the blocks that hold nothing else.
-/
namespace HashedDenial.TypeBitmap

variable {run : List RRType} {block other : Block} {blocks others : List Block}

/-! ## Zero octets -/

theorem true_mem_bits_iff {octet : UInt8} : true ∈ Bits.ofNat 8 octet.toNat ↔ octet ≠ 0 := by
  rw [Bits.true_mem_ofNat_iff octet.toNat_lt, ne_eq, ne_eq, ← UInt8.toNat_inj]
  rfl

theorem true_notMem_toBits {octets : Octets} (zero : ∀ octet ∈ octets, octet = 0) :
    true ∉ octets.toBits := by
  intro set
  obtain ⟨octet, member, inOctet⟩ := List.mem_flatMap.mp set
  exact true_mem_bits_iff.mp inOctet (zero octet member)

namespace Block

/-- Whether the block does not end in a zero octet. -/
def IsTrimmed (block : Block) : Prop := block.octets.getLast? ≠ some 0

instance (block : Block) : Decidable block.IsTrimmed := inferInstanceAs (Decidable (_ ≠ _))

/-- The block without the zero octets at its end. Nothing is left of a block of zero octets. -/
def trimmed? (block : Block) : Option Block :=
  match block.octets.rdropWhile (· == 0) with
  | [] => none
  | octet :: octets => some ⟨block.window, octet :: octets⟩

theorem trimmed?_eq_some_iff : block.trimmed? = some other ↔
    other.octets ≠ [] ∧ other = ⟨block.window, block.octets.rdropWhile (· == 0)⟩ := by
  rw [trimmed?]
  cases block.octets.rdropWhile (· == 0) with
  | nil =>
    constructor
    · intro impossible
      cases impossible
    · rintro ⟨nonempty, rfl⟩
      exact absurd rfl nonempty
  | cons octet octets =>
    constructor
    · intro kept
      cases kept
      exact ⟨List.cons_ne_nil octet octets, rfl⟩
    · rintro ⟨_, rfl⟩
      rfl

theorem isTrimmed_of_trimmed? (trimmed : block.trimmed? = some other) : other.IsTrimmed := by
  obtain ⟨nonempty, rfl⟩ := trimmed?_eq_some_iff.mp trimmed
  have last := List.rdropWhile_last_not (· == 0) block.octets nonempty
  rw [IsTrimmed, List.getLast?_eq_some_getLast nonempty]
  simpa using last

theorem trimmed?_of_isTrimmed (sized : block.IsSized) (trimmed : block.IsTrimmed) :
    block.trimmed? = some block := by
  have nonempty := List.ne_nil_of_length_pos sized.1
  have kept : block.octets.rdropWhile (· == 0) = block.octets := by
    apply List.rdropWhile_eq_self_iff.mpr
    intro _ last
    rw [IsTrimmed, List.getLast?_eq_some_getLast nonempty] at trimmed
    exact trimmed (by simpa using last)
  exact trimmed?_eq_some_iff.mpr ⟨nonempty, by rw [kept]⟩

/-- The octets that trimming takes away hold no types. -/
theorem types_rdropWhile (block : Block) :
    Block.types ⟨block.window, block.octets.rdropWhile (· == 0)⟩ = block.types := by
  have clear : true ∉ Octets.toBits (block.octets.rtakeWhile (· == 0)) :=
    true_notMem_toBits fun octet member => by simpa using List.mem_rtakeWhile_imp member
  have split : block.octets.toBits =
      Octets.toBits (block.octets.rdropWhile (· == 0)) ++
        Octets.toBits (block.octets.rtakeWhile (· == 0)) := by
    rw [Octets.toBits, Octets.toBits, Octets.toBits, ← List.flatMap_append,
      List.rdropWhile_append_rtakeWhile]
  -- the bits of the octets taken away stand last, and none of them is set
  rw [types, types, split, List.zipIdx_append, List.filterMap_append]
  symm
  apply List.append_right_eq_self.mpr
  apply List.filterMap_eq_nil_iff.mpr
  intro entry stored
  obtain ⟨bit, place⟩ := entry
  have member := List.fst_mem_of_mem_zipIdx stored
  cases bit with
  | false => rfl
  | true => exact absurd member clear

theorem flatMap_types_trimmed? (block : Block) :
    block.trimmed?.toList.flatMap Block.types = block.types := by
  rw [← types_rdropWhile, trimmed?]
  cases block.octets.rdropWhile (· == 0) with
  | nil => rfl
  | cons octet octets => simp

theorem length_le_of_trimmed? (trimmed : block.trimmed? = some other) :
    other.octets.length ≤ block.octets.length := by
  obtain ⟨_, rfl⟩ := trimmed?_eq_some_iff.mp trimmed
  exact (List.rdropWhile_prefix _ block.octets).length_le

/-! ## One trimmed block for each set of types -/

/-- A block is trimmed if and only if a bit of its last octet is set. -/
theorem isTrimmed_iff (sized : block.IsSized) : block.IsTrimmed ↔
    ∃ place, block.octets.length ≤ place / 8 + 1 ∧ block.octets.toBits[place]? = some true := by
  have nonempty := List.ne_nil_of_length_pos sized.1
  obtain ⟨front, last, ends⟩ := (List.eq_nil_or_concat' block.octets).resolve_left nonempty
  have bits : block.octets.toBits = Octets.toBits front ++ Bits.ofNat 8 last.toNat := by
    simp [ends, Octets.toBits]
  -- the bits of the last octet stand behind those of the octets before it
  have size : (Octets.toBits front).length = 8 * front.length := Octets.length_toBits front
  have final : block.IsTrimmed ↔ last ≠ 0 := by
    simp [IsTrimmed, ends]
  rw [final, bits, ends, List.length_append, List.length_singleton]
  constructor
  · intro nonzero
    obtain ⟨bit, set⟩ := List.mem_iff_getElem?.mp (true_mem_bits_iff.mpr nonzero)
    refine ⟨8 * front.length + bit, by omega, ?_⟩
    rw [List.getElem?_append_right (by omega), size, Nat.add_sub_cancel_left, set]
  · rintro ⟨place, behind, set⟩ zero
    rw [List.getElem?_append_right (by omega)] at set
    exact true_mem_bits_iff.mp (List.mem_of_getElem? set) zero

/-- A bit that is set holds a type at its place. -/
theorem exists_mem_types (sized : block.IsSized) {place : Nat}
    (set : block.octets.toBits[place]? = some true) :
    ∃ type ∈ block.types, position type = place := by
  obtain ⟨small, code⟩ := toNat_of_stored sized set
  let type := UInt16.ofNat (256 * block.window.toNat + place)
  have window : TypeBitmap.window type = block.window.toNat := by
    rw [TypeBitmap.window, code]
    omega
  have position : TypeBitmap.position type = place := by
    rw [TypeBitmap.position, code]
    omega
  refine ⟨type, (mem_types_iff sized).mpr ⟨window, ?_⟩, position⟩
  rw [position, set]

/-- Bits that are set in a block are set in every block that holds its types. -/
theorem stored_of_types_subset (sized : block.IsSized) (sized' : other.IsSized)
    (subset : block.types ⊆ other.types) {place : Nat}
    (set : block.octets.toBits[place]? = some true) :
    other.octets.toBits[place]? = some true := by
  obtain ⟨type, member, rfl⟩ := exists_mem_types sized set
  exact ((mem_types_iff sized').mp (subset member)).2

/-- No block that holds the types of a trimmed one is shorter. -/
theorem length_le_of_isTrimmed (sized : block.IsSized) (sized' : other.IsSized)
    (trimmed : block.IsTrimmed) (subset : block.types ⊆ other.types) :
    block.octets.length ≤ other.octets.length := by
  obtain ⟨place, last, set⟩ := (isTrimmed_iff sized).mp trimmed
  have stored := stored_of_types_subset sized sized' subset set
  obtain ⟨within, _⟩ := List.getElem?_eq_some_iff.mp stored
  rw [Octets.length_toBits] at within
  omega

/-- Trimmed blocks of one window with the same types are the same. -/
theorem eq_of_types_subset (sized : block.IsSized) (sized' : other.IsSized)
    (trimmed : block.IsTrimmed) (trimmed' : other.IsTrimmed)
    (windows : block.window = other.window) (subset : block.types ⊆ other.types)
    (subset' : other.types ⊆ block.types) : block = other := by
  have length : block.octets.length = other.octets.length :=
    Nat.le_antisymm (length_le_of_isTrimmed sized sized' trimmed subset)
      (length_le_of_isTrimmed sized' sized trimmed' subset')
  have bits : block.octets.toBits = other.octets.toBits := by
    apply List.ext_getElem (by simp [length])
    intro place within within'
    have set : block.octets.toBits[place]? = some true ↔ other.octets.toBits[place]? = some true :=
      ⟨stored_of_types_subset sized sized' subset, stored_of_types_subset sized' sized subset'⟩
    rw [List.getElem?_eq_getElem within, List.getElem?_eq_getElem within', Option.some_inj,
      Option.some_inj] at set
    exact Bool.eq_iff_iff.mpr set
  have octets := Octets.toBits_injective bits
  cases block
  cases other
  cases windows
  cases octets
  rfl

end Block

/-! ## One trimmed bitmap for each list of types -/

namespace IsBitmap

/-- Blocks of a bitmap are told apart by their windows. -/
theorem eq_of_window_eq (bitmap : IsBitmap blocks) (member : block ∈ blocks)
    (member' : other ∈ blocks) (windows : block.window = other.window) : block = other :=
  List.inj_on_of_nodup_map bitmap.nodup_window member member' windows

/-- A block of a bitmap holds all types of the bitmap that are of its window. -/
theorem mem_types_of_window_eq (bitmap : IsBitmap blocks) (member : block ∈ blocks)
    {type : RRType} (held : type ∈ blocks.flatMap Block.types)
    (window : window type = block.window.toNat) : type ∈ block.types := by
  obtain ⟨holder, listed, inHolder⟩ := List.mem_flatMap.mp held
  have ofHolder := ((Block.mem_types_iff (bitmap.sized holder listed)).mp inHolder).1
  have same : holder = block :=
    bitmap.eq_of_window_eq listed member (UInt8.toNat_inj.mp (ofHolder.symm.trans window))
  rw [← same]
  exact inHolder

/-- Where two bitmaps hold the same types, so do their blocks of one window. -/
theorem types_subset_of_window_eq (bitmap : IsBitmap blocks) (bitmap' : IsBitmap others)
    (same : blocks.flatMap Block.types = others.flatMap Block.types) (member : block ∈ blocks)
    (member' : other ∈ others) (windows : block.window = other.window) :
    block.types ⊆ other.types := by
  intro type held
  apply bitmap'.mem_types_of_window_eq member'
  · rw [← same]
    exact List.mem_flatMap.mpr ⟨block, member, held⟩
  · rw [← windows]
    exact ((Block.mem_types_iff (bitmap.sized block member)).mp held).1

/-- A block of a trimmed bitmap stands in every trimmed bitmap with the same types. -/
theorem mem_of_types_eq (bitmap : IsBitmap blocks) (bitmap' : IsBitmap others)
    (trimmed : ∀ block ∈ blocks, block.IsTrimmed) (trimmed' : ∀ block ∈ others, block.IsTrimmed)
    (same : blocks.flatMap Block.types = others.flatMap Block.types) (member : block ∈ blocks) :
    block ∈ others := by
  have sized := bitmap.sized block member
  -- a trimmed block holds some type, and the other bitmap has the same block for that type
  obtain ⟨place, _, set⟩ := (Block.isTrimmed_iff sized).mp (trimmed block member)
  obtain ⟨type, held, _⟩ := Block.exists_mem_types sized set
  have heldThere : type ∈ others.flatMap Block.types := by
    rw [← same]
    exact List.mem_flatMap.mpr ⟨block, member, held⟩
  obtain ⟨other, listed, inOther⟩ := List.mem_flatMap.mp heldThere
  have sized' := bitmap'.sized other listed
  have windows : block.window = other.window := by
    have ofBlock := ((Block.mem_types_iff sized).mp held).1
    have ofOther := ((Block.mem_types_iff sized').mp inOther).1
    exact UInt8.toNat_inj.mp (ofBlock.symm.trans ofOther)
  have equal : block = other :=
    Block.eq_of_types_subset sized sized' (trimmed block member) (trimmed' other listed) windows
      (bitmap.types_subset_of_window_eq bitmap' same member listed windows)
      (bitmap'.types_subset_of_window_eq bitmap same.symm listed member windows.symm)
  rw [equal]
  exact listed

private instance : Std.Irrefl fun left right : Block => left.window < right.window :=
  ⟨fun _ => UInt8.lt_irrefl _⟩

private instance : Std.Antisymm fun left right : Block => left.window < right.window :=
  ⟨fun _ _ below above => absurd above (UInt8.lt_asymm below)⟩

/-- A list of types has one trimmed bitmap at most. -/
theorem eq_of_types_eq (bitmap : IsBitmap blocks) (bitmap' : IsBitmap others)
    (trimmed : ∀ block ∈ blocks, block.IsTrimmed) (trimmed' : ∀ block ∈ others, block.IsTrimmed)
    (same : blocks.flatMap Block.types = others.flatMap Block.types) : blocks = others := by
  apply (List.pairwise_map.mp bitmap.rising).eq_of_mem_iff (List.pairwise_map.mp bitmap'.rising)
  intro block
  constructor
  · exact bitmap.mem_of_types_eq bitmap' trimmed trimmed' same
  · exact bitmap'.mem_of_types_eq bitmap trimmed' trimmed same.symm

/-! ## Writing what was read -/

theorem filterMap_trimmed? (bitmap : IsBitmap blocks) :
    IsBitmap (blocks.filterMap Block.trimmed?) := by
  constructor
  · intro other member
    obtain ⟨block, listed, trimmed⟩ := List.mem_filterMap.mp member
    have short := Block.length_le_of_trimmed? trimmed
    have nonempty := (Block.trimmed?_eq_some_iff.mp trimmed).1
    have bound := (bitmap.sized block listed).2
    exact ⟨List.length_pos_iff.mpr nonempty, by omega⟩
  · rw [List.pairwise_map, List.pairwise_filterMap]
    apply (List.pairwise_map.mp bitmap.rising).imp
    intro left right below block trimmed other trimmed'
    rw [(Block.trimmed?_eq_some_iff.mp trimmed).2, (Block.trimmed?_eq_some_iff.mp trimmed').2]
    exact below

end IsBitmap

theorem isTrimmed_of_mem_filterMap (member : block ∈ blocks.filterMap Block.trimmed?) :
    block.IsTrimmed := by
  obtain ⟨_, _, trimmed⟩ := List.mem_filterMap.mp member
  exact Block.isTrimmed_of_trimmed? trimmed

theorem types_filterMap_trimmed? (blocks : List Block) :
    (blocks.filterMap Block.trimmed?).flatMap Block.types = blocks.flatMap Block.types := by
  induction blocks with
  | nil => rfl
  | cons block blocks ih =>
    rw [List.flatMap_cons, ← ih, ← Block.flatMap_types_trimmed? block, ← List.flatMap_append]
    cases trimmed : block.trimmed? <;> simp [trimmed]

/-- The last type listed sets a bit of the last octet of its block. -/
theorem isTrimmed_of_blockOf? (uniform : ∀ type ∈ run, ∀ other ∈ run, window type = window other)
    (built : blockOf? run = some block) : block.IsTrimmed := by
  have held := holds_of_blockOf? uniform built
  obtain ⟨last, ended, same⟩ := Option.bind_eq_some_iff.mp built
  have length : block.octets.length = position last / 8 + 1 := by
    cases same
    simp
  have stored : last ∈ block.types :=
    (held.mem_types_iff last).mpr ⟨List.mem_of_getLast? ended, last, ended, Nat.le_refl _⟩
  apply (Block.isTrimmed_iff held.sized).mpr
  exact ⟨position last, length.le, ((Block.mem_types_iff held.sized).mp stored).2⟩

/-- Written again, a bitmap is trimmed and nothing else in it changes. -/
theorem blocksOf_types (bitmap : IsBitmap blocks) :
    blocksOf (blocks.flatMap Block.types) = blocks.filterMap Block.trimmed? := by
  -- what is written is trimmed and holds the same types, and only one such bitmap exists
  have increasing := bitmap.pairwise_types
  have sorted := increasing.imp fun below => UInt16.le_of_lt below
  apply (isBitmap_blocksOf (sorted.imp window_le_of_le)).eq_of_types_eq bitmap.filterMap_trimmed?
  · intro block member
    obtain ⟨run, listed, built⟩ := mem_blocksOf_iff.mp member
    exact isTrimmed_of_blockOf? (fun _ inRun _ inRun' => window_eq_of_mem_run listed inRun inRun')
      built
  · intro block member
    exact isTrimmed_of_mem_filterMap member
  · rw [types_filterMap_trimmed?, types_blocksOf sorted]
    exact List.dedup_eq_self.mpr (increasing.imp fun below => UInt16.ne_of_lt below)

theorem length_wire_filterMap_trimmed?_le (blocks : List Block) :
    ((blocks.filterMap Block.trimmed?).flatMap Block.wire).length ≤
      (blocks.flatMap Block.wire).length := by
  induction blocks with
  | nil => exact Nat.le_refl _
  | cons block blocks ih =>
    rw [List.flatMap_cons, List.length_append]
    cases trimmed : block.trimmed? with
    | none =>
      rw [List.filterMap_cons_none trimmed]
      omega
    | some other =>
      have shorter := Block.length_le_of_trimmed? trimmed
      rw [List.filterMap_cons_some trimmed, List.flatMap_cons, List.length_append,
        Block.length_wire, Block.length_wire]
      omega

theorem filterMap_trimmed?_eq_self_iff (bitmap : IsBitmap blocks) :
    blocks.filterMap Block.trimmed? = blocks ↔ ∀ block ∈ blocks, block.IsTrimmed := by
  constructor
  · intro same block member
    rw [← same] at member
    exact isTrimmed_of_mem_filterMap member
  · intro trimmed
    have kept : ∀ block ∈ blocks, block.trimmed? = some block := fun block member =>
      Block.trimmed?_of_isTrimmed (bitmap.sized block member) (trimmed block member)
    rw [List.filterMap_congr kept, List.filterMap_some]

end HashedDenial.TypeBitmap
