import HashedDenial.Proofs.Octets.Bits
import HashedDenial.TypeBitmap
import Mathlib.Data.List.Dedup
import Mathlib.Data.List.Sort
import Mathlib.Data.List.SplitBy

/-!
# Reading type bitmaps back

A block holds the types of one window in increasing order. Blocks of increasing windows hold them
all in increasing order, and the writer makes one such block of every run of types of one window. A
list of types in order is therefore read back without its repetitions.
-/
namespace HashedDenial.TypeBitmap

variable {type other : RRType} {types run : List RRType} {block : Block} {blocks : List Block}
  {input : Octets}

/-! ## Windows and positions -/

theorem window_lt (type : RRType) : window type < 256 := by
  have bound := type.toNat_lt
  rw [window]
  omega

theorem position_lt (type : RRType) : position type < 256 := Nat.mod_lt _ (by decide)

theorem eq_of_window_eq (windows : window type = window other)
    (positions : position type = position other) : type = other := by
  rw [window, window] at windows
  rw [position, position] at positions
  rw [← UInt16.toNat_inj]
  omega

theorem window_le_of_le (le : type ≤ other) : window type ≤ window other :=
  Nat.div_le_div_right (UInt16.le_iff_toNat_le.mp le)

theorem position_le_of_le (le : type ≤ other) (windows : window type = window other) :
    position type ≤ position other := by
  rw [UInt16.le_iff_toNat_le] at le
  rw [window, window] at windows
  rw [position, position]
  omega

/-! ## Blocks -/

namespace Block

/-- Whether the block has a size that can be written and read. -/
def IsSized (block : Block) : Prop := 1 ≤ block.octets.length ∧ block.octets.length ≤ 32

instance (block : Block) : Decidable block.IsSized := inferInstanceAs (Decidable (_ ∧ _))

theorem length_wire (block : Block) : block.wire.length = block.octets.length + 2 := rfl

/-- A bit of a block stands for a type of the window, with its own place as the position. -/
theorem toNat_of_stored (sized : block.IsSized) {place : Nat} {bit : Bool}
    (stored : block.octets.toBits[place]? = some bit) :
    place < 256 ∧ (UInt16.ofNat (256 * block.window.toNat + place)).toNat =
      256 * block.window.toNat + place := by
  obtain ⟨bound, _⟩ := List.getElem?_eq_some_iff.mp stored
  rw [Octets.length_toBits] at bound
  have short := sized.2
  have below := block.window.toNat_lt
  refine ⟨by omega, ?_⟩
  rw [UInt16.toNat_ofNat']
  omega

theorem mem_types_iff (sized : block.IsSized) : type ∈ block.types ↔
    TypeBitmap.window type = block.window.toNat ∧
      block.octets.toBits[TypeBitmap.position type]? = some true := by
  simp only [types, List.mem_filterMap, Prod.exists, List.mem_zipIdx_iff_getElem?,
    Option.ite_none_right_eq_some, Option.some.injEq]
  constructor
  · rintro ⟨bit, place, stored, set, rfl⟩
    obtain ⟨small, code⟩ := toNat_of_stored sized stored
    have offset : (256 * block.window.toNat + place) % 256 = place := by omega
    rw [TypeBitmap.window, TypeBitmap.position, code, offset, stored, set]
    exact ⟨by omega, rfl⟩
  · rintro ⟨same, stored⟩
    refine ⟨true, TypeBitmap.position type, stored, rfl, ?_⟩
    rw [← same, TypeBitmap.window, TypeBitmap.position, Nat.div_add_mod, UInt16.ofNat_toNat]

theorem pairwise_types (sized : block.IsSized) : block.types.Pairwise (· < ·) := by
  have places : block.octets.toBits.zipIdx.Pairwise fun left right => left.2 < right.2 := by
    rw [← List.pairwise_map, List.zipIdx_map_snd]
    exact List.pairwise_lt_range' 1
  apply List.pairwise_filterMap.mpr
  apply places.imp_of_mem
  rintro ⟨bit, place⟩ ⟨bit', place'⟩ stored stored' below type picked type' picked'
  rw [List.mem_zipIdx_iff_getElem?] at stored stored'
  simp only [Option.ite_none_right_eq_some, Option.some.injEq] at picked picked'
  obtain ⟨_, rfl⟩ := picked
  obtain ⟨_, rfl⟩ := picked'
  rw [UInt16.lt_iff_toNat_lt, (toNat_of_stored sized stored).2, (toNat_of_stored sized stored').2]
  exact Nat.add_lt_add_left below _

end Block

/-! ## Sequences of blocks -/

theorem readBlocks?_eq_some_iff : readBlocks? input = some blocks ↔
    (∀ block ∈ blocks, block.IsSized) ∧ input = blocks.flatMap Block.wire := by
  constructor
  · intro returned
    fun_induction readBlocks? input generalizing blocks with
    | case1 =>
      cases returned
      simp
    | case2 => cases returned
    | case3 window length input fits ih =>
      obtain ⟨later, read, rfl⟩ := Option.map_eq_some_iff.mp returned
      obtain ⟨sized, rest⟩ := ih read
      obtain ⟨positive, small, enough⟩ := fits
      rw [UInt8.le_iff_toNat_le] at positive small
      have count : (input.take length.toNat).length = length.toNat := by
        rw [List.length_take, Nat.min_eq_left enough]
      refine ⟨List.forall_mem_cons.mpr ⟨⟨?_, ?_⟩, sized⟩, ?_⟩
      · rw [count]
        exact positive
      · rw [count]
        exact small
      · rw [List.flatMap_cons, ← rest, Block.wire, count, UInt8.ofNat_toNat, List.cons_append,
          List.cons_append, List.take_append_drop]
    | case4 => cases returned
  · rintro ⟨sized, rfl⟩
    induction blocks with
    | nil => simp [readBlocks?]
    | cons block blocks ih =>
      obtain ⟨⟨positive, small⟩, others⟩ := List.forall_mem_cons.mp sized
      have count : (UInt8.ofNat block.octets.length).toNat = block.octets.length := by
        rw [UInt8.toNat_ofNat']
        omega
      have fits : 1 ≤ UInt8.ofNat block.octets.length ∧ UInt8.ofNat block.octets.length ≤ 32 ∧
          (UInt8.ofNat block.octets.length).toNat ≤
            (block.octets ++ blocks.flatMap Block.wire).length := by
        rw [UInt8.le_iff_toNat_le, UInt8.le_iff_toNat_le, count, List.length_append]
        exact ⟨positive, small, Nat.le_add_right _ _⟩
      rw [List.flatMap_cons, Block.wire, List.cons_append, List.cons_append, readBlocks?,
        if_pos fits, count, List.take_left, List.drop_left, ih others]
      rfl

/-- Blocks that make up a bitmap: each of a size that can be read, with increasing windows. -/
structure IsBitmap (blocks : List Block) : Prop where
  sized : ∀ block ∈ blocks, block.IsSized
  rising : (blocks.map Block.window).Pairwise (· < ·)

theorem read?_eq_some_iff : read? input = some types ↔
    ∃ blocks, IsBitmap blocks ∧ input = blocks.flatMap Block.wire ∧
      blocks.flatMap Block.types = types := by
  simp only [read?, bind, Option.bind_eq_some_iff, readBlocks?_eq_some_iff,
    Option.ite_none_right_eq_some, Option.some.injEq]
  constructor
  · intro ⟨blocks, ⟨sized, spelled⟩, rising, held⟩
    exact ⟨blocks, ⟨sized, rising⟩, spelled, held⟩
  · intro ⟨blocks, bitmap, spelled, held⟩
    exact ⟨blocks, ⟨bitmap.sized, spelled⟩, bitmap.rising, held⟩

theorem IsBitmap.read?_wire (bitmap : IsBitmap blocks) :
    read? (blocks.flatMap Block.wire) = some (blocks.flatMap Block.types) :=
  read?_eq_some_iff.mpr ⟨blocks, bitmap, rfl, rfl⟩

theorem IsBitmap.eq_of_wire_eq (bitmap : IsBitmap blocks) {others : List Block}
    (bitmap' : IsBitmap others)
    (same : blocks.flatMap Block.wire = others.flatMap Block.wire) : blocks = others := by
  have read : readBlocks? (blocks.flatMap Block.wire) = some blocks :=
    readBlocks?_eq_some_iff.mpr ⟨bitmap.sized, rfl⟩
  have read' : readBlocks? (blocks.flatMap Block.wire) = some others :=
    readBlocks?_eq_some_iff.mpr ⟨bitmap'.sized, same⟩
  exact Option.some.inj (read.symm.trans read')

/-- A bitmap holds the types whose bits are set in the block of their window. -/
theorem IsBitmap.mem_types_iff (bitmap : IsBitmap blocks) : type ∈ blocks.flatMap Block.types ↔
    ∃ block ∈ blocks, window type = block.window.toNat ∧
      block.octets.toBits[position type]? = some true := by
  rw [List.mem_flatMap]
  constructor
  · intro ⟨block, member, held⟩
    exact ⟨block, member, (Block.mem_types_iff (bitmap.sized block member)).mp held⟩
  · intro ⟨block, member, stored⟩
    exact ⟨block, member, (Block.mem_types_iff (bitmap.sized block member)).mpr stored⟩

/-- The types of a bitmap come out in increasing order. -/
theorem IsBitmap.pairwise_types (bitmap : IsBitmap blocks) :
    (blocks.flatMap Block.types).Pairwise (· < ·) := by
  apply List.pairwise_flatMap.mpr
  refine ⟨fun block member => Block.pairwise_types (bitmap.sized block member), ?_⟩
  apply (List.pairwise_map.mp bitmap.rising).imp_of_mem
  intro block block' member member' below type held type' held'
  have windows := ((Block.mem_types_iff (bitmap.sized block member)).mp held).1
  have windows' := ((Block.mem_types_iff (bitmap.sized block' member')).mp held').1
  rw [UInt8.lt_iff_toNat_lt] at below
  rw [UInt16.lt_iff_toNat_lt]
  rw [window] at windows windows'
  omega

/-! ## Runs -/

/-- The longest stretches of a list whose types are all of one window. -/
def runs (types : List RRType) : List (List RRType) :=
  types.splitBy fun left right => window left == window right

theorem blocksOf_eq (types : List RRType) : blocksOf types = (runs types).filterMap blockOf? := rfl

theorem flatten_runs (types : List RRType) : (runs types).flatten = types :=
  List.flatten_splitBy _ _

theorem mem_of_mem_run (listed : run ∈ runs types) (member : type ∈ run) : type ∈ types := by
  rw [← flatten_runs types]
  exact List.mem_flatten.mpr ⟨run, listed, member⟩

theorem window_eq_of_mem_run (listed : run ∈ runs types) (member : type ∈ run)
    (member' : other ∈ run) : window type = window other := by
  have chain : (run.map window).IsChain (· = ·) := by
    simpa [List.isChain_map] using List.isChain_of_mem_splitBy listed
  have same := (List.isChain_iff_pairwise.mp chain).forall_of_forall fun _ _ => rfl
  exact same (List.mem_map_of_mem member) (List.mem_map_of_mem member')

private theorem pairwise_window_lt {parts : List (List RRType)}
    (uniform : ∀ run ∈ parts, ∀ type ∈ run, ∀ other ∈ run, window type = window other)
    (apart : parts.Pairwise fun left right => ∀ type ∈ left, ∀ other ∈ right,
      window type ≤ window other)
    (borders : parts.IsChain fun left right => ∃ last ∈ left, ∃ first ∈ right,
      window last ≠ window first) :
    parts.Pairwise fun left right => ∀ type ∈ left, ∀ other ∈ right,
      window type < window other := by
  induction parts with
  | nil => exact List.Pairwise.nil
  | cons left parts ih =>
    obtain ⟨before, later⟩ := List.pairwise_cons.mp apart
    obtain ⟨same, others⟩ := List.forall_mem_cons.mp uniform
    refine List.pairwise_cons.mpr ⟨?_, ih others later borders.tail⟩
    intro run listed type member other member'
    cases parts with
    | nil => cases listed
    | cons next parts =>
      -- the window rises to the next run, and from there it does not fall
      obtain ⟨⟨last, inLeft, first, inNext, differ⟩, _⟩ := List.isChain_cons_cons.mp borders
      have step := before next List.mem_cons_self last inLeft first inNext
      have rest : window first ≤ window other := by
        rcases List.mem_cons.mp listed with rfl | listed'
        · exact (others run List.mem_cons_self first inNext other member').le
        · exact (List.pairwise_cons.mp later).1 run listed' first inNext other member'
      have start := same type member last inLeft
      omega

/-- Where windows do not decrease, a later run has a greater window. -/
theorem pairwise_runs (ordered : types.Pairwise fun left right => window left ≤ window right) :
    (runs types).Pairwise fun left right => ∀ type ∈ left, ∀ other ∈ right,
      window type < window other := by
  apply pairwise_window_lt
  · intro run listed type member other member'
    exact window_eq_of_mem_run listed member member'
  · rw [← flatten_runs types] at ordered
    exact (List.pairwise_flatten.mp ordered).2
  · apply (List.isChain_getLast_head_splitBy _ types).imp
    rintro left right ⟨nonempty, nonempty', differ⟩
    exact ⟨_, List.getLast_mem nonempty, _, List.head_mem nonempty', by simpa using differ⟩

/-! ## The block of a run -/

/-- The bits of the octets up to that of the last type listed. -/
def storedBits (run : List RRType) (last : RRType) : List Bool :=
  (List.range (8 * (position last / 8 + 1))).map fun place => (run.map position).contains place

theorem length_storedBits (run : List RRType) (last : RRType) :
    (storedBits run last).length = 8 * (position last / 8 + 1) := by
  simp [storedBits]

theorem getElem?_storedBits {last : RRType} {place : Nat} :
    (storedBits run last)[place]? = some true ↔
      place / 8 ≤ position last / 8 ∧ ∃ type ∈ run, position type = place := by
  rw [storedBits, List.getElem?_map, Option.map_eq_some_iff]
  simp only [List.getElem?_eq_some_iff, List.getElem_range, List.length_range,
    List.contains_iff_mem, List.mem_map]
  constructor
  · rintro ⟨_, ⟨bound, rfl⟩, stored⟩
    exact ⟨by omega, stored⟩
  · rintro ⟨bound, stored⟩
    exact ⟨place, ⟨by omega, rfl⟩, stored⟩

/-- What the block of a run holds: of the types of the run those up to the octet of the last. -/
structure Holds (block : Block) (run : List RRType) : Prop where
  sized : block.IsSized
  window_eq : ∀ type ∈ run, window type = block.window.toNat
  mem_types_iff : ∀ type, type ∈ block.types ↔
    type ∈ run ∧ ∃ last ∈ run.getLast?, position type / 8 ≤ position last / 8

theorem holds_of_blockOf? (uniform : ∀ type ∈ run, ∀ other ∈ run, window type = window other)
    (built : blockOf? run = some block) : Holds block run := by
  obtain ⟨last, ended, same⟩ := Option.bind_eq_some_iff.mp built
  have member : last ∈ run := List.mem_of_getLast? ended
  have ends := position_lt last
  have octets : block.octets = Octets.ofBits (storedBits run last) := by
    cases same
    rfl
  have bits : block.octets.toBits = storedBits run last := by
    rw [octets, Octets.toBits_ofBits (length_storedBits run last)]
  have sized : block.IsSized := by
    rw [Block.IsSized, octets, Octets.length_ofBits, length_storedBits]
    omega
  have windows : ∀ type ∈ run, window type = block.window.toNat := by
    intro type listed
    have below := window_lt last
    cases same
    rw [uniform type listed last member, UInt8.toNat_ofNat', Nat.mod_eq_of_lt below]
  refine ⟨sized, windows, fun type => ?_⟩
  rw [Block.mem_types_iff sized, bits, getElem?_storedBits, ended]
  simp only [Option.mem_some_iff, exists_eq_left']
  constructor
  · rintro ⟨window, bound, other, listed, place⟩
    -- the type of the run at this position is of this window, so it is the type itself
    obtain rfl := eq_of_window_eq ((windows other listed).trans window.symm) place
    exact ⟨listed, bound⟩
  · rintro ⟨listed, bound⟩
    exact ⟨windows type listed, bound, type, listed, rfl⟩

theorem exists_blockOf? (nonempty : run ≠ []) : ∃ block, blockOf? run = some block := by
  obtain ⟨last, ended⟩ := List.getLast?_isSome.mpr nonempty |> Option.isSome_iff_exists.mp
  exact ⟨_, Option.bind_eq_some_iff.mpr ⟨last, ended, rfl⟩⟩

/-! ## Reading what was written -/

theorem holds_of_mem_runs (listed : run ∈ runs types) (built : blockOf? run = some block) :
    Holds block run :=
  holds_of_blockOf? (fun _ member _ member' => window_eq_of_mem_run listed member member') built

theorem mem_blocksOf_iff : block ∈ blocksOf types ↔ ∃ run ∈ runs types, blockOf? run = some block :=
  List.mem_filterMap

theorem isSized_of_mem_blocksOf (member : block ∈ blocksOf types) : block.IsSized := by
  obtain ⟨run, listed, built⟩ := mem_blocksOf_iff.mp member
  exact (holds_of_mem_runs listed built).sized

theorem isBitmap_blocksOf
    (ordered : types.Pairwise fun left right => window left ≤ window right) :
    IsBitmap (blocksOf types) := by
  refine ⟨fun block => isSized_of_mem_blocksOf, ?_⟩
  rw [List.pairwise_map, blocksOf_eq, List.pairwise_filterMap]
  apply (pairwise_runs ordered).imp_of_mem
  intro left right listed listed' before block built block' built'
  have held := holds_of_mem_runs listed built
  have held' := holds_of_mem_runs listed' built'
  -- runs are not empty, so each shows the window of its block
  obtain ⟨type, member⟩ := List.exists_mem_of_ne_nil left (List.ne_nil_of_mem_splitBy listed)
  obtain ⟨other, member'⟩ := List.exists_mem_of_ne_nil right (List.ne_nil_of_mem_splitBy listed')
  rw [UInt8.lt_iff_toNat_lt, ← held.window_eq type member, ← held'.window_eq other member']
  exact before type member other member'

/-- The blocks of a list hold its types up to the octet of the last type of their run. -/
theorem mem_types_blocksOf_iff : type ∈ (blocksOf types).flatMap Block.types ↔
    ∃ run ∈ runs types, type ∈ run ∧
      ∃ last ∈ run.getLast?, position type / 8 ≤ position last / 8 := by
  simp only [List.mem_flatMap, mem_blocksOf_iff]
  constructor
  · rintro ⟨block, ⟨run, listed, built⟩, held⟩
    exact ⟨run, listed, ((holds_of_mem_runs listed built).mem_types_iff type).mp held⟩
  · rintro ⟨run, listed, held⟩
    obtain ⟨block, built⟩ := exists_blockOf? (List.ne_nil_of_mem_splitBy listed)
    exact ⟨block, ⟨run, listed, built⟩,
      ((holds_of_mem_runs listed built).mem_types_iff type).mpr held⟩

theorem le_getLast? {last : RRType} (sorted : run.Pairwise (· ≤ ·))
    (ended : run.getLast? = some last) (member : type ∈ run) : type ≤ last := by
  obtain ⟨front, rfl⟩ := List.getLast?_eq_some_iff.mp ended
  rcases List.mem_append.mp member with earlier | single
  · exact (List.pairwise_append.mp sorted).2.2 type earlier last (List.mem_singleton_self last)
  · rw [List.mem_singleton.mp single]
    exact UInt16.le_refl last

theorem exists_run_of_mem (member : type ∈ types) :
    ∃ run ∈ runs types, type ∈ run ∧ ∃ last, run.getLast? = some last := by
  rw [← flatten_runs types] at member
  obtain ⟨run, listed, inRun⟩ := List.mem_flatten.mp member
  have nonempty := List.getLast?_isSome.mpr (List.ne_nil_of_mem inRun)
  exact ⟨run, listed, inRun, Option.isSome_iff_exists.mp nonempty⟩

theorem pairwise_lt_of_nodup (sorted : types.Pairwise (· ≤ ·)) (distinct : types.Nodup) :
    types.Pairwise (· < ·) :=
  (sorted.and distinct).imp fun ⟨le, ne⟩ => UInt16.lt_of_le_of_ne le ne

theorem pairwise_dedup (sorted : types.Pairwise (· ≤ ·)) : types.dedup.Pairwise (· < ·) :=
  pairwise_lt_of_nodup (sorted.sublist (List.dedup_sublist types)) (List.nodup_dedup types)

/-- The bitmap of types in order holds each of them once. -/
theorem types_blocksOf (sorted : types.Pairwise (· ≤ ·)) :
    (blocksOf types).flatMap Block.types = types.dedup := by
  have bitmap := isBitmap_blocksOf (sorted.imp window_le_of_le)
  apply bitmap.pairwise_types.eq_of_mem_iff (pairwise_dedup sorted)
  intro type
  rw [mem_types_blocksOf_iff, List.mem_dedup]
  constructor
  · rintro ⟨run, listed, member, _⟩
    exact mem_of_mem_run listed member
  · intro member
    obtain ⟨run, listed, inRun, last, ended⟩ := exists_run_of_mem member
    rw [← flatten_runs types] at sorted
    have ordered := (List.pairwise_flatten.mp sorted).1 run listed
    -- the last type of the run has the greatest position
    have bound := position_le_of_le (le_getLast? ordered ended inRun)
      (window_eq_of_mem_run listed inRun (List.mem_of_getLast? ended))
    exact ⟨run, listed, inRun, last, ended, Nat.div_le_div_right bound⟩

/-- Types in order are read back without repetitions. -/
theorem read?_write (sorted : types.Pairwise (· ≤ ·)) :
    read? (write types) = some types.dedup := by
  rw [write, (isBitmap_blocksOf (sorted.imp window_le_of_le)).read?_wire, types_blocksOf sorted]

/-! ## Lengths -/

theorem length_flatMap_wire_le (sized : ∀ block ∈ blocks, block.IsSized) :
    (blocks.flatMap Block.wire).length ≤ 34 * blocks.length := by
  induction blocks with
  | nil => exact Nat.zero_le _
  | cons block blocks ih =>
    obtain ⟨⟨_, short⟩, others⟩ := List.forall_mem_cons.mp sized
    have rest := ih others
    rw [List.flatMap_cons, List.length_append, Block.length_wire, List.length_cons]
    omega

namespace IsBitmap

theorem nodup_window (bitmap : IsBitmap blocks) : (blocks.map Block.window).Nodup :=
  bitmap.rising.imp fun below => UInt8.ne_of_lt below

/-- There are no more blocks than windows. -/
theorem length_le (bitmap : IsBitmap blocks) : blocks.length ≤ 256 := by
  have distinct : ((blocks.map Block.window).map UInt8.toNat).Nodup :=
    bitmap.nodup_window.map fun _ _ => UInt8.toNat_inj.mp
  have within : (blocks.map Block.window).map UInt8.toNat ⊆ List.range 256 := by
    intro number listed
    obtain ⟨window, _, rfl⟩ := List.mem_map.mp listed
    exact List.mem_range.mpr window.toNat_lt
  simpa using (List.subperm_of_subset distinct within).length_le

theorem length_wire_le (bitmap : IsBitmap blocks) :
    (blocks.flatMap Block.wire).length ≤ 34 * 256 := by
  have each := length_flatMap_wire_le bitmap.sized
  have count := bitmap.length_le
  omega

end IsBitmap

end HashedDenial.TypeBitmap
