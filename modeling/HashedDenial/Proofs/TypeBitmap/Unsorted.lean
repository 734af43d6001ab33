import HashedDenial.Proofs.TypeBitmap

/-!
# Bitmaps of unsorted lists

The writer makes one block of every run of types of one window, and ends it with the octet of the
last type. It is made for lists in order. Of another list the types that lie behind that octet are
lost, and where a window is below one before it the blocks are no bitmap at all; everything else is
read back in order.
-/
namespace HashedDenial.TypeBitmap

variable {type other : RRType} {types others run run' : List RRType}

/-! ## Lists in order -/

/-- The types of a list in increasing order, each of them once. -/
def inOrder (types : List RRType) : List RRType := types.dedup.mergeSort (· ≤ ·)

@[simp] theorem mem_inOrder : type ∈ inOrder types ↔ type ∈ types := by
  rw [inOrder, List.mem_mergeSort, List.mem_dedup]

theorem pairwise_inOrder (types : List RRType) : (inOrder types).Pairwise (· < ·) := by
  have sorted : (inOrder types).Pairwise (· ≤ ·) := by
    apply (List.pairwise_mergeSort _ _ types.dedup).imp
    · intro left right le
      exact of_decide_eq_true le
    · intro left middle right le le'
      exact decide_eq_true (UInt16.le_trans (of_decide_eq_true le) (of_decide_eq_true le'))
    · intro left right
      simpa using UInt16.le_total left right
  have distinct : (inOrder types).Nodup :=
    (List.mergeSort_perm _ _).nodup_iff.mpr (List.nodup_dedup types)
  exact pairwise_lt_of_nodup sorted distinct

theorem eq_inOrder_iff (increasing : others.Pairwise (· < ·)) :
    others = inOrder types ↔ ∀ type, type ∈ others ↔ type ∈ types := by
  constructor
  · rintro rfl type
    exact mem_inOrder
  · intro same
    apply increasing.eq_of_mem_iff (pairwise_inOrder types)
    intro type
    rw [same, mem_inOrder]

/-! ## Windows in order -/

/-- Whether no type of a list is of a window below one before it. -/
def WindowsInOrder (types : List RRType) : Prop :=
  types.Pairwise fun left right => window left ≤ window right

instance (types : List RRType) : Decidable (WindowsInOrder types) :=
  inferInstanceAs (Decidable (List.Pairwise _ _))

theorem isBitmap_blocksOf_iff : IsBitmap (blocksOf types) ↔ WindowsInOrder types := by
  constructor
  · intro bitmap
    have rising := bitmap.rising
    rw [List.pairwise_map, blocksOf_eq, List.pairwise_filterMap] at rising
    rw [WindowsInOrder, ← flatten_runs types, List.pairwise_flatten]
    constructor
    · -- within a run the window stays the same
      intro run listed
      apply List.pairwise_of_forall_mem_list
      intro type member other member'
      exact (window_eq_of_mem_run listed member member').le
    · -- from one run to a later one it rises as the windows of their blocks do
      apply rising.imp_of_mem
      intro left right listed listed' below type member other member'
      obtain ⟨block, built⟩ := exists_blockOf? (List.ne_nil_of_mem member)
      obtain ⟨block', built'⟩ := exists_blockOf? (List.ne_nil_of_mem member')
      rw [(holds_of_mem_runs listed built).window_eq type member,
        (holds_of_mem_runs listed' built').window_eq other member']
      exact (UInt8.lt_iff_toNat_lt.mp (below block built block' built')).le
  · exact isBitmap_blocksOf

theorem read?_write_eq_none (fall : ¬ WindowsInOrder types) : read? (write types) = none := by
  cases returned : read? (write types) with
  | none => rfl
  | some result =>
    obtain ⟨blocks, bitmap, spelled, _⟩ := read?_eq_some_iff.mp returned
    -- the blocks that are read are those that were written
    have read := readBlocks?_eq_some_iff.mpr ⟨bitmap.sized, spelled⟩
    have written : readBlocks? (write types) = some (blocksOf types) :=
      readBlocks?_eq_some_iff.mpr ⟨fun _ => isSized_of_mem_blocksOf, rfl⟩
    rw [read, Option.some_inj] at written
    rw [written] at bitmap
    exact absurd (isBitmap_blocksOf_iff.mp bitmap) fall

/-! ## Types that are kept -/

/-- The types of a run that do not lie behind the octet of the last one. -/
def keptOf (run : List RRType) : List RRType :=
  run.filter fun type => run.getLast?.any fun last => position type / 8 ≤ position last / 8

/-- The types of a list that its bitmap holds. -/
def kept (types : List RRType) : List RRType := (runs types).flatMap keptOf

/-- Whether the last type of every run lies in the last octet of the run. -/
def RunsEndHighest (types : List RRType) : Prop :=
  ∀ run ∈ runs types, ∀ last ∈ run.getLast?, ∀ type ∈ run, position type / 8 ≤ position last / 8

theorem mem_keptOf_iff : type ∈ keptOf run ↔
    type ∈ run ∧ ∃ last ∈ run.getLast?, position type / 8 ≤ position last / 8 := by
  simp [keptOf, Option.any_eq_true]

theorem mem_kept_iff : type ∈ kept types ↔ ∃ run ∈ runs types, type ∈ run ∧
    ∃ last ∈ run.getLast?, position type / 8 ≤ position last / 8 := by
  simp only [kept, List.mem_flatMap, mem_keptOf_iff]

theorem mem_of_mem_kept (member : type ∈ kept types) : type ∈ types := by
  obtain ⟨run, listed, inRun, _⟩ := mem_kept_iff.mp member
  exact mem_of_mem_run listed inRun

theorem read?_write_eq_kept (ordered : WindowsInOrder types) :
    read? (write types) = some (inOrder (kept types)) := by
  have bitmap := isBitmap_blocksOf_iff.mpr ordered
  rw [write, bitmap.read?_wire, Option.some_inj, eq_inOrder_iff bitmap.pairwise_types]
  intro type
  rw [mem_types_blocksOf_iff, mem_kept_iff]

/-- Where windows are in order, a type stands in one run only. -/
theorem run_eq_of_mem (ordered : WindowsInOrder types) (listed : run ∈ runs types)
    (listed' : run' ∈ runs types) (member : type ∈ run) (member' : type ∈ run') : run = run' := by
  by_contra differ
  have apart : (runs types).Pairwise fun left right => type ∈ left → type ∉ right :=
    (pairwise_runs ordered).imp fun below inLeft inRight =>
      Nat.lt_irrefl _ (below type inLeft type inRight)
  have : Std.Symm fun left right : List RRType => type ∈ left → type ∉ right :=
    ⟨fun _ _ away inRight inLeft => away inLeft inRight⟩
  exact apart.forall listed listed' differ member member'

/-- Nothing is lost exactly if every run ends in its last octet. -/
theorem kept_eq_iff (ordered : WindowsInOrder types) :
    (∀ type, type ∈ kept types ↔ type ∈ types) ↔ RunsEndHighest types := by
  constructor
  · intro all run listed last ended type member
    obtain ⟨run', listed', member', last', ended', bound⟩ :=
      mem_kept_iff.mp ((all type).mpr (mem_of_mem_run listed member))
    obtain rfl := run_eq_of_mem ordered listed listed' member member'
    obtain rfl := Option.mem_unique ended ended'
    exact bound
  · intro highest type
    refine ⟨mem_of_mem_kept, fun member => ?_⟩
    obtain ⟨run, listed, inRun, last, ended⟩ := exists_run_of_mem member
    exact mem_kept_iff.mpr ⟨run, listed, inRun, last, ended, highest run listed last ended type inRun⟩

/-- A list is read back in order and without repetitions exactly if its windows never fall and the
last type of every run lies in the last octet of the run. Where a window falls the bitmap is not
read. Otherwise the types behind the octet of the last one of their run are lost, and no others. -/
theorem read?_write_unsorted (types : List RRType) :
    (read? (write types) = some (inOrder types) ↔ WindowsInOrder types ∧ RunsEndHighest types) ∧
      (¬ WindowsInOrder types → read? (write types) = none) ∧
      (WindowsInOrder types → read? (write types) = some (inOrder (kept types))) := by
  refine ⟨?_, read?_write_eq_none, read?_write_eq_kept⟩
  by_cases ordered : WindowsInOrder types
  · rw [read?_write_eq_kept ordered, Option.some_inj, eq_inOrder_iff (pairwise_inOrder _)]
    simp only [mem_inOrder, kept_eq_iff ordered, ordered, true_and]
  · simp [read?_write_eq_none ordered, ordered]

/-- Type 15 lies behind the octet of type 1, and type 256 is of a later window. -/
theorem read?_write_unsorted_falling :
    read? (write [15, 1]) = some (inOrder [1]) ∧ read? (write [256, 1]) = none := by
  obtain ⟨_, _, kept_eq⟩ := read?_write_unsorted [15, 1]
  obtain ⟨_, unread, _⟩ := read?_write_unsorted [256, 1]
  exact ⟨kept_eq (by decide), unread (by decide)⟩

end HashedDenial.TypeBitmap
