import Lldb.Core.RangeCoalescing
import Lldb.Target.AllocatedMemory

/-! One `AllocatedBlock` over any order of reservations and releases, with chunks of any size. -/

set_option autoImplicit false

namespace Lldb

open Library (Window)
open List

namespace AllocatedBlock

inductive Call where
  | reserveBlock (size : Nat)
  | freeBlock (address : Nat)
  deriving DecidableEq, Repr

def after (block : AllocatedBlock) : Call → AllocatedBlock
  | .reserveBlock size => (block.reserveBlock (size % 2 ^ 32)).2
  | .freeBlock address => (block.freeBlock address).2

def afterAll (block : AllocatedBlock) (calls : List Call) : AllocatedBlock := calls.foldl after block

/-- The free and the reserved ranges divide the range of the block into runs of whole chunks. -/
structure Partitioned (block : AllocatedBlock) : Prop where
  freeSorted : Sorted block.freeBlocks.entries
  reservedSorted : Sorted block.reservedBlocks.entries
  disjoint : (block.freeBlocks.entries ++ block.reservedBlocks.entries).Pairwise fun left right =>
    left.window.Apart right.window
  chunks : ∀ entry ∈ block.freeBlocks.entries ++ block.reservedBlocks.entries,
    block.chunkSize ∣ entry.size ∧ block.range.base ≤ entry.base ∧ block.chunkSize ∣ entry.base - block.range.base
  covers : ∀ place, (∃ entry ∈ block.freeBlocks.entries ++ block.reservedBlocks.entries, place ∈ entry.window) ↔
    place ∈ block.range.window
  coalesced : ∀ left ∈ block.freeBlocks.entries, ∀ right ∈ block.freeBlocks.entries,
    left.base + left.size ≠ right.base

def roundedUp (block : AllocatedBlock) (size : Nat) : Nat :=
  (max size 1 + block.chunkSize - 1) / block.chunkSize * block.chunkSize

def FreeRun (block : AllocatedBlock) (size : Nat) : Prop :=
  ∃ start, ∀ offset < size, ∃ entry ∈ block.freeBlocks.entries, start + offset ∈ entry.window

def Serves (block : AllocatedBlock) : Prop :=
  ∀ size < 2 ^ 32, (block.reserveBlock size).1 = invalidAddress ↔ ¬ block.FreeRun (block.roundedUp size)

/-- What is kept in a block that ends below the top of the address space. -/
structure Divided (block : AllocatedBlock) : Prop where
  positive : 0 < block.chunkSize
  narrow : block.range.Narrow 32
  spaced : Spaced block.freeBlocks.entries
  nonempty : ∀ entry ∈ block.freeBlocks.entries, 0 < entry.size
  inside : ∀ entry ∈ block.freeBlocks.entries ++ block.reservedBlocks.entries, block.range.base ≤ entry.base ∧
    entry.base + entry.size ≤ block.range.base + block.range.size
  chunks : ∀ entry ∈ block.freeBlocks.entries ++ block.reservedBlocks.entries,
    block.chunkSize ∣ entry.size ∧ block.chunkSize ∣ entry.base - block.range.base
  sorted : Sorted block.reservedBlocks.entries
  once : ∀ place, covering (block.freeBlocks.entries ++ block.reservedBlocks.entries) place =
    covering [block.range] place

variable {block : AllocatedBlock} {size byteSize chunkSize : Nat}

theorem Divided.laid (divided : block.Divided) : Laid block.range block.freeBlocks.entries :=
  divided.spaced.laid (fun entry member => divided.inside entry (mem_append_left _ member)) divided.nonempty

theorem Divided.partitioned (divided : block.Divided) : block.Partitioned where
  freeSorted := divided.spaced.sorted
  reservedSorted := divided.sorted
  disjoint := by
    apply apart_of_covering
    intro place
    rw [divided.once, covering_single]
    split_ifs <;> omega
  chunks entry member := ⟨(divided.chunks entry member).1, (divided.inside entry member).1,
    (divided.chunks entry member).2⟩
  covers place := by
    rw [← covering_pos, divided.once, covering_single]
    split_ifs with inside <;> simp [inside]
  coalesced left here right there := divided.spaced.apart divided.nonempty here there

theorem Divided.run_within (divided : block.Divided) (some_ : 0 < size)
    (run : block.FreeRun size) : ∃ entry ∈ block.freeBlocks.entries, size ≤ entry.size := by
  obtain ⟨start, free⟩ := run
  obtain ⟨entry, listed, here⟩ := free 0 some_
  have first := here.1
  have last := here.2
  simp only [Range.window] at first last
  refine ⟨entry, listed, ?_⟩
  by_contra longer
  -- The place where the free range ends is in the run, and in another free range.
  obtain ⟨other, among, there⟩ := free (entry.base + entry.size - start) (by omega)
  have otherFirst := there.1
  have otherLast := there.2
  simp only [Range.window] at otherFirst otherLast
  have pairs := List.Pairwise.forall_of_forall_of_flip
    (R := fun left right => left.base + left.size < right.base ∨ right.base + right.size < left.base ∨ left = right)
    (fun _ _ => .inr (.inr rfl)) (divided.spaced.pairwise.imp .inl)
    (divided.spaced.pairwise.imp fun gap => .inr (.inl gap)) listed among
  rcases pairs with gap | gap | rfl <;> omega

theorem run_of_entry {entry : Range} (listed : entry ∈ block.freeBlocks.entries)
    (fits : size ≤ entry.size) : block.FreeRun size := by
  refine ⟨entry.base, fun offset inside => ⟨entry, listed, ?_⟩⟩
  rw [Range.window, Window.mem_mk]
  omega

theorem le_roundedUp (positive : 0 < block.chunkSize) (size : Nat) : max size 1 ≤ block.roundedUp size := by
  have rest := Nat.mod_lt (max size 1 + block.chunkSize - 1) positive
  have parts := Nat.div_add_mod (max size 1 + block.chunkSize - 1) block.chunkSize
  rw [mul_comm] at parts
  unfold roundedUp
  omega

theorem roundedUp_le (positive : 0 < block.chunkSize) {bytes : Nat}
    (whole : block.chunkSize ∣ bytes) (enough : max size 1 ≤ bytes) : block.roundedUp size ≤ bytes := by
  obtain ⟨count, rfl⟩ := whole
  have few : (max size 1 + block.chunkSize - 1) / block.chunkSize < count + 1 := by
    rw [Nat.div_lt_iff_lt_mul positive, Nat.add_mul, Nat.mul_comm count]
    omega
  calc block.roundedUp size ≤ count * block.chunkSize := Nat.mul_le_mul_right _ (Nat.le_of_lt_succ few)
    _ = block.chunkSize * count := mul_comm _ _

theorem covering_leftOver (free : Range) (fits : size ≤ free.size) (place : Nat) :
    covering [⟨free.base, size⟩] place + covering (leftOver free size) place = covering [free] place := by
  obtain ⟨rest, total⟩ := Nat.exists_eq_add_of_le fits
  have cut := covering_cut free.base size rest place
  rw [← total] at cut
  rw [cut, leftOver]
  split_ifs with full
  · have none : rest = 0 := by omega
    rw [none, covering_empty]
    rfl
  · simp [total]

theorem spaced_leftOver {free : Range} {front rest : List Range} (spaced : Spaced (front ++ free :: rest))
    (fits : size ≤ free.size) : Spaced (front ++ (leftOver free size ++ rest)) := by
  unfold leftOver
  split_ifs with full
  · exact spaced.drop
  · exact spaced.shrink (Nat.le_add_right _ _) (by simp only; omega)

theorem Divided.reserve (divided : block.Divided) {front rest : List Range}
    {free : Range} (split : block.freeBlocks.entries = front ++ free :: rest)
    (chunks : block.chunkSize ∣ size) (fits : size ≤ free.size) :
    Divided
      { block with
        freeBlocks := ⟨front ++ (leftOver free size ++ rest)⟩
        reservedBlocks := block.reservedBlocks.insert ⟨free.base, size⟩ false } := by
  have listed : free ∈ block.freeBlocks.entries := split ▸ mem_append_right _ mem_cons_self
  have perm := block.reservedBlocks.insert_false ⟨free.base, size⟩
  have inside := divided.inside free (mem_append_left _ listed)
  have whole := divided.chunks free (mem_append_left _ listed)
  -- An entry afterwards is an old one, the reserved range, or what is left of the free range.
  have kinds : ∀ entry ∈ front ++ (leftOver free size ++ rest) ++
      (block.reservedBlocks.insert ⟨free.base, size⟩ false).entries,
      entry ∈ block.freeBlocks.entries ++ block.reservedBlocks.entries ∨ entry = ⟨free.base, size⟩ ∨
        entry = ⟨free.base + size, free.size - size⟩ := by
    intro entry member
    unfold leftOver at member
    split_ifs at member <;> grind
  exact
    { positive := divided.positive
      narrow := divided.narrow
      spaced := spaced_leftOver (split ▸ divided.spaced) fits
      nonempty := (laid_leftOver (split ▸ divided.laid) fits).nonempty
      inside := by
        intro entry member
        rcases kinds entry member with old | rfl | rfl
        · exact divided.inside entry old
        · exact ⟨inside.1, by simp only; omega⟩
        · exact ⟨by simp only; omega, by simp only; omega⟩
      chunks := by
        intro entry member
        rcases kinds entry member with old | rfl | rfl
        · exact divided.chunks entry old
        · exact ⟨chunks, whole.2⟩
        · refine ⟨Nat.dvd_sub whole.1 chunks, ?_⟩
          rw [show free.base + size - block.range.base = free.base - block.range.base + size by omega]
          exact Nat.dvd_add whole.2 chunks
      sorted := RangeVector.insert_sorted divided.sorted _
      once := by
        intro place
        dsimp only
        have old := divided.once place
        have cut := covering_leftOver free fits place
        rw [split, covering_append, covering_append, covering_cons free rest] at old
        rw [covering_append, covering_append, covering_append, covering_perm perm,
          covering_cons ⟨free.base, size⟩ block.reservedBlocks.entries]
        omega }

theorem chunks_le (positive : 0 < block.chunkSize) {bytes : Nat}
    (whole : block.chunkSize ∣ bytes) (enough : max size 1 ≤ bytes) :
    block.calculateChunksNeededForSize (max size 1) * block.chunkSize ≤ bytes := by
  have wrapped : (max size 1 + block.chunkSize + (2 ^ 32 - 1)) % 2 ^ 32 ≤ max size 1 + block.chunkSize - 1 := by
    rw [show max size 1 + block.chunkSize + (2 ^ 32 - 1) = max size 1 + block.chunkSize - 1 + 2 ^ 32 by omega,
      Nat.add_mod_right]
    exact Nat.mod_le _ _
  calc block.calculateChunksNeededForSize (max size 1) * block.chunkSize
      ≤ block.roundedUp size := Nat.mul_le_mul_right _ (Nat.div_le_div_right wrapped)
    _ ≤ bytes := roundedUp_le positive whole enough

variable (divided : block.Divided)
include divided

theorem Divided.reserveBlock (size : Nat) : (block.reserveBlock size = (invalidAddress, block) ∧
      ∀ entry ∈ block.freeBlocks.entries, entry.size < max size 1) ∨
    ∃ address next, block.reserveBlock size = (address, next) ∧ address ≠ invalidAddress ∧ next.Divided ∧
      next.range = block.range ∧ ∃ entry ∈ block.freeBlocks.entries, max size 1 ≤ entry.size := by
  rcases block.reserveBlock_cases size with nothing | ⟨front, free, rest, split, big, taken⟩
  · exact .inl nothing
  · right
    have listed : free ∈ block.freeBlocks.entries := split ▸ mem_append_right _ mem_cons_self
    have inside := divided.inside free (mem_append_left _ listed)
    have whole := (divided.chunks free (mem_append_left _ listed)).1
    have fits := chunks_le divided.positive whole big
    have reach := divided.narrow.fits
    have small := divided.narrow.size
    have valid : free.base ≠ invalidAddress := by
      unfold invalidAddress
      omega
    exact ⟨_, _, taken _ rfl fits (by omega) (by omega), valid, divided.reserve split (dvd_mul_left _ _) fits, rfl,
      free, listed, big⟩

theorem Divided.freeBlock (address : Nat) :
    (block.freeBlock address).2.Divided ∧ (block.freeBlock address).2.range = block.range := by
  rcases block.freeBlock_cases address with nothing | ⟨index, entry, given, contains, perm⟩
  · rw [nothing]
    exact ⟨divided, rfl⟩
  · have member : entry ∈ block.reservedBlocks.entries := perm.mem_iff.mpr mem_cons_self
    have inside := divided.inside entry (mem_append_right _ member)
    have some_ : 0 < entry.size := by
      rw [Range.contains, Bool.and_eq_true, decide_eq_true_eq, decide_eq_true_eq, Range.rangeEnd] at contains
      omega
    have apart (free : Range) (among : free ∈ block.freeBlocks.entries) : entry.window.Apart free.window :=
      Window.Apart.symm ((pairwise_append.mp divided.partitioned.disjoint).2.2 free among entry member)
    have laid := RangeVector.laid_insert divided.laid some_ inside apart
    have joins := RangeVector.insert_joins divided.narrow laid
    have after := laid.joins joins
    have split := take_append_drop (block.freeBlocks.lowerBound entry) block.freeBlocks.entries
    have old (other : Range) (left : other ∈ (block.reservedBlocks.removeEntryAtIndex index).entries) :
        other ∈ block.reservedBlocks.entries := perm.mem_iff.mpr (mem_cons_of_mem _ left)
    rw [given]
    refine ⟨?_, rfl⟩
    exact
      { positive := divided.positive
        narrow := divided.narrow
        spaced := RangeVector.insert_spaced divided.narrow divided.spaced laid
        nonempty := after.nonempty
        inside := by
          rw [forall_mem_append]
          exact ⟨after.inside, fun other left => divided.inside other (mem_append_right _ (old other left))⟩
        chunks := by
          have chunks := divided.chunks
          rw [forall_mem_append, ← split, forall_mem_append] at chunks
          have placed := joins.size (forall_mem_append.mpr ⟨fun other front => (chunks.1.1 other front).1,
            forall_mem_cons.mpr ⟨(chunks.2 entry member).1, fun other back => (chunks.1.2 other back).1⟩⟩)
          have based := @Joins.base _ _ joins (fun base => block.chunkSize ∣ base - block.range.base)
            (forall_mem_append.mpr ⟨fun other front => (chunks.1.1 other front).2,
              forall_mem_cons.mpr ⟨(chunks.2 entry member).2, fun other back => (chunks.1.2 other back).2⟩⟩)
          rw [forall_mem_append]
          exact ⟨fun free among => ⟨placed free among, based free among⟩,
            fun other left => chunks.2 other (old other left)⟩
        sorted := divided.sorted.sublist (eraseIdx_sublist _ _)
        once := by
          intro place
          dsimp only
          have before := divided.once place
          rw [covering_append, covering_perm perm, covering_cons entry, ← split, covering_append] at before
          rw [covering_append, joins.covering, covering_append, covering_cons entry (drop _ _)]
          omega }

theorem Divided.serves : block.Serves := by
  intro size _
  rcases divided.reserveBlock size with ⟨failed, small⟩ | ⟨address, next, served, valid, -, -, entry, listed, big⟩
  · rw [failed]
    refine iff_of_true rfl fun run => ?_
    have enough := le_roundedUp divided.positive size
    obtain ⟨entry, listed, fits⟩ := divided.run_within (by omega) run
    have := small entry listed
    omega
  · rw [served]
    have whole := (divided.chunks entry (mem_append_left _ listed)).1
    refine iff_of_false valid fun none => none ?_
    exact run_of_entry listed (roundedUp_le divided.positive whole big)

theorem Divided.after (call : Call) : (block.after call).Divided ∧ (block.after call).range = block.range := by
  cases call with
  | reserveBlock size =>
    change (block.reserveBlock (size % 2 ^ 32)).2.Divided ∧ (block.reserveBlock (size % 2 ^ 32)).2.range = block.range
    rcases divided.reserveBlock (size % 2 ^ 32) with ⟨failed, -⟩ | ⟨address, next, served, -, kept, same, -⟩
    · rw [failed]
      exact ⟨divided, rfl⟩
    · rw [served]
      exact ⟨kept, same⟩
  | freeBlock address => exact divided.freeBlock address

theorem Divided.afterAll (calls : List Call) :
    (block.afterAll calls).Divided ∧ (block.afterAll calls).range = block.range := by
  induction calls generalizing block with
  | nil => exact ⟨divided, rfl⟩
  | cons call rest ih =>
    obtain ⟨kept, same⟩ := divided.after call
    obtain ⟨later, range⟩ := ih kept
    exact ⟨later, range.trans same⟩

omit divided

theorem new_eq (narrow : byteSize < 2 ^ 32) (address permissions chunkSize : Nat) :
    new address byteSize permissions chunkSize =
      ⟨⟨address, byteSize⟩, permissions, chunkSize, ⟨[⟨address, byteSize⟩]⟩, ⟨[]⟩⟩ := by
  rw [new, Nat.mod_eq_of_lt narrow]
  rfl

theorem new_divided {address permissions : Nat} (whole : chunkSize ∣ byteSize)
    (several : chunkSize < byteSize) (narrow : byteSize < 2 ^ 32) (fits : address + byteSize < 2 ^ 64) :
    (new address byteSize permissions chunkSize).Divided := by
  rw [new_eq narrow]
  refine ⟨Nat.pos_of_dvd_of_pos whole (by omega), ⟨fits, narrow⟩, isChain_singleton _, ?_, ?_, ?_, .nil,
    fun place => rfl⟩
  · exact forall_mem_singleton.mpr (Nat.lt_of_le_of_lt (Nat.zero_le _) several)
  · exact forall_mem_singleton.mpr ⟨le_refl _, le_refl _⟩
  · refine forall_mem_singleton.mpr ⟨whole, ?_⟩
    rw [Nat.sub_self]
    exact Nat.dvd_zero _

theorem new_reserveBlock (positive : 0 < chunkSize)
    (several : chunkSize < byteSize) (narrow : byteSize < 2 ^ 32) (address permissions : Nat) :
    (new address byteSize permissions chunkSize).after (.reserveBlock 1) =
      ⟨⟨address, byteSize⟩, permissions, chunkSize, ⟨[⟨(address + chunkSize) % 2 ^ 64, byteSize - chunkSize⟩]⟩,
        ⟨[⟨address, chunkSize⟩]⟩⟩ := by
  have count : (1 + chunkSize + (2 ^ 32 - 1)) % 2 ^ 32 = chunkSize := by omega
  have left : (byteSize + 2 ^ 64 - chunkSize) % 2 ^ 64 = byteSize - chunkSize := by omega
  have some_ : ¬ byteSize < 1 := by omega
  have rest : byteSize - chunkSize ≠ 0 := by omega
  have chunk : chunkSize % 2 ^ 32 = chunkSize := Nat.mod_eq_of_lt (by omega)
  have restFits : (byteSize - chunkSize) % 2 ^ 32 = byteSize - chunkSize := Nat.mod_eq_of_lt (by omega)
  rw [new_eq narrow]
  change (reserveBlock _ 1).2 = _
  simp only [reserveBlock, calculateChunksNeededForSize, if_neg one_ne_zero, takeWhile_cons,
    dropWhile_cons, some_, decide_false, Bool.false_eq_true, if_false, count, Nat.div_self positive,
    one_mul, left, if_neg rest, chunk, restFits]
  rfl

/-- The release of that chunk, when the end of the rest wraps. -/
theorem freeBlock_of_top {address : Nat} (positive : 0 < chunkSize)
    (narrow : byteSize < 2 ^ 32) (top : 2 ^ 64 ≤ address + byteSize) (fits : address + chunkSize < 2 ^ 64)
    (permissions : Nat) :
    after ⟨⟨address, byteSize⟩, permissions, chunkSize, ⟨[⟨(address + chunkSize) % 2 ^ 64, byteSize - chunkSize⟩]⟩,
        ⟨[⟨address, chunkSize⟩]⟩⟩ (.freeBlock address) =
      ⟨⟨address, byteSize⟩, permissions, chunkSize,
        ⟨[⟨address, chunkSize⟩, ⟨address + chunkSize, byteSize - chunkSize⟩]⟩, ⟨[]⟩⟩ := by
  have base : (address + chunkSize) % 2 ^ 64 = address + chunkSize := Nat.mod_eq_of_lt fits
  have found : RangeVector.findEntryIndexThatContains (⟨[⟨address, chunkSize⟩]⟩ : RangeVector 32) address = some 0 := by
    have inside : Range.contains ⟨address, chunkSize⟩ address = true := by
      rw [Range.contains, Range.rangeEnd, Bool.and_eq_true, decide_eq_true_eq, decide_eq_true_eq]
      dsimp only
      omega
    simp [RangeVector.findEntryIndexThatContains, inside]
  have behind : ¬ Range.lt ⟨address + chunkSize, byteSize - chunkSize⟩ ⟨address, chunkSize⟩ = true := by
    rw [Range.lt_iff]
    dsimp only
    omega
  have apart : Range.union 32 ⟨address + chunkSize, byteSize - chunkSize⟩ ⟨address, chunkSize⟩ = none := by
    unfold Range.union Range.doesAdjoinOrIntersect Range.rangeEnd
    simp
    omega
  change (freeBlock _ address).2 = _
  rw [base]
  simp [freeBlock, found, RangeVector.insert, RangeVector.lowerBound, behind, apart, RangeVector.getEntryRef,
    RangeVector.removeEntryAtIndex]

/-- In a block that reaches the top of the address space, a chunk that is given back at once stays
apart from the rest. -/
theorem not_partitioned_of_top {address byteSize chunkSize : Nat} (positive : 0 < chunkSize)
    (several : chunkSize < byteSize) (narrow : byteSize < 2 ^ 32) (top : 2 ^ 64 ≤ address + byteSize)
    (permissions : Nat) : ∃ calls,
      ¬ ((new address byteSize permissions chunkSize).afterAll calls).Partitioned := by
  have first := new_reserveBlock positive several narrow address permissions
  have second (fits : address + chunkSize < 2 ^ 64) := freeBlock_of_top positive narrow top fits permissions
  by_cases fits : address + chunkSize < 2 ^ 64
  · refine ⟨[.reserveBlock 1, .freeBlock address], fun partitioned => ?_⟩
    have released := second fits
    rw [afterAll, foldl_cons, foldl_cons, first, released] at partitioned
    exact partitioned.coalesced ⟨address, chunkSize⟩ mem_cons_self
      ⟨address + chunkSize, byteSize - chunkSize⟩ (.tail _ mem_cons_self) rfl
  · refine ⟨[.reserveBlock 1], fun partitioned => ?_⟩
    rw [afterAll, foldl_cons, foldl_nil, first] at partitioned
    obtain ⟨entry, listed, there⟩ := (partitioned.covers (address + chunkSize)).mpr (by
      rw [Range.window, Window.mem_mk]
      dsimp only
      omega)
    rcases mem_cons.mp listed with rfl | reserved
    · have reach := there.2
      simp only [Range.window] at reach
      omega
    · cases mem_singleton.mp reserved
      exact lt_irrefl _ there.2

/-- The block stays divided over all orders of calls just if it ends below the top of the address
space. That it has several chunks is asserted by its constructor. -/
theorem partitioned_iff (address permissions : Nat) {byteSize chunkSize : Nat} (whole : chunkSize ∣ byteSize)
    (several : chunkSize < byteSize) (narrow : byteSize < 2 ^ 32) :
    (∀ calls, ((new address byteSize permissions chunkSize).afterAll calls).range = ⟨address, byteSize⟩ ∧
      ((new address byteSize permissions chunkSize).afterAll calls).Partitioned ∧
      ((new address byteSize permissions chunkSize).afterAll calls).Serves) ↔
    address + byteSize < 2 ^ 64 := by
  constructor
  · intro kept
    by_contra top
    have positive : 0 < chunkSize := Nat.pos_of_dvd_of_pos whole (by omega)
    obtain ⟨calls, torn⟩ :=
      not_partitioned_of_top positive several narrow (Nat.le_of_not_lt top) permissions
    exact torn (kept calls).2.1
  · intro fits calls
    have start : (new address byteSize permissions chunkSize).Divided := new_divided whole several narrow fits
    obtain ⟨divided, range⟩ := start.afterAll calls
    refine ⟨range.trans ?_, divided.partitioned, divided.serves⟩
    rw [new_eq narrow]

theorem partitioned_iff_page : (∀ calls, ((new 0x10000 0x1000 3 16).afterAll calls).range = ⟨0x10000, 0x1000⟩ ∧
      ((new 0x10000 0x1000 3 16).afterAll calls).Partitioned ∧
      ((new 0x10000 0x1000 3 16).afterAll calls).Serves) ↔ 0x10000 + 0x1000 < 2 ^ 64 :=
  partitioned_iff 0x10000 3 (by decide) (by decide) (by decide)

/-- A page at the top of the address space. -/
theorem top_not_partitioned : ¬ ∀ calls, ((new (2 ^ 64 - 4096) 4096 3 16).afterAll calls).Partitioned := by
  intro kept
  obtain ⟨calls, torn⟩ := @not_partitioned_of_top (2 ^ 64 - 4096) 4096 16 (by decide) (by decide) (by decide) (by decide) 3
  exact torn (kept calls)

end AllocatedBlock

end Lldb
