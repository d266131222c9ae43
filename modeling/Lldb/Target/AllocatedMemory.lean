import Lldb.Core.RangeVector

/-! `AllocatedMemoryCache`: blocks of pages obtained from the process, cut into chunks that
are handed out and taken back.

Assertions are not modelled, so a block without bytes can be built; nor are `Clear` and
the log. What the process has allocated so far is passed along with the cache.
-/

set_option autoImplicit false

namespace Lldb

open Library (Window)
open List

structure AllocatedBlock where
  range : Range
  permissions : Nat
  chunkSize : Nat
  freeBlocks : RangeVector 32
  reservedBlocks : RangeVector 32
  deriving DecidableEq, Repr

namespace AllocatedBlock

def new (address byteSize permissions chunkSize : Nat) : AllocatedBlock where
  range := ⟨address, byteSize % 2 ^ 32⟩
  permissions := permissions
  chunkSize := chunkSize
  freeBlocks := RangeVector.append ⟨[]⟩ ⟨address, byteSize % 2 ^ 32⟩
  reservedBlocks := ⟨[]⟩

def calculateChunksNeededForSize (block : AllocatedBlock) (size : Nat) : Nat :=
  (size + block.chunkSize + (2 ^ 32 - 1)) % 2 ^ 32 / block.chunkSize

/-- The address of the first free block that is big enough, cut to whole chunks. -/
def reserveBlock (block : AllocatedBlock) (size : Nat) : Nat × AllocatedBlock :=
  let size := if size = 0 then 1 else size
  let skipped := block.freeBlocks.entries.takeWhile (·.size < size)
  match block.freeBlocks.entries.dropWhile (·.size < size) with
  | [] => (invalidAddress, block)
  | freeBlock :: rest =>
      let blockSize := block.calculateChunksNeededForSize size * block.chunkSize
      let bytesLeft := (freeBlock.size + 2 ^ 64 - blockSize) % 2 ^ 64
      if bytesLeft = 0 then
        (freeBlock.base, { block with
            freeBlocks := ⟨skipped ++ rest⟩
            reservedBlocks := block.reservedBlocks.insert freeBlock false })
      else
        let reservedBlock : Range := ⟨freeBlock.base, blockSize % 2 ^ 32⟩
        (freeBlock.base, { block with
            freeBlocks := ⟨skipped ++ ⟨reservedBlock.rangeEnd, bytesLeft % 2 ^ 32⟩ :: rest⟩
            reservedBlocks := block.reservedBlocks.insert reservedBlock false })

def freeBlock (block : AllocatedBlock) (address : Nat) : Bool × AllocatedBlock :=
  match block.reservedBlocks.findEntryIndexThatContains address with
  | none => (false, block)
  | some index =>
      (true, { block with
          freeBlocks := block.freeBlocks.insert (block.reservedBlocks.getEntryRef index) true
          reservedBlocks := block.reservedBlocks.removeEntryAtIndex index })

end AllocatedBlock

abbrev Regions := List (Nat × Window)

/-- `DoAllocateMemory`: the process answers with an address and has the region from then on, or
answers with the invalid address. -/
def doAllocateMemory (answer : Nat → Nat → Nat) (regions : Regions) (size permissions : Nat) : Nat × Regions :=
  let address := answer size permissions
  (address, if address = invalidAddress then regions else (permissions, ⟨address, size⟩) :: regions)

structure AllocatedMemoryCache where
  memoryMap : List (Nat × AllocatedBlock)
  deriving DecidableEq, Repr

namespace AllocatedMemoryCache

variable (cache : AllocatedMemoryCache)

def insertBlock (permissions : Nat) (block : AllocatedBlock) : AllocatedMemoryCache :=
  ⟨cache.memoryMap.takeWhile (·.1 ≤ permissions) ++ (permissions, block) ::
    cache.memoryMap.dropWhile (·.1 ≤ permissions)⟩

/-- A new block of whole pages for a size of 32 bits; the number of pages has 64. -/
def allocatePage (answer : Nat → Nat → Nat) (regions : Regions) (byteSize permissions chunkSize : Nat) :
    Option AllocatedBlock × Regions :=
  let pageByteSize := (byteSize + 4096 - 1) / 4096 * 4096
  let (address, regions) := doAllocateMemory answer regions pageByteSize permissions
  if address = invalidAddress then (none, regions)
  else (some (.new address pageByteSize permissions chunkSize), regions)

def reserveIn (size permissions : Nat) : List (Nat × AllocatedBlock) → Nat × List (Nat × AllocatedBlock)
  | [] => (invalidAddress, [])
  | (key, block) :: rest =>
      let (address, reserved) :=
        if key = permissions then block.reserveBlock size else (invalidAddress, block)
      if address = invalidAddress then
        let (address, rest) := reserveIn size permissions rest
        (address, (key, reserved) :: rest)
      else (address, (key, reserved) :: rest)

/-- Sizes are cut to 32 bits by the calls. The map and the caller share a new block. -/
def allocateMemory (answer : Nat → Nat → Nat) (regions : Regions)
    (byteSize permissions : Nat) : Nat × AllocatedMemoryCache × Regions :=
  let (address, memoryMap) := reserveIn (byteSize % 2 ^ 32) permissions cache.memoryMap
  if address = invalidAddress then
    match allocatePage answer regions (byteSize % 2 ^ 32) permissions 16 with
    | (none, regions) => (invalidAddress, ⟨memoryMap⟩, regions)
    | (some block, regions) =>
        let (address, block) := block.reserveBlock (byteSize % 2 ^ 32)
        (address, insertBlock ⟨memoryMap⟩ permissions block, regions)
  else (address, ⟨memoryMap⟩, regions)

def freeIn (address : Nat) : List (Nat × AllocatedBlock) → Bool × List (Nat × AllocatedBlock)
  | [] => (false, [])
  | (key, block) :: rest =>
      if block.range.contains address then
        let (success, block) := block.freeBlock address
        (success, (key, block) :: rest)
      else
        let (success, rest) := freeIn address rest
        (success, (key, block) :: rest)

def deallocateMemory (address : Nat) : Bool × AllocatedMemoryCache :=
  let (success, memoryMap) := freeIn address cache.memoryMap
  (success, ⟨memoryMap⟩)

end AllocatedMemoryCache

namespace AllocatedBlock

def chunked (size : Nat) : Nat := (max size 1 + 15) / 16 * 16

structure Vacant (block : AllocatedBlock) : Prop where
  size : block.range.size = 0
  free : ∀ entry ∈ block.freeBlocks.entries, entry.size = 0
  reserved : block.reservedBlocks.entries = []

/-- The free and the reserved blocks are whole chunks of the range, and do not overlap. -/
structure Tiled (block : AllocatedBlock) : Prop where
  chunkSize : block.chunkSize = 16
  fits : block.range.base + block.range.size ≤ 2 ^ 64
  size : block.range.size < 2 ^ 32
  free : Laid block.range block.freeBlocks.entries
  freeChunks : ∀ entry ∈ block.freeBlocks.entries, 16 ∣ entry.size
  reserved : ∀ entry ∈ block.reservedBlocks.entries,
    block.range.base ≤ entry.base ∧ entry.base + entry.size ≤ block.range.base + block.range.size
  reservedChunks : ∀ entry ∈ block.reservedBlocks.entries, 0 < entry.size ∧ 16 ∣ entry.size
  parted : block.reservedBlocks.entries.Pairwise fun left right => left.window.Apart right.window
  cross : ∀ entry ∈ block.freeBlocks.entries, ∀ other ∈ block.reservedBlocks.entries,
    entry.window.Apart other.window

def Sound (block : AllocatedBlock) : Prop := block.Vacant ∨ block.Tiled

theorem new_sound {address byteSize permissions : Nat} (chunks : 16 ∣ byteSize)
    (fits : address + byteSize ≤ 2 ^ 64) : (AllocatedBlock.new address byteSize permissions 16).Sound := by
  have small : byteSize % 2 ^ 32 < 2 ^ 32 := Nat.mod_lt _ (by decide)
  by_cases empty : byteSize % 2 ^ 32 = 0
  · refine .inl ⟨empty, fun entry member => ?_, rfl⟩
    cases mem_singleton.mp member
    exact empty
  · refine .inr ⟨rfl, by simp only [AllocatedBlock.new]; omega, small, ⟨pairwise_singleton _ _, ?_, ?_⟩, ?_,
      nofun, nofun, .nil, fun _ _ => nofun⟩
    · intro entry member
      cases mem_singleton.mp member
      exact ⟨le_refl _, le_refl _⟩
    · intro entry member
      cases mem_singleton.mp member
      exact Nat.pos_of_ne_zero empty
    · intro entry member
      cases mem_singleton.mp member
      exact (Nat.dvd_mod_iff (show 16 ∣ 2 ^ 32 by decide)).mpr chunks

/-- What `ReserveBlock` and `FreeBlock` leave of a block. -/
structure SameRange (block next : AllocatedBlock) : Prop where
  range : next.range = block.range
  permissions : next.permissions = block.permissions

variable {block : AllocatedBlock} {size : Nat}

theorem chunks_of_size (chunkSize : block.chunkSize = 16) (fits : max size 1 + 15 < 2 ^ 32) :
    block.calculateChunksNeededForSize (max size 1) * block.chunkSize = chunked size := by
  rw [calculateChunksNeededForSize, chunkSize, chunked]
  omega

def leftOver (free : Range) (size : Nat) : List Range :=
  if size = free.size then [] else [⟨free.base + size, free.size - size⟩]

/-- A request finds nothing, or it reserves the front of the first free range that is long enough. -/
theorem reserveBlock_cases (block : AllocatedBlock) (size : Nat) : (block.reserveBlock size = (invalidAddress, block) ∧
      ∀ entry ∈ block.freeBlocks.entries, entry.size < max size 1) ∨
    ∃ front free rest, block.freeBlocks.entries = front ++ free :: rest ∧ max size 1 ≤ free.size ∧
      ∀ blockSize, block.calculateChunksNeededForSize (max size 1) * block.chunkSize = blockSize →
        blockSize ≤ free.size → free.size < 2 ^ 32 → free.base + free.size ≤ 2 ^ 64 →
        block.reserveBlock size = (free.base, { block with
            freeBlocks := ⟨front ++ (leftOver free blockSize ++ rest)⟩
            reservedBlocks := block.reservedBlocks.insert ⟨free.base, blockSize⟩ false }) := by
  have request : (if size = 0 then 1 else size) = max size 1 := by split_ifs <;> omega
  have parts := takeWhile_append_dropWhile (p := fun entry : Range => decide (entry.size < max size 1))
    (l := block.freeBlocks.entries)
  unfold AllocatedBlock.reserveBlock
  dsimp only
  rw [request]
  cases found : block.freeBlocks.entries.dropWhile (fun entry : Range => decide (entry.size < max size 1)) with
  | nil =>
    left
    rw [found, append_nil] at parts
    refine ⟨rfl, fun entry member => of_decide_eq_true ?_⟩
    exact mem_takeWhile_imp (p := fun entry : Range => decide (entry.size < max size 1)) (parts ▸ member)
  | cons free rest =>
    right
    rw [found] at parts
    have big : max size 1 ≤ free.size := by
      have stop := head?_dropWhile_not (fun entry : Range => decide (entry.size < max size 1))
        block.freeBlocks.entries
      rw [found] at stop
      exact Nat.le_of_not_lt (of_decide_eq_false stop)
    refine ⟨_, free, rest, parts.symm, big, fun blockSize whole fits small reach => ?_⟩
    dsimp only
    rw [whole]
    by_cases full : blockSize = free.size
    · have same : (⟨free.base, blockSize⟩ : Range) = free := by rw [full]
      rw [leftOver, if_pos full, same, if_pos (by omega)]
      rfl
    · have sizeFits : blockSize % 2 ^ 32 = blockSize := Nat.mod_eq_of_lt (by omega)
      have left : (free.size + 2 ^ 64 - blockSize) % 2 ^ 64 % 2 ^ 32 = free.size - blockSize := by omega
      have ends : Range.rangeEnd ⟨free.base, blockSize⟩ = free.base + blockSize :=
        Nat.mod_eq_of_lt (by simp only; omega)
      rw [leftOver, if_neg full, if_neg (by omega), sizeFits, left, ends]
      rfl

theorem laid_leftOver {region free : Range} {front rest : List Range} (laid : Laid region (front ++ free :: rest))
    (fits : size ≤ free.size) : Laid region (front ++ (leftOver free size ++ rest)) := by
  unfold leftOver
  split_ifs with full
  · exact laid.sublist ((sublist_cons_self free rest).append_left front)
  · exact laid.shrink (Nat.le_add_right _ _) (by simp only; omega) (by simp only; omega)

theorem Tiled.reserve (tiled : block.Tiled) {front rest : List Range}
    {free : Range} (split : block.freeBlocks.entries = front ++ free :: rest)
    (positive : 0 < size) (chunks : 16 ∣ size) (fits : size ≤ free.size) :
    Tiled
      { block with
        freeBlocks := ⟨front ++ (leftOver free size ++ rest)⟩
        reservedBlocks := block.reservedBlocks.insert ⟨free.base, size⟩ false } := by
  have listed : free ∈ block.freeBlocks.entries := split ▸ mem_append_right _ mem_cons_self
  have perm := block.reservedBlocks.insert_false ⟨free.base, size⟩
  have inside := tiled.free.inside free listed
  have within : Range.window ⟨free.base, size⟩ |>.Within free.window :=
    Range.within_of_le (le_refl _) (by simp only; omega)
  obtain ⟨-, tail, across⟩ := pairwise_append.mp (split ▸ tiled.free.chain)
  obtain ⟨behind, -⟩ := pairwise_cons.mp tail
  -- A free block of the new list is one of the old list beside `free`, or what is left of `free`.
  have kinds : ∀ entry ∈ front ++ (leftOver free size ++ rest),
      entry ∈ block.freeBlocks.entries ∧ entry.window.Apart (Range.window ⟨free.base, size⟩) ∨
      entry = ⟨free.base + size, free.size - size⟩ := by
    intro entry member
    simp only [mem_append] at member
    rcases member with before | left | after
    · exact .inl ⟨split ▸ mem_append_left _ before, Range.apart_of_le (across entry before free mem_cons_self)⟩
    · unfold leftOver at left
      split_ifs at left with full
      · cases left
      · exact .inr (mem_singleton.mp left)
    · refine .inl ⟨split ▸ mem_append_right _ (mem_cons_of_mem _ after), Window.Apart.symm ?_⟩
      have := behind entry after
      exact Range.apart_of_le (by simp only; omega)
  have partWithin : (Range.window ⟨free.base + size, free.size - size⟩).Within free.window :=
    Range.within_of_le (Nat.le_add_right _ _) (by simp only; omega)
  exact
    { chunkSize := tiled.chunkSize
      fits := tiled.fits
      size := tiled.size
      free := laid_leftOver (split ▸ tiled.free) fits
      freeChunks := by
        intro entry member
        rcases kinds entry member with ⟨old, -⟩ | rfl
        · exact tiled.freeChunks entry old
        · exact Nat.dvd_sub (tiled.freeChunks free listed) chunks
      reserved := by
        intro entry member
        rcases mem_cons.mp (perm.mem_iff.mp member) with rfl | old
        · exact ⟨inside.1, by simp only; omega⟩
        · exact tiled.reserved entry old
      reservedChunks := by
        intro entry member
        rcases mem_cons.mp (perm.mem_iff.mp member) with rfl | old
        · exact ⟨positive, chunks⟩
        · exact tiled.reservedChunks entry old
      parted := by
        refine (perm.pairwise_iff fun apart => apart.symm).mpr (pairwise_cons.mpr ⟨?_, tiled.parted⟩)
        exact fun other old => (tiled.cross free listed other old).mono within
      cross := by
        intro entry member other reserved
        rcases mem_cons.mp (perm.mem_iff.mp reserved) with rfl | old
        · rcases kinds entry member with ⟨-, apart⟩ | rfl
          · exact apart
          · exact (Range.apart_of_le (le_refl _)).symm
        · rcases kinds entry member with ⟨listed, -⟩ | rfl
          · exact tiled.cross entry listed other old
          · exact (tiled.cross free listed other old).mono partWithin }

theorem Tiled.reserveBlock (tiled : block.Tiled) (narrow : size < 2 ^ 32) :
    block.reserveBlock size = (invalidAddress, block) ∨
      ∃ address next, block.reserveBlock size = (address, next) ∧ address ≠ invalidAddress ∧ next.Tiled ∧
        block.SameRange next ∧
        next.reservedBlocks.entries.Perm (⟨address, chunked size⟩ :: block.reservedBlocks.entries) := by
  rcases block.reserveBlock_cases size with ⟨nothing, -⟩ | ⟨front, free, rest, split, big, taken⟩
  · exact .inl nothing
  · right
    have listed : free ∈ block.freeBlocks.entries := split ▸ mem_append_right _ mem_cons_self
    have inside := tiled.free.inside free listed
    obtain ⟨chunks, whole⟩ := tiled.freeChunks free listed
    have small := tiled.size
    have reach := tiled.fits
    have fits : chunked size ≤ free.size := by
      unfold chunked
      omega
    have positive : 0 < chunked size := by
      unfold chunked
      omega
    have divides : 16 ∣ chunked size := ⟨_, mul_comm _ _⟩
    have blockSize := chunks_of_size tiled.chunkSize (show max size 1 + 15 < 2 ^ 32 by omega)
    have valid : free.base ≠ invalidAddress := by
      unfold invalidAddress
      omega
    exact ⟨_, _, taken _ blockSize fits (by omega) (by omega), valid, tiled.reserve split positive divides fits,
      ⟨rfl, rfl⟩, block.reservedBlocks.insert_false ⟨free.base, chunked size⟩⟩

theorem freeBlock_cases (block : AllocatedBlock) (address : Nat) : block.freeBlock address = (false, block) ∨
      ∃ index entry, block.freeBlock address = (true, { block with
            freeBlocks := block.freeBlocks.insert entry true
            reservedBlocks := block.reservedBlocks.removeEntryAtIndex index }) ∧
        entry.contains address = true ∧
        block.reservedBlocks.entries.Perm (entry :: (block.reservedBlocks.removeEntryAtIndex index).entries) := by
  unfold freeBlock
  cases found : block.reservedBlocks.findEntryIndexThatContains address with
  | none => exact .inl rfl
  | some index =>
    right
    obtain ⟨entry, listed, contains⟩ := RangeVector.findEntryIndexThatContains_spec found
    have reference : block.reservedBlocks.getEntryRef index = entry := by
      simp [RangeVector.getEntryRef, listed]
    dsimp only
    rw [reference]
    exact ⟨index, entry, rfl, contains, RangeVector.removeEntryAtIndex_perm listed⟩

theorem Tiled.freeBlock (tiled : block.Tiled) (address : Nat) (fits : block.range.base + block.range.size < 2 ^ 64) :
    block.freeBlock address = (false, block) ∨
      ∃ entry next, block.freeBlock address = (true, next) ∧ next.Tiled ∧ block.SameRange next ∧
        address ∈ entry.window ∧ block.reservedBlocks.entries.Perm (entry :: next.reservedBlocks.entries) := by
  rcases block.freeBlock_cases address with nothing | ⟨index, entry, given, contains, perm⟩
  · exact .inl nothing
  · right
    have member : entry ∈ block.reservedBlocks.entries := perm.mem_iff.mpr mem_cons_self
    have inside := tiled.reserved entry member
    have window : address ∈ entry.window := by
      rw [Range.contains, Bool.and_eq_true, decide_eq_true_eq, decide_eq_true_eq, Range.rangeEnd,
        Nat.mod_eq_of_lt (by omega)] at contains
      exact contains
    have laid := RangeVector.laid_insert tiled.free (tiled.reservedChunks entry member).1 inside
      fun other free => (tiled.cross other free entry member).symm
    have joins := RangeVector.insert_joins ⟨fits, tiled.size⟩ laid
    obtain ⟨alone, parted⟩ := pairwise_cons.mp ((perm.pairwise_iff fun apart => apart.symm).mp tiled.parted)
    have old (other : Range) (left : other ∈ (block.reservedBlocks.removeEntryAtIndex index).entries) :
        other ∈ block.reservedBlocks.entries := perm.mem_iff.mpr (mem_cons_of_mem _ left)
    have split := take_append_drop (block.freeBlocks.lowerBound entry) block.freeBlocks.entries
    refine ⟨entry, _, given, ?_, ⟨rfl, rfl⟩, window, perm⟩
    exact
      { chunkSize := tiled.chunkSize
        fits := tiled.fits
        size := tiled.size
        free := laid.joins joins
        freeChunks := by
          refine joins.size ?_
          have chunks := tiled.freeChunks
          rw [← split, forall_mem_append] at chunks
          rw [forall_mem_append, forall_mem_cons]
          exact ⟨chunks.1, (tiled.reservedChunks entry member).2, chunks.2⟩
        reserved := fun other left => tiled.reserved other (old other left)
        reservedChunks := fun other left => tiled.reservedChunks other (old other left)
        parted := parted
        cross := by
          intro free listed other left place inFree inOther
          obtain ⟨source, among, covers⟩ := joins.covered ⟨free, listed, inFree⟩
          rw [mem_append, mem_cons] at among
          rcases among with before | rfl | after
          · exact tiled.cross source (mem_of_mem_take before) other (old other left) place covers inOther
          · exact alone other left place covers inOther
          · exact tiled.cross source (mem_of_mem_drop after) other (old other left) place covers inOther }

end AllocatedBlock

end Lldb
