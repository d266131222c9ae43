import Lldb.Target.AllocatedMemory

/-! `AllocatedMemoryCache` over runs of allocations and deallocations.

An allocation is live from the call that returns its address until an address in its chunks
is given back.
-/

set_option autoImplicit false

namespace Lldb

open Library (Window)
open List

structure Allocated where
  address : Nat
  byteSize : Nat
  permissions : Nat
  deriving DecidableEq, Repr

namespace Allocated

def range (allocated : Allocated) : Window := ⟨allocated.address, max allocated.byteSize 1⟩

def chunks (allocated : Allocated) : Range := ⟨allocated.address, AllocatedBlock.chunked allocated.byteSize⟩

theorem range_within_chunks (allocated : Allocated) : allocated.range.Within allocated.chunks.window :=
  Window.within_iff.mpr (.inr ⟨le_refl _, by
    simp only [range, chunks, Range.window, AllocatedBlock.chunked]
    omega⟩)

end Allocated

namespace AllocatedMemoryCache

/-- What the process promises: regions of whole pages below the end of the address space, apart from
those it has allocated before. -/
def Promised (answer : Nat → Nat → Nat) (regions : Regions) : Prop :=
  ∀ size permissions, answer size permissions ≠ invalidAddress →
    4096 ∣ answer size permissions ∧ answer size permissions + size ≤ 2 ^ 64 ∧
      ∀ region ∈ regions, (⟨answer size permissions, size⟩ : Window).Apart region.2

/-- The blocks are sound and apart from each other, and lie in regions of their permissions. -/
structure Sound (memoryMap : List (Nat × AllocatedBlock)) (regions : Regions) : Prop where
  block : ∀ entry ∈ memoryMap, entry.2.Sound ∧ entry.2.permissions = entry.1
  apart : (memoryMap.map fun entry => entry.2.range.window).Pairwise Window.Apart
  region : ∀ entry ∈ memoryMap, ∃ region ∈ regions, region.1 = entry.1 ∧ entry.2.range.window.Within region.2

/-- The chunks that the blocks have reserved, each with the permissions of its block. -/
def claims (memoryMap : List (Nat × AllocatedBlock)) : List (Nat × Range) :=
  memoryMap.flatMap fun entry => entry.2.reservedBlocks.entries.map (entry.1, ·)

variable {memoryMap next : List (Nat × AllocatedBlock)}

theorem mem_claims {claim : Nat × Range} :
    claim ∈ claims memoryMap ↔ ∃ block, (claim.1, block) ∈ memoryMap ∧ claim.2 ∈ block.reservedBlocks.entries := by
  simp only [claims, mem_flatMap, mem_map]
  constructor
  · rintro ⟨⟨key, block⟩, listed, range, reserved, rfl⟩
    exact ⟨block, listed, reserved⟩
  · rintro ⟨block, listed, reserved⟩
    exact ⟨(claim.1, block), listed, claim.2, reserved, rfl⟩

theorem Sound.tiled {memoryMap : List (Nat × AllocatedBlock)} {regions : Regions} (sound : Sound memoryMap regions)
    {entry : Nat × AllocatedBlock} (member : entry ∈ memoryMap) {range : Range}
    (reserved : range ∈ entry.2.reservedBlocks.entries) : entry.2.Tiled := by
  rcases (sound.block entry member).1 with vacant | tiled
  · rw [vacant.reserved] at reserved
    cases reserved
  · exact tiled

theorem Sound.claims_apart {regions : Regions} (sound : Sound memoryMap regions) :
    (claims memoryMap).Pairwise fun left right => left.2.window.Apart right.2.window := by
  refine pairwise_flatMap.mpr ⟨fun entry member => ?_, ?_⟩
  · rw [pairwise_map]
    rcases (sound.block entry member).1 with vacant | tiled
    · rw [vacant.reserved]
      exact .nil
    · exact tiled.parted
  · refine (pairwise_map.mp sound.apart).imp_of_mem fun {left right} inLeft inRight apart => ?_
    intro claim claimed other otherClaimed
    obtain ⟨range, reserved, rfl⟩ := mem_map.mp claimed
    obtain ⟨otherRange, otherReserved, rfl⟩ := mem_map.mp otherClaimed
    have within := (sound.tiled inLeft reserved).reserved range reserved
    have otherWithin := (sound.tiled inRight otherReserved).reserved otherRange otherReserved
    exact ((apart.mono (Range.within_of_le within.1 within.2)).symm.mono
      (Range.within_of_le otherWithin.1 otherWithin.2)).symm

structure Replaced (memoryMap next : List (Nat × AllocatedBlock)) (key : Nat) (block result : AllocatedBlock) :
    Prop where
  place : ∃ front back, memoryMap = front ++ (key, block) :: back ∧ next = front ++ (key, result) :: back
  same : block.SameRange result
  tiled : result.Tiled

theorem Replaced.behind {key : Nat} {block result : AllocatedBlock}
    (replaced : Replaced memoryMap next key block result) (entry : Nat × AllocatedBlock) :
    Replaced (entry :: memoryMap) (entry :: next) key block result := by
  obtain ⟨⟨front, back, rfl, rfl⟩, same, tiled⟩ := replaced
  exact ⟨⟨entry :: front, back, rfl, rfl⟩, same, tiled⟩

theorem Replaced.sound {memoryMap next : List (Nat × AllocatedBlock)} {key : Nat} {block result : AllocatedBlock}
    {regions : Regions} (replaced : Replaced memoryMap next key block result) (sound : Sound memoryMap regions) :
    Sound next regions := by
  obtain ⟨⟨front, back, rfl, rfl⟩, ⟨range, permissions⟩, tiled⟩ := replaced
  obtain ⟨blocks, apart, region⟩ := sound
  rw [forall_mem_append, forall_mem_cons] at blocks region
  refine ⟨?_, ?_, ?_⟩
  · rw [forall_mem_append, forall_mem_cons]
    exact ⟨blocks.1, ⟨.inr tiled, permissions.trans blocks.2.1.2⟩, blocks.2.2⟩
  · rw [map_append, map_cons] at apart ⊢
    rw [range]
    exact apart
  · rw [forall_mem_append, forall_mem_cons, range]
    exact region

theorem Replaced.claims {key : Nat} {block result : AllocatedBlock}
    (replaced : Replaced memoryMap next key block result) :
    ∃ others, (claims memoryMap).Perm (block.reservedBlocks.entries.map (key, ·) ++ others) ∧
      (claims next).Perm (result.reservedBlocks.entries.map (key, ·) ++ others) := by
  obtain ⟨⟨front, back, rfl, rfl⟩, -, -⟩ := replaced
  refine ⟨AllocatedMemoryCache.claims front ++ AllocatedMemoryCache.claims back, ?_, ?_⟩ <;>
  · simp only [AllocatedMemoryCache.claims, flatMap_append]
    exact perm_append_comm_assoc _ _ _

end AllocatedMemoryCache

namespace AllocatedBlock

variable {block : AllocatedBlock}

theorem Vacant.reserveBlock (vacant : block.Vacant) (size : Nat) :
    block.reserveBlock size = (invalidAddress, block) := by
  have none : block.freeBlocks.entries.dropWhile
      (fun entry : Range => decide (entry.size < if size = 0 then 1 else size)) = [] := by
    refine dropWhile_eq_nil_iff.mpr fun entry member => ?_
    rw [vacant.free entry member, decide_eq_true_eq]
    split_ifs <;> omega
  simp [AllocatedBlock.reserveBlock, none]

theorem Sound.reserveBlock (sound : block.Sound) {size : Nat} (narrow : size < 2 ^ 32) :
    block.reserveBlock size = (invalidAddress, block) ∨
      ∃ address next, block.reserveBlock size = (address, next) ∧ address ≠ invalidAddress ∧ next.Tiled ∧
        block.SameRange next ∧
        next.reservedBlocks.entries.Perm (⟨address, chunked size⟩ :: block.reservedBlocks.entries) := by
  rcases sound with vacant | tiled
  · exact .inl (vacant.reserveBlock size)
  · exact tiled.reserveBlock narrow

theorem Vacant.not_contains (vacant : block.Vacant) (address : Nat) : block.range.contains address = false := by
  simp only [Range.contains, Range.rangeEnd, vacant.size, Bool.and_eq_false_iff, decide_eq_false_iff_not]
  omega

end AllocatedBlock

namespace AllocatedMemoryCache

/-- Asking blocks for chunks changes nothing, or reserves them in one block of the permissions. -/
def Reserves (size permissions : Nat) (memoryMap : List (Nat × AllocatedBlock))
    (outcome : Nat × List (Nat × AllocatedBlock)) : Prop :=
  outcome = (invalidAddress, memoryMap) ∨
    ∃ block result, outcome.1 ≠ invalidAddress ∧ Replaced memoryMap outcome.2 permissions block result ∧
      result.reservedBlocks.entries.Perm
        (⟨outcome.1, AllocatedBlock.chunked size⟩ :: block.reservedBlocks.entries)

theorem reserveIn_spec {size : Nat} (permissions : Nat) (narrow : size < 2 ^ 32) (memoryMap : List (Nat × AllocatedBlock))
    (sound : ∀ entry ∈ memoryMap, entry.2.Sound) :
    Reserves size permissions memoryMap (reserveIn size permissions memoryMap) := by
  induction memoryMap with
  | nil => exact .inl rfl
  | cons entry rest ih =>
    obtain ⟨key, block⟩ := entry
    have later := ih fun other member => sound other (mem_cons_of_mem _ member)
    -- A block that has no room, or other permissions, stays as it is.
    have passed (missed : (if key = permissions then block.reserveBlock size else (invalidAddress, block)) =
        (invalidAddress, block)) :
        Reserves size permissions ((key, block) :: rest) (reserveIn size permissions ((key, block) :: rest)) := by
      have asked : reserveIn size permissions ((key, block) :: rest) =
          ((reserveIn size permissions rest).1, (key, block) :: (reserveIn size permissions rest).2) := by
        simp [reserveIn, missed]
      rw [asked]
      rcases later with nothing | ⟨inner, result, valid, replaced, perm⟩
      · rw [nothing]
        exact .inl rfl
      · exact .inr ⟨inner, result, valid, replaced.behind (key, block), perm⟩
    by_cases right : key = permissions
    · subst right
      rcases (sound (key, block) mem_cons_self).reserveBlock narrow with
        full | ⟨address, next, reserved, valid, after, same, perm⟩
      · exact passed (by rw [if_pos rfl, full])
      · have asked : reserveIn size key ((key, block) :: rest) = (address, (key, next) :: rest) := by
          simp [reserveIn, reserved, if_neg valid]
        rw [asked]
        exact .inr ⟨block, next, valid, ⟨⟨[], rest, rfl, rfl⟩, same, after⟩, perm⟩
    · exact passed (if_neg right)

theorem freeIn_spec (address : Nat) (memoryMap : List (Nat × AllocatedBlock))
    (sound : ∀ entry ∈ memoryMap, entry.2.Sound) :
    freeIn address memoryMap = (false, memoryMap) ∨
      ∃ next key block result range, freeIn address memoryMap = (true, next) ∧
        Replaced memoryMap next key block result ∧ address ∈ range.window ∧
        block.reservedBlocks.entries.Perm (range :: result.reservedBlocks.entries) := by
  induction memoryMap with
  | nil => exact .inl rfl
  | cons entry rest ih =>
    obtain ⟨key, block⟩ := entry
    have later := ih fun other member => sound other (mem_cons_of_mem _ member)
    cases contains : block.range.contains address with
    | false =>
      simp only [freeIn, contains]
      rcases later with nothing | ⟨next, key', block', result, range, freed, replaced, inside, perm⟩
      · rw [nothing]
        exact .inl rfl
      · rw [freed]
        exact .inr ⟨_, key', block', result, range, rfl, replaced.behind (key, block), inside, perm⟩
    | true =>
      simp only [freeIn, contains]
      rcases sound (key, block) mem_cons_self with vacant | tiled
      · rw [vacant.not_contains] at contains
        cases contains
      · have fits : block.range.base + block.range.size < 2 ^ 64 := by
          by_contra beyond
          have ends : block.range.base + block.range.size = 2 ^ 64 := by
            exact Nat.le_antisymm tiled.fits (Nat.le_of_not_lt beyond)
          rw [Range.contains, Range.rangeEnd, ends] at contains
          simp at contains
        rcases tiled.freeBlock address fits with nothing | ⟨range, next, freed, after, same, inside, perm⟩
        · rw [nothing]
          exact .inl rfl
        · rw [freed]
          exact .inr ⟨_, key, block, next, range, rfl, ⟨⟨[], rest, rfl, rfl⟩, same, after⟩, inside, perm⟩

theorem insertBlock_perm (memoryMap : List (Nat × AllocatedBlock)) (permissions : Nat) (block : AllocatedBlock) :
    (insertBlock ⟨memoryMap⟩ permissions block).memoryMap.Perm ((permissions, block) :: memoryMap) := by
  have split := takeWhile_append_dropWhile (p := fun entry : Nat × AllocatedBlock => decide (entry.1 ≤ permissions))
    (l := memoryMap)
  calc (insertBlock ⟨memoryMap⟩ permissions block).memoryMap
    _ |>.Perm ((permissions, block) :: (memoryMap.takeWhile (fun entry => decide (entry.1 ≤ permissions)) ++
          memoryMap.dropWhile (fun entry => decide (entry.1 ≤ permissions)))) := perm_middle
    _ = (permissions, block) :: memoryMap := by rw [split]

theorem Sound.perm {memoryMap next : List (Nat × AllocatedBlock)} {regions : Regions}
    (sound : Sound memoryMap regions) (perm : next.Perm memoryMap) : Sound next regions where
  block entry member := sound.block entry (perm.mem_iff.mp member)
  apart := ((perm.map _).pairwise_iff fun apart => apart.symm).mpr sound.apart
  region entry member := sound.region entry (perm.mem_iff.mp member)

variable {memoryMap : List (Nat × AllocatedBlock)} {regions : Regions}

theorem claims_perm {next : List (Nat × AllocatedBlock)} (perm : next.Perm memoryMap) :
    (claims next).Perm (claims memoryMap) := perm.flatMap_right _

theorem Sound.allocatePage {answer : Nat → Nat → Nat}
    (sound : Sound memoryMap regions) (promised : Promised answer regions) (byteSize permissions : Nat) :
    (AllocatedMemoryCache.allocatePage answer regions byteSize permissions 16 = (none, regions)) ∨
      ∃ block grown, AllocatedMemoryCache.allocatePage answer regions byteSize permissions 16 = (some block, grown) ∧
        block.reservedBlocks.entries = [] ∧ Sound ((permissions, block) :: memoryMap) grown := by
  unfold AllocatedMemoryCache.allocatePage doAllocateMemory
  dsimp only
  by_cases valid : answer ((byteSize + 4096 - 1) / 4096 * 4096) permissions = invalidAddress
  · rw [if_pos valid, if_pos valid]
    exact .inl rfl
  · rw [if_neg valid, if_neg valid]
    generalize pages : (byteSize + 4096 - 1) / 4096 * 4096 = size at valid ⊢
    obtain ⟨-, fits, apart⟩ := promised size permissions valid
    have within : (AllocatedBlock.new (answer size permissions) size permissions 16).range.window.Within
        ⟨answer size permissions, size⟩ :=
      Window.within_iff.mpr (.inr ⟨Nat.le_refl _, Nat.add_le_add_left (Nat.mod_le _ _) _⟩)
    have chunks : 16 ∣ size := pages ▸ Dvd.dvd.mul_left (by decide) _
    refine .inr ⟨_, _, rfl, rfl, ?_, ?_, ?_⟩
    · exact forall_mem_cons.mpr ⟨⟨AllocatedBlock.new_sound chunks fits, rfl⟩, sound.block⟩
    · rw [map_cons, pairwise_cons]
      refine ⟨fun window member => ?_, sound.apart⟩
      obtain ⟨entry, listed, rfl⟩ := mem_map.mp member
      obtain ⟨region, among, -, inside⟩ := sound.region entry listed
      exact ((apart region among).mono within).symm.mono inside |>.symm
    · refine forall_mem_cons.mpr ⟨⟨_, mem_cons_self, rfl, within⟩, fun entry member => ?_⟩
      obtain ⟨region, among, rest⟩ := sound.region entry member
      exact ⟨region, mem_cons_of_mem _ among, rest⟩

/-- The claims of a map before and after an allocation that answered with an address. -/
def Claimed (memoryMap next : List (Nat × AllocatedBlock)) (permissions size address : Nat) : Prop :=
  if address = invalidAddress then (claims next).Perm (claims memoryMap)
  else (claims next).Perm ((permissions, ⟨address, AllocatedBlock.chunked size⟩) :: claims memoryMap)

theorem Reserves.claimed {size permissions : Nat}
    {outcome : Nat × List (Nat × AllocatedBlock)} (reserves : Reserves size permissions memoryMap outcome)
    (sound : Sound memoryMap regions) :
    Sound outcome.2 regions ∧ Claimed memoryMap outcome.2 permissions size outcome.1 := by
  rcases reserves with nothing | ⟨block, result, valid, replaced, perm⟩
  · rw [nothing]
    exact ⟨sound, by rw [Claimed, if_pos rfl]⟩
  · rw [Claimed, if_neg valid]
    obtain ⟨others, before, after⟩ := replaced.claims
    refine ⟨replaced.sound sound, ?_⟩
    calc claims outcome.2
      _ |>.Perm (result.reservedBlocks.entries.map (permissions, ·) ++ others) := after
      _ |>.Perm ((permissions, ⟨outcome.1, AllocatedBlock.chunked size⟩) ::
          (block.reservedBlocks.entries.map (permissions, ·) ++ others)) := (perm.map _).append_right others
      _ |>.Perm _ := before.symm.cons _

/-- An allocation claims its chunks in one block of its permissions, beside what was claimed before,
or claims nothing and gives no address. -/
theorem Sound.allocateMemory {cache : AllocatedMemoryCache} {answer : Nat → Nat → Nat}
    (sound : Sound cache.memoryMap regions) (promised : Promised answer regions) (byteSize permissions : Nat)
    {address : Nat} {next : AllocatedMemoryCache} {grown : Regions}
    (allocated : cache.allocateMemory answer regions byteSize permissions = (address, next, grown)) :
    Sound next.memoryMap grown ∧ Claimed cache.memoryMap next.memoryMap permissions (byteSize % 2 ^ 32) address := by
  have narrow : byteSize % 2 ^ 32 < 2 ^ 32 := Nat.mod_lt _ (by decide)
  have reserves := reserveIn_spec permissions narrow cache.memoryMap
    fun entry member => (sound.block entry member).1
  have found := reserves.claimed sound
  dsimp only [AllocatedMemoryCache.allocateMemory] at allocated
  split_ifs at allocated with full
  · rcases reserves with nothing | ⟨-, -, valid, -⟩
    · rw [nothing] at allocated
      rcases sound.allocatePage promised (byteSize % 2 ^ 32) permissions with
        refused | ⟨block, pages, granted, empty, larger⟩
      · rw [refused] at allocated
        cases allocated
        exact ⟨sound, by rw [Claimed, if_pos rfl]⟩
      · rw [granted] at allocated
        cases allocated
        have perm := insertBlock_perm cache.memoryMap permissions (block.reserveBlock (byteSize % 2 ^ 32)).2
        have inBlock : Reserves (byteSize % 2 ^ 32) permissions ((permissions, block) :: cache.memoryMap)
            ((block.reserveBlock (byteSize % 2 ^ 32)).1,
              (permissions, (block.reserveBlock (byteSize % 2 ^ 32)).2) :: cache.memoryMap) := by
          rcases ((larger.block _ mem_cons_self).1).reserveBlock narrow with
            noRoom | ⟨address, next, reserved, valid, after, same, perm⟩
          · rw [noRoom]
            exact .inl rfl
          · rw [reserved]
            exact .inr ⟨block, next, valid, ⟨⟨[], cache.memoryMap, rfl, rfl⟩, same, after⟩, perm⟩
        obtain ⟨after, claimed⟩ := inBlock.claimed larger
        refine ⟨after.perm perm, ?_⟩
        -- The new block claims nothing by itself.
        have fresh : claims ((permissions, block) :: cache.memoryMap) = claims cache.memoryMap := by
          simp [claims, empty]
        rw [Claimed, fresh] at claimed
        unfold Claimed
        split_ifs at claimed ⊢ with invalid
        · exact (claims_perm perm).trans claimed
        · exact (claims_perm perm).trans claimed
    · exact absurd full valid
  · cases allocated
    exact found

theorem Sound.deallocateMemory {cache : AllocatedMemoryCache} (sound : Sound cache.memoryMap regions) (address : Nat) :
    Sound (cache.deallocateMemory address).2.memoryMap regions ∧
      ∀ claim ∈ claims cache.memoryMap, address ∉ claim.2.window →
        claim ∈ claims (cache.deallocateMemory address).2.memoryMap := by
  rcases freeIn_spec address cache.memoryMap fun entry member => (sound.block entry member).1 with
    nothing | ⟨next, key, block, result, range, freed, replaced, inside, perm⟩
  · simp only [AllocatedMemoryCache.deallocateMemory, nothing]
    exact ⟨sound, fun claim claimed _ => claimed⟩
  · simp only [AllocatedMemoryCache.deallocateMemory, freed]
    refine ⟨replaced.sound sound, fun claim claimed outside => ?_⟩
    obtain ⟨others, before, after⟩ := replaced.claims
    rcases mem_append.mp (before.mem_iff.mp claimed) with mine | other
    · obtain ⟨reserved, listed, rfl⟩ := mem_map.mp mine
      rcases mem_cons.mp (perm.mem_iff.mp listed) with rfl | kept
      · exact absurd inside outside
      · exact after.mem_iff.mpr (mem_append_left _ (mem_map_of_mem kept))
    · exact after.mem_iff.mpr (mem_append_right _ other)

/-- A cache, what its process has allocated, and the allocations that are live. -/
structure World where
  cache : AllocatedMemoryCache
  regions : Regions
  live : List Allocated

def World.new : World := ⟨⟨[]⟩, [], []⟩

inductive Operation where
  | allocateMemory (answer : Nat → Nat → Nat) (byteSize permissions : Nat)
  | deallocateMemory (address : Nat)

namespace World

def perform (world : World) : Operation → World
  | .allocateMemory answer byteSize permissions =>
      let (address, cache, regions) := world.cache.allocateMemory answer world.regions byteSize permissions
      ⟨cache, regions, if address = invalidAddress then world.live else ⟨address, byteSize, permissions⟩ :: world.live⟩
  | .deallocateMemory address =>
      ⟨(world.cache.deallocateMemory address).2, world.regions,
        world.live.filter fun allocated => address ∉ allocated.chunks.window⟩

def Assumed (world : World) : Operation → Prop
  | .allocateMemory answer _ _ => Promised answer world.regions
  | .deallocateMemory _ => True

def Narrow : Operation → Prop
  | .allocateMemory _ byteSize _ => byteSize < 2 ^ 32
  | .deallocateMemory _ => True

def Step (world next : World) : Prop :=
  ∃ operation, world.Assumed operation ∧ Narrow operation ∧ next = world.perform operation

structure Held (world : World) : Prop where
  sound : Sound world.cache.memoryMap world.regions
  claimed : ∀ allocated ∈ world.live, (allocated.permissions, allocated.chunks) ∈ claims world.cache.memoryMap

theorem Held.step {world next : World} (held : world.Held) (step : world.Step next) : next.Held := by
  obtain ⟨operation, assumed, narrow, rfl⟩ := step
  cases operation with
  | allocateMemory answer byteSize permissions =>
    rcases outcome : world.cache.allocateMemory answer world.regions byteSize permissions with
      ⟨address, cache, regions⟩
    obtain ⟨sound, claimed⟩ := held.sound.allocateMemory assumed byteSize permissions outcome
    rw [Nat.mod_eq_of_lt (show byteSize < 2 ^ 32 from narrow), Claimed] at claimed
    have kept (allocated : Allocated) (live : allocated ∈ world.live) := held.claimed allocated live
    simp only [perform, outcome]
    refine ⟨sound, ?_⟩
    split_ifs at claimed ⊢ with invalid
    · exact fun allocated live => claimed.mem_iff.mpr (kept allocated live)
    · refine forall_mem_cons.mpr ⟨claimed.mem_iff.mpr mem_cons_self, fun allocated live => ?_⟩
      exact claimed.mem_iff.mpr (mem_cons_of_mem _ (kept allocated live))
  | deallocateMemory address =>
    obtain ⟨sound, kept⟩ := held.sound.deallocateMemory address
    refine ⟨sound, fun allocated live => ?_⟩
    obtain ⟨listed, outside⟩ := mem_filter.mp live
    exact kept _ (held.claimed allocated listed) (of_decide_eq_true outside)

theorem run_held {last : World} (run : Relation.ReflTransGen Step World.new last) : last.Held := by
  induction run with
  | refl => exact ⟨⟨nofun, .nil, nofun⟩, nofun⟩
  | tail _ step ih => exact ih.step step

end World

/-- The range of a new allocation lies in one block of its permissions, itself in memory that the process
has allocated, and apart from the range of every other live allocation. -/
structure Granted (cache : AllocatedMemoryCache) (regions : Regions) (live : List Allocated)
    (allocated : Allocated) : Prop where
  inside : ∃ entry ∈ cache.memoryMap, entry.2.permissions = allocated.permissions ∧
    allocated.range.Within entry.2.range.window ∧
    ∃ region ∈ regions, region.1 = allocated.permissions ∧ entry.2.range.window.Within region.2
  apart : ∀ other ∈ live, allocated.range.Apart other.range

/-- An address that an allocation answers with is good for the size asked for exactly when the size
has 32 bits. -/
theorem allocated_memory_granted_iff {last : World} (run : Relation.ReflTransGen World.Step World.new last)
    {answer : Nat → Nat → Nat} (promised : Promised answer last.regions) {byteSize permissions address : Nat}
    {next : AllocatedMemoryCache} {regions : Regions}
    (allocated : last.cache.allocateMemory answer last.regions byteSize permissions = (address, next, regions))
    (valid : address ≠ invalidAddress) :
    Granted next regions last.live ⟨address, byteSize, permissions⟩ ↔ byteSize < 2 ^ 32 := by
  have held := World.run_held run
  obtain ⟨sound, claimed⟩ := held.sound.allocateMemory promised byteSize permissions allocated
  rw [Claimed, if_neg valid] at claimed
  constructor
  · rintro ⟨⟨entry, member, -, within, -⟩, -⟩
    have small : entry.2.range.size < 2 ^ 32 := by
      rcases (sound.block entry member).1 with vacant | tiled
      · rw [vacant.size]
        decide
      · exact tiled.size
    have reach := Window.within_iff.mp within
    simp only [Allocated.range, Range.window] at reach
    omega
  · intro narrow
    rw [Nat.mod_eq_of_lt narrow] at claimed
    have whole := (⟨address, byteSize, permissions⟩ : Allocated).range_within_chunks
    refine ⟨?_, fun other live => ?_⟩
    · obtain ⟨block, member, reserved⟩ := mem_claims.mp (claimed.mem_iff.mpr mem_cons_self)
      obtain ⟨first, last⟩ := (sound.tiled member reserved).reserved _ reserved
      refine ⟨_, member, (sound.block _ member).2, ?_, sound.region _ member⟩
      exact fun place inside => Range.within_of_le first last place (whole place inside)
    · have parted := (claimed.pairwise_iff fun apart => apart.symm).mp sound.claims_apart
      have alone := (pairwise_cons.mp parted).1 _ (held.claimed other live)
      exact ((alone.mono whole).symm.mono other.range_within_chunks).symm

def grantsOnce (size _ : Nat) : Nat := if size ≤ 2 ^ 32 then 0x10000 else invalidAddress

theorem grantsOnce_promised : Promised grantsOnce [] := by
  intro size permissions valid
  unfold grantsOnce at valid ⊢
  split_ifs at valid ⊢ with fits
  · exact ⟨by decide, by omega, nofun⟩
  · exact absurd rfl valid

theorem allocated_memory_granted_iff_fresh :
    Granted (World.new.cache.allocateMemory grantsOnce [] 24 3).2.1 [(3, ⟨0x10000, 0x1000⟩)] []
      ⟨0x10000, 24, 3⟩ ↔ 24 < 2 ^ 32 :=
  allocated_memory_granted_iff .refl grantsOnce_promised rfl (by decide)

/-- For 16 bytes more than 4 GiB, the cache asks the process for one page and answers with its address. -/
theorem allocated_memory_not_always_granted : Promised grantsOnce [] ∧
    (World.new.cache.allocateMemory grantsOnce [] (2 ^ 32 + 16) 3).1 = 0x10000 ∧
    ¬ Granted (World.new.cache.allocateMemory grantsOnce [] (2 ^ 32 + 16) 3).2.1 [(3, ⟨0x10000, 0x1000⟩)] []
      ⟨0x10000, 2 ^ 32 + 16, 3⟩ := by
  refine ⟨grantsOnce_promised, rfl, ?_⟩
  rintro ⟨⟨entry, member, -, within, -⟩, -⟩
  cases mem_singleton.mp member
  exact absurd within (by decide)

end AllocatedMemoryCache

end Lldb
