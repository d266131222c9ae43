import Lldb.Expression.IRMemoryMap
import Mathlib.Data.Nat.Bitwise

/-! The intervals that an `IRMemoryMap` records, over runs of allocations and frees.

An interval is recorded from the aligned address with the padded size, so it is the region
obtained where that starts at a multiple of the alignment, and leaves it otherwise.
-/

set_option autoImplicit false

namespace Lldb

open Library (Window)
open Library.OrderedMap List Option

def Allocation.interval (allocation : Allocation) : Window := ⟨allocation.processStart, allocation.size⟩

def Allocation.region (allocation : Allocation) : Window := ⟨allocation.processAlloc, allocation.size⟩

namespace IRMemoryMap

/-- Intervals do not overlap, each lies in its region, and the lookup finds the allocation that
holds a range. -/
structure Separate (map : IRMemoryMap) : Prop where
  apart : ∀ left ∈ map.allocations.entries, ∀ right ∈ map.allocations.entries, left ≠ right →
    left.2.interval.Apart right.2.interval
  inside : ∀ entry ∈ map.allocations.entries, entry.2.interval.Within entry.2.region
  complete : ∀ entry ∈ map.allocations.entries, ∀ address size, 0 < size →
    (⟨address, size⟩ : Window).Within entry.2.interval → map.findAllocation address size = some entry

/-- What holds as long as every region starts at a multiple of the alignment. -/
structure Tidy (map : IRMemoryMap) : Prop where
  key : ∀ entry ∈ map.allocations.entries, entry.1 = entry.2.processStart
  atRegion : ∀ entry ∈ map.allocations.entries, entry.2.processAlloc = entry.2.processStart
  nonempty : ∀ entry ∈ map.allocations.entries, 0 < entry.2.size
  fits : ∀ entry ∈ map.allocations.entries, entry.2.processStart + entry.2.size < 2 ^ 64
  apart : ∀ left ∈ map.allocations.entries, ∀ right ∈ map.allocations.entries, left.1 ≠ right.1 →
    left.2.interval.Apart right.2.interval

theorem Tidy.empty (process : Option Process) (target : Option Target) : Tidy ⟨empty, process, target⟩ where
  key := nofun
  atRegion := nofun
  nonempty := nofun
  fits := nofun
  apart := nofun

variable {map next : IRMemoryMap} {address size fuel : Nat} {allocateMemory : Nat → Option Nat}
    {request : MallocRequest} {policy : AllocationPolicy}

theorem findAllocation_mem {entry : Nat × Allocation}
    (found : map.findAllocation address size = some entry) : entry ∈ map.allocations.entries := by
  unfold findAllocation at found
  split at found
  · cases found
  · exact ((map.allocations.atOrBefore_eq_some_iff address entry).mp (filter_eq_some_iff.mp found).1).1

/-- The neighbour that `FindAllocation` looks at is the one that holds the range. -/
theorem Tidy.findAllocation (tidy : map.Tidy) {entry : Nat × Allocation}
    (member : entry ∈ map.allocations.entries) (nonempty : 0 < size)
    (within : (⟨address, size⟩ : Window).Within entry.2.interval) :
    map.findAllocation address size = some entry := by
  have inside := (Library.Window.within_iff.mp within).resolve_left nonempty.ne'
  have fits := tidy.fits entry member
  have key := tidy.key entry member
  simp only [Allocation.interval] at inside
  have last : map.allocations.atOrBefore address = some entry := by
    rw [atOrBefore_eq_some_iff]
    refine ⟨member, by omega, fun other otherMember below => ?_⟩
    by_contra above
    have apart := tidy.apart entry member other otherMember (by omega)
    have otherSome := tidy.nonempty other otherMember
    have otherKey := tidy.key other otherMember
    exact apart other.1 (Window.mem_iff.mpr (by simp only [Allocation.interval]; omega))
      (Window.mem_iff.mpr (by simp only [Allocation.interval]; omega))
  have valid : address ≠ invalidAddress := by
    unfold invalidAddress
    omega
  have bounds : entry.1 ≤ address ∧ (address + size) % 2 ^ 64 ≤ (entry.1 + entry.2.size) % 2 ^ 64 := by omega
  rw [IRMemoryMap.findAllocation, if_neg valid, last]
  simpa using bounds

theorem Tidy.separate (tidy : map.Tidy) : map.Separate where
  apart left leftMember right rightMember different :=
    tidy.apart left leftMember right rightMember fun same =>
      different (map.allocations.eq_of_key_eq leftMember rightMember same)
  inside entry member := by
    rw [Allocation.region, tidy.atRegion entry member]
    exact fun index inside => inside
  complete _ member _ _ nonempty within := tidy.findAllocation member nonempty within

/-! What the operations do to the intervals. -/

theorem Tidy.update (tidy : map.Tidy) {old new : Allocation}
    (member : (old.processStart, old) ∈ map.allocations.entries) (alloc : new.processAlloc = old.processAlloc)
    (start : new.processStart = old.processStart) (size : new.size = old.size) : (map.update new).Tidy := by
  have entries : ∀ entry ∈ (map.update new).allocations.entries, ∃ before ∈ map.allocations.entries,
      before.1 = entry.1 ∧ entry.2.processAlloc = before.2.processAlloc ∧
        entry.2.processStart = before.2.processStart ∧ entry.2.size = before.2.size := by
    intro entry inside
    rcases (map.allocations.mem_insert _ _ _).mp inside with rfl | ⟨kept, -⟩
    · exact ⟨_, member, start.symm, alloc, start, size⟩
    · exact ⟨entry, kept, rfl, rfl, rfl, rfl⟩
  constructor
  · intro entry inside
    obtain ⟨before, kept, key, -, sameStart, -⟩ := entries entry inside
    rw [← key, sameStart, tidy.key before kept]
  · intro entry inside
    obtain ⟨before, kept, -, sameAlloc, sameStart, -⟩ := entries entry inside
    rw [sameAlloc, sameStart, tidy.atRegion before kept]
  · intro entry inside
    obtain ⟨before, kept, -, -, -, sameSize⟩ := entries entry inside
    exact sameSize ▸ tidy.nonempty before kept
  · intro entry inside
    obtain ⟨before, kept, -, -, sameStart, sameSize⟩ := entries entry inside
    rw [sameStart, sameSize]
    exact tidy.fits before kept
  · intro left leftInside right rightInside different
    obtain ⟨before, kept, key, -, sameStart, sameSize⟩ := entries left leftInside
    obtain ⟨other, otherKept, otherKey, -, otherStart, otherSize⟩ := entries right rightInside
    rw [Allocation.interval, Allocation.interval, sameStart, sameSize, otherStart, otherSize]
    exact tidy.apart before kept other otherKept (by rw [key, otherKey]; exact different)

/-- The process does not matter to the intervals. -/
theorem Tidy.of_allocations {other : IRMemoryMap} (tidy : map.Tidy)
    (same : other.allocations = map.allocations) : other.Tidy where
  key := same ▸ tidy.key
  atRegion := same ▸ tidy.atRegion
  nonempty := same ▸ tidy.nonempty
  fits := same ▸ tidy.fits
  apart := same ▸ tidy.apart

theorem writeProcess_allocations (map : IRMemoryMap) (address : Nat) (bytes : DataBuffer) :
    (map.writeProcess address bytes).2.allocations = map.allocations := by
  unfold writeProcess
  split <;> rfl

theorem Tidy.writeMemory (tidy : map.Tidy) (address : Nat) (bytes : DataBuffer) :
    (map.writeMemory address bytes).2.Tidy := by
  unfold IRMemoryMap.writeMemory
  split
  · split
    · exact tidy.of_allocations (map.writeProcess_allocations address bytes)
    · exact tidy
  · next entry allocation found =>
    have member := findAllocation_mem found
    have key : (allocation.processStart, allocation) ∈ map.allocations.entries := by
      rw [← tidy.key _ member]
      exact member
    have copied : (map.update (allocation.copyIn (address - allocation.processStart) bytes)).Tidy :=
      tidy.update key rfl rfl rfl
    split
    · exact tidy
    · split
      · exact tidy
      · exact copied
    · split
      · exact tidy
      · exact copied.of_allocations (writeProcess_allocations _ _ _)
    · exact tidy.of_allocations (map.writeProcess_allocations address bytes)

theorem Tidy.free (tidy : map.Tidy) (address : Nat) : (map.free address).2.Tidy := by
  unfold IRMemoryMap.free
  split
  · exact tidy
  · have kept : ∀ entry, entry ∈ (map.allocations.erase address).entries → entry ∈ map.allocations.entries :=
      fun entry member => ((map.allocations.mem_erase address entry).mp member).1
    exact {
      key := fun entry member => tidy.key entry (kept entry member)
      atRegion := fun entry member => tidy.atRegion entry (kept entry member)
      nonempty := fun entry member => tidy.nonempty entry (kept entry member)
      fits := fun entry member => tidy.fits entry (kept entry member)
      apart := fun left leftMember right rightMember =>
        tidy.apart left (kept left leftMember) right (kept right rightMember) }

theorem Tidy.leak (tidy : map.Tidy) (address : Nat) : (map.leak address).2.Tidy := by
  unfold IRMemoryMap.leak
  split
  · exact tidy
  · next allocation found =>
    have member := (map.allocations.find?_eq_some_iff address allocation).mp found
    have stored : (allocation.processStart, allocation) ∈ map.allocations.entries := by
      rw [← tidy.key _ member]
      exact member
    exact tidy.update stored rfl rfl rfl

/-! Where space is found. -/

theorem le_alignTo {value : Nat} (fits : value + 4095 < 2 ^ 64) : value ≤ alignTo value 4096 := by
  unfold alignTo
  omega

/-- The regions of a process hold the address they are asked for, and end below the last address. -/
def Process.Maps (process : Process) : Prop :=
  ∀ address region, process.getMemoryRegionInfo address = some region →
    address < region.range.base + region.range.size ∧ region.range.base + region.range.size < 2 ^ 64

theorem walkRegions_le {process : Process} (maps : Process.Maps process) {endOfMemory asked ret : Nat}
    {region : MemoryRegionInfo} (answered : process.getMemoryRegionInfo asked = some region) (reached : ret ≤ asked)
    {found : Nat} (walked : walkRegions process size endOfMemory fuel ret region = some (true, found)) :
    ret ≤ found := by
  induction fuel generalizing asked ret region with
  | zero => cases walked
  | succ fuel ih =>
    obtain ⟨ahead, below⟩ := maps asked region answered
    have stop : region.range.rangeEnd = region.range.base + region.range.size := Nat.mod_eq_of_lt below
    simp only [walkRegions] at walked
    -- Each region asked for next starts where the last one ends.
    split at walked
    · split at walked
      · cases walked
      · split at walked
        · cases walked
        · next following found => exact (by omega : ret ≤ region.range.rangeEnd).trans (ih found (le_refl _) walked)
    · split at walked
      · exact (Prod.mk.inj (Option.some.inj walked)).2.le
      · split at walked
        · cases walked
        · next following found => exact ih found (by omega) walked

/-- Host-only space is left: the allocations end a page below the last address, and so do the regions
the process knows of. -/
structure SpaceLeft (map : IRMemoryMap) : Prop where
  allocations : ∀ entry ∈ map.allocations.entries, entry.2.processStart + entry.2.size + 4095 < 2 ^ 64
  regions : ∀ process ∈ map.process, Process.Maps process

theorem Tidy.endOfAllocations {map : IRMemoryMap} (tidy : map.Tidy) (left : map.SpaceLeft) :
    match map.endOfAllocations with
    | none => map.allocations.entries = []
    | some stop => ∀ entry ∈ map.allocations.entries, entry.2.processStart + entry.2.size ≤ stop := by
  unfold IRMemoryMap.endOfAllocations
  cases found : map.allocations.entries.getLast? with
  | none => exact getLast?_eq_none_iff.mp found
  | some last =>
    intro entry member
    have lastMember := mem_of_getLast? found
    have lastKey := tidy.key last lastMember
    have key := tidy.key entry member
    have room := left.allocations last lastMember
    have stop : last.2.processStart + last.2.size ≤ alignTo ((last.1 + last.2.size) % 2 ^ 64) 4096 := by
      rw [lastKey, Nat.mod_eq_of_lt (by omega)]
      exact le_alignTo room
    refine le_trans ?_ stop
    by_cases same : entry.1 = last.1
    · rw [map.allocations.eq_of_key_eq member lastMember same]
    · have order : entry.1 < last.1 :=
        lt_of_le_of_ne (le_last_of_sorted map.allocations.sorted found entry member) same
      have apart := (Window.apart_iff (tidy.nonempty entry member) (tidy.nonempty last lastMember)).mp
        (tidy.apart entry member last lastMember same)
      simp only [Allocation.interval] at apart
      omega

theorem Tidy.findSpace (tidy : map.Tidy) (left : map.SpaceLeft) (hunts : map.processAllocates = false) {found : Nat}
    (space : map.findSpace fuel allocateMemory size = some found) (valid : found ≠ invalidAddress) :
    ∀ entry ∈ map.allocations.entries, entry.2.processStart + entry.2.size ≤ found := by
  have stops := tidy.endOfAllocations left
  intro entry member
  unfold IRMemoryMap.findSpace at space
  split at space
  · cases space
    exact absurd rfl valid
  rw [hunts, if_neg (by decide)] at space
  cases last : map.endOfAllocations with
  | none =>
    rw [last] at stops
    rw [stops] at member
    cases member
  | some stop =>
    rw [last] at stops space
    refine (stops entry member).trans ?_
    split at space
    · cases space
    · next ret hunted =>
      cases space
      unfold hunt at hunted
      split at hunted
      · cases hunted
      · next process present =>
        split at hunted
        · split at hunted
          · cases hunted
          · next region answered =>
            exact walkRegions_le (left.regions process present) answered (le_refl stop) hunted
        · cases hunted
    · exact (Option.some.inj space).le

/-! The address of a new allocation. -/

theorem alignAddress_of_dvd {exponent : Nat} (small : exponent ≤ 7) (bounded : address < 2 ^ 64)
    (aligned : 2 ^ exponent ∣ address) : alignAddress address (2 ^ exponent) = address := by
  obtain ⟨quotient, rfl⟩ := aligned
  have positive : 0 < 2 ^ exponent := Nat.two_pow_pos exponent
  have whole : (2 : Nat) ^ 64 = 2 ^ exponent * 2 ^ (64 - exponent) := by
    rw [← pow_add]
    congr 1
    omega
  have below : quotient < 2 ^ (64 - exponent) := by
    rw [whole] at bounded
    exact Nat.lt_of_mul_lt_mul_left bounded
  have fits : 2 ^ exponent * quotient + (2 ^ exponent - 1) < 2 ^ 64 := by
    have next := Nat.mul_le_mul_left (2 ^ exponent) (Nat.succ_le_of_lt below)
    rw [Nat.mul_succ] at next
    omega
  have mask : 2 ^ 64 - 1 - (2 ^ exponent - 1) = 2 ^ 64 - ((2 ^ exponent - 1) + 1) := by omega
  have maskBelow : 2 ^ exponent - 1 < 2 ^ 64 := by omega
  rw [alignAddress, Nat.mod_eq_of_lt fits, mask]
  -- Bit by bit: the mask clears the bits that were added, which are those below the exponent.
  apply Nat.eq_of_testBit_eq
  intro bit
  rw [Nat.testBit_and, Nat.testBit_two_pow_mul_add _ (by omega), Nat.testBit_two_pow_sub_succ maskBelow, Nat.testBit_two_pow_mul]
  by_cases low : bit < exponent
  · simp [low]
  · by_cases inside : bit < 64
    · simp [low, inside, Nat.le_of_not_lt low]
    · have clear : quotient.testBit (bit - exponent) = false := by
        apply Nat.testBit_lt_two_pow
        exact below.trans_le (Nat.pow_le_pow_right (by decide) (by omega))
      simp [low, clear]

theorem allocationSize_pos {exponent : Nat} (bounded : size < 2 ^ 64) : 0 < allocationSize size (2 ^ exponent) := by
  have positive : 0 < 2 ^ exponent := Nat.two_pow_pos exponent
  unfold allocationSize
  split
  · exact positive
  · rcases Nat.eq_or_lt_of_le positive with one | more
    · have same : alignTo size (2 ^ exponent) = size := by
        rw [alignTo, ← show 1 = 2 ^ exponent from one, Nat.add_sub_cancel, Nat.mod_eq_of_lt bounded,
          Nat.div_one, Nat.mul_one]
      omega
    · omega

/-! Allocating. -/

/-- What an allocation may rely on: a 64-bit size, an alignment that is a power of two in 8 bits, a process
allocator whose regions are valid and disjoint from the live ones, and host-only space. -/
structure Promised (map : IRMemoryMap) (fuel : Nat) (allocateMemory : Nat → Option Nat) (request : MallocRequest) :
    Prop where
  size : request.size < 2 ^ 64
  alignment : ∃ exponent ≤ 7, request.alignment = 2 ^ exponent
  allocator : ∀ address, allocateMemory (allocationSize request.size request.alignment) = some address →
    address + allocationSize request.size request.alignment < 2 ^ 64 ∧ ∀ entry ∈ map.allocations.entries,
        (⟨address, allocationSize request.size request.alignment⟩ : Window).Apart entry.2.region
  space : map.processAllocates = false → map.SpaceLeft ∧
    ∀ address, map.findSpace fuel allocateMemory (allocationSize request.size request.alignment) = some address →
      address ≠ invalidAddress → address + allocationSize request.size request.alignment < 2 ^ 64

/-- The address that the allocator or the search for space answers with, whichever is asked. -/
def answer (map : IRMemoryMap) (fuel : Nat) (allocateMemory : Nat → Option Nat) (request : MallocRequest) :
    Option Nat :=
  let size := allocationSize request.size request.alignment
  if map.processAllocates then allocateMemory size else map.findSpace fuel allocateMemory size

/-- The answer is a multiple of the alignment, or the address it is rounded up to has an allocation. -/
def Aligned (map : IRMemoryMap) (fuel : Nat) (allocateMemory : Nat → Option Nat) (request : MallocRequest) : Prop :=
  ∀ address, map.answer fuel allocateMemory request = some address →
    request.alignment ∣ address ∨ (map.allocations.find? (alignAddress address request.alignment)).isSome

theorem allocateInProcess_allocations (map : IRMemoryMap) (allocateMemory : Nat → Option Nat) (size : Nat)
    (zeroMemory : Bool) :
    (map.allocateInProcess allocateMemory size zeroMemory).2.allocations = map.allocations := by
  unfold allocateInProcess
  split
  · rfl
  · split
    · exact map.writeProcess_allocations _ _
    · rfl

theorem obtain_allocations {obtained : Obtained} (asked : map.obtain fuel allocateMemory request = some obtained) :
    obtained.2.allocations = map.allocations := by
  have inHost : ∀ {size : Nat}, map.obtainInHost fuel allocateMemory size = some obtained →
      obtained.2.allocations = map.allocations := by
    intro size asked
    obtain ⟨_, -, rfl⟩ := map_eq_some_iff.mp asked
    rfl
  have inProcess : ∀ size : Nat,
      (map.obtainInProcess allocateMemory size request).2.allocations = map.allocations := by
    intro size
    have same := map.allocateInProcess_allocations allocateMemory size request.zeroMemory
    unfold obtainInProcess
    split <;> next allocated => rw [allocated] at same; exact same
  unfold obtain at asked
  split at asked
  · cases asked; rfl
  · exact inHost asked
  · split at asked
    · cases asked; exact inProcess _
    · exact inHost asked
  · split at asked
    · cases asked; rfl
    · split at asked
      · cases asked; exact inProcess _
      · cases asked; rfl

theorem allocateInProcess_spec
    {zeroMemory : Bool} (allocated : map.allocateInProcess allocateMemory size zeroMemory = (.ok address, next)) :
    allocateMemory size = some address := by
  unfold allocateInProcess at allocated
  split at allocated
  · cases allocated
  · next found answered =>
    split at allocated
    · cases written : map.writeProcess found (replicate size 0) with
      | mk result after =>
        rw [written] at allocated
        cases result with
        | error message => cases allocated
        | ok value => cases allocated; exact answered
    · cases allocated
      exact answered

theorem obtainInHost_spec (positive : 0 < size)
    (obtained : map.obtainInHost fuel allocateMemory size = some (.ok (policy, address), next)) :
    (if map.processAllocates then allocateMemory size else map.findSpace fuel allocateMemory size) = some address ∧
      next = map ∧ policy = .hostOnly ∧ address ≠ invalidAddress := by
  obtain ⟨found, space, result⟩ := map_eq_some_iff.mp obtained
  by_cases valid : found = invalidAddress
  · rw [if_pos valid] at result
    cases result
  rw [if_neg valid] at result
  cases result
  refine ⟨?_, rfl, rfl, valid⟩
  by_cases allocates : map.processAllocates
  · rw [findSpace, if_neg positive.ne', if_pos allocates] at space
    rw [if_pos allocates]
    cases answered : allocateMemory size with
    | none => rw [answered] at space; exact absurd (Option.some.inj space).symm valid
    | some given => rw [answered] at space; exact space
  · rw [if_neg allocates, space]

theorem obtainInProcess_spec
    (obtained : map.obtainInProcess allocateMemory size request = (.ok (policy, address), next)) :
    map.allocateInProcess allocateMemory size request.zeroMemory = (.ok address, next) ∧ policy = request.policy := by
  unfold obtainInProcess at obtained
  split at obtained
  · cases obtained
  · next allocated => cases obtained; exact ⟨allocated, rfl⟩

theorem obtain_cases (obtained : map.obtain fuel allocateMemory request = some (.ok (policy, address), next)) :
    map.obtainInHost fuel allocateMemory (allocationSize request.size request.alignment) =
        some (.ok (policy, address), next) ∧ request.policy ≠ .processOnly ∨
      map.processAllocates = true ∧ request.policy ≠ .invalid ∧ map.obtainInProcess allocateMemory
        (allocationSize request.size request.alignment) request = (.ok (policy, address), next) := by
  unfold obtain at obtained
  split at obtained
  · cases obtained
  · next hostOnly => exact .inl ⟨obtained, by rw [hostOnly]; decide⟩
  · next mirror =>
    split at obtained
    · next allocates => exact .inr ⟨allocates, by rw [mirror]; decide, Option.some.inj obtained⟩
    · exact .inl ⟨obtained, by rw [mirror]; decide⟩
  · next processOnly =>
    split at obtained
    · cases obtained
    · split at obtained
      · next allocates => exact .inr ⟨allocates, by rw [processOnly]; decide, Option.some.inj obtained⟩
      · cases obtained

theorem obtain_spec (positive : 0 < allocationSize request.size request.alignment)
    (obtained : map.obtain fuel allocateMemory request = some (.ok (policy, address), next)) :
    map.answer fuel allocateMemory request = some address ∧
      (map.processAllocates = false → address ≠ invalidAddress) := by
  rcases obtain_cases obtained with ⟨inHost, -⟩ | ⟨allocates, -, inProcess⟩
  · obtain ⟨answered, -, -, valid⟩ := obtainInHost_spec positive inHost
    exact ⟨answered, fun _ => valid⟩
  · have answered := allocateInProcess_spec (obtainInProcess_spec inProcess).1
    refine ⟨?_, fun dead => absurd (dead.symm.trans allocates) (by decide)⟩
    rw [answer, if_pos allocates, answered]

theorem Tidy.region (tidy : map.Tidy) (promised : map.Promised fuel allocateMemory request)
    (positive : 0 < allocationSize request.size request.alignment)
    (answered : map.answer fuel allocateMemory request = some address)
    (valid : map.processAllocates = false → address ≠ invalidAddress) :
    address + allocationSize request.size request.alignment < 2 ^ 64 ∧ ∀ entry ∈ map.allocations.entries,
        (⟨address, allocationSize request.size request.alignment⟩ : Window).Apart entry.2.interval := by
  have same : ∀ entry ∈ map.allocations.entries, entry.2.region = entry.2.interval := fun entry member => by
    rw [Allocation.region, Allocation.interval, tidy.atRegion entry member]
  unfold answer at answered
  split at answered
  · obtain ⟨fits, apart⟩ := promised.allocator address answered
    exact ⟨fits, fun entry member => same entry member ▸ apart entry member⟩
  · next hunts =>
    rw [Bool.not_eq_true] at hunts
    obtain ⟨left, fits⟩ := promised.space hunts
    refine ⟨fits address answered (valid hunts), fun entry member => ?_⟩
    have behind := tidy.findSpace left hunts answered (valid hunts) entry member
    exact (Window.apart_iff positive (tidy.nonempty entry member)).mpr (.inr behind)

theorem Tidy.insert {map : IRMemoryMap} (tidy : map.Tidy) {new : Allocation}
    (atRegion : new.processAlloc = new.processStart) (nonempty : 0 < new.size)
    (fits : new.processStart + new.size < 2 ^ 64)
    (apart : ∀ entry ∈ map.allocations.entries, new.interval.Apart entry.2.interval) : (map.update new).Tidy := by
  have entries : ∀ entry ∈ (map.update new).allocations.entries,
      entry = (new.processStart, new) ∨ entry ∈ map.allocations.entries := by
    intro entry inside
    rcases (map.allocations.mem_insert _ _ _).mp inside with fresh | ⟨kept, -⟩
    · exact .inl fresh
    · exact .inr kept
  constructor
  · intro entry inside
    rcases entries entry inside with rfl | kept
    · rfl
    · exact tidy.key entry kept
  · intro entry inside
    rcases entries entry inside with rfl | kept
    · exact atRegion
    · exact tidy.atRegion entry kept
  · intro entry inside
    rcases entries entry inside with rfl | kept
    · exact nonempty
    · exact tidy.nonempty entry kept
  · intro entry inside
    rcases entries entry inside with rfl | kept
    · exact fits
    · exact tidy.fits entry kept
  · intro left leftInside right rightInside different
    rcases entries left leftInside with rfl | leftKept
    · rcases entries right rightInside with rfl | rightKept
      · exact absurd rfl different
      · exact apart right rightKept
    · rcases entries right rightInside with rfl | rightKept
      · exact (apart left leftKept).symm
      · exact tidy.apart left leftKept right rightKept different

theorem Tidy.emplace (tidy : map.Tidy)
    (policy : AllocationPolicy) (positive : 0 < allocationSize request.size request.alignment)
    (fits : address + allocationSize request.size request.alignment < 2 ^ 64)
    (apart : ∀ entry ∈ map.allocations.entries,
      (⟨address, allocationSize request.size request.alignment⟩ : Window).Apart entry.2.interval)
    (aligned : alignAddress address request.alignment = address ∨
      (map.allocations.find? (alignAddress address request.alignment)).isSome) :
    (map.emplace request policy address).Tidy := by
  unfold IRMemoryMap.emplace
  dsimp only
  split
  · exact tidy
  · next missing =>
    have same := aligned.resolve_right (by rw [missing]; decide)
    rw [same]
    exact tidy.insert rfl positive fits apart

theorem Tidy.malloc (tidy : map.Tidy) (promised : map.Promised fuel allocateMemory request)
    (aligned : map.Aligned fuel allocateMemory request) {result : Except String Nat}
    (allocated : map.malloc fuel allocateMemory request = some (result, next)) : next.Tidy := by
  obtain ⟨exponent, small, alignment⟩ := promised.alignment
  have positive : 0 < allocationSize request.size request.alignment := by
    rw [alignment]
    exact allocationSize_pos promised.size
  unfold IRMemoryMap.malloc at allocated
  split at allocated
  · cases allocated
  · next message after refused =>
    cases allocated
    exact tidy.of_allocations (obtain_allocations refused)
  · next policy address after obtained =>
    have same : after.allocations = map.allocations := obtain_allocations obtained
    obtain ⟨answered, valid⟩ := obtain_spec positive obtained
    obtain ⟨fits, apart⟩ := tidy.region promised positive answered valid
    have placed : (after.emplace request policy address).Tidy := by
      apply (tidy.of_allocations same).emplace policy positive fits
      · rw [same]
        exact apart
      · rw [same]
        rcases aligned address answered with divides | taken
        · refine .inl ?_
          rw [alignment] at divides ⊢
          exact alignAddress_of_dvd small (by omega) divides
        · exact .inr taken
    split at allocated
    · split at allocated
      · cases allocated
      · cases allocated
        exact placed.writeMemory _ _
    · cases allocated
      exact placed

/-! Runs. -/

inductive Operation where
  | malloc (fuel : Nat) (allocateMemory : Nat → Option Nat) (request : MallocRequest)
  | free (processAddress : Nat)
  | leak (processAddress : Nat)
  | writeMemory (processAddress : Nat) (bytes : DataBuffer)
  | processChanges (process : Option Process)

/-- The map after an operation; `none` where a call does not return. -/
def perform (map : IRMemoryMap) : Operation → Option IRMemoryMap
  | .malloc fuel allocateMemory request => (map.malloc fuel allocateMemory request).map Prod.snd
  | .free processAddress => some (map.free processAddress).2
  | .leak processAddress => some (map.leak processAddress).2
  | .writeMemory processAddress bytes => some (map.writeMemory processAddress bytes).2
  | .processChanges process => some { map with process := process }

def Assumed (map : IRMemoryMap) : Operation → Prop
  | .malloc fuel allocateMemory request => map.Promised fuel allocateMemory request
  | _ => True

/-- An allocation is given a region that starts at a multiple of its alignment. -/
def KeepsIntervals (map : IRMemoryMap) : Operation → Prop
  | .malloc fuel allocateMemory request => map.Aligned fuel allocateMemory request
  | _ => True

def Step (map next : IRMemoryMap) : Prop :=
  ∃ operation, map.Assumed operation ∧ map.KeepsIntervals operation ∧ map.perform operation = some next

theorem Tidy.step {map next : IRMemoryMap} (tidy : map.Tidy) (step : map.Step next) : next.Tidy := by
  obtain ⟨operation, assumed, keeps, performed⟩ := step
  cases operation with
  | malloc fuel allocateMemory request =>
    obtain ⟨⟨result, after⟩, allocated, rfl⟩ := map_eq_some_iff.mp performed
    exact tidy.malloc assumed keeps allocated
  | free processAddress => cases performed; exact tidy.free processAddress
  | leak processAddress => cases performed; exact tidy.leak processAddress
  | writeMemory processAddress bytes => cases performed; exact tidy.writeMemory processAddress bytes
  | processChanges process => cases performed; exact tidy.of_allocations rfl

theorem run_tidy {last : IRMemoryMap} (tidy : map.Tidy) (run : Relation.ReflTransGen Step map last) : last.Tidy := by
  induction run with
  | refl => exact tidy
  | tail _ step ih => exact ih.step step

/-- Intervals stay separate in every run in which each region starts at a multiple of the alignment. -/
theorem intervals_stay_separate {process : Option Process} {target : Option Target} {last : IRMemoryMap}
    (run : Relation.ReflTransGen Step ⟨empty, process, target⟩ last) : last.Separate :=
  (run_tidy (Tidy.empty process target) run).separate

def freshProcess : Process := ⟨true, true, 8, fun _ => none, fun _ _ => none, fun _ => none⟩

def freshMap : IRMemoryMap := ⟨empty, some freshProcess, none⟩

def eightBytes : MallocRequest := ⟨8, 8, 3, .mirror, false⟩

theorem eightBytes_promised (allocates : map.processAllocates = true) (fits : address + 15 < 2 ^ 64)
    (apart : ∀ entry ∈ map.allocations.entries, (⟨address, 15⟩ : Window).Apart entry.2.region) :
    map.Promised 0 (fun _ => some address) eightBytes where
  size := by decide
  alignment := ⟨3, by decide, rfl⟩
  allocator := by
    rintro found ⟨⟩
    exact ⟨fits, apart⟩
  space := fun hunts => absurd (hunts.symm.trans allocates) (by decide)

def allocateAt (address : Nat) : Operation := .malloc 0 (fun _ => some address) eightBytes

def allocatedAt (map : IRMemoryMap) (address : Nat) : IRMemoryMap := (map.perform (allocateAt address)).getD map

theorem intervals_stay_separate_eightBytes : (freshMap.allocatedAt 0x1000).Separate := by
  have promised : freshMap.Promised 0 (fun _ => some 0x1000) eightBytes :=
    eightBytes_promised rfl (by decide) (by rintro entry ⟨⟩)
  have aligned : freshMap.Aligned 0 (fun _ => some 0x1000) eightBytes := by
    rintro address ⟨⟩
    exact .inl (by decide)
  exact intervals_stay_separate (.single ⟨allocateAt 0x1000, promised, aligned, rfl⟩)

/-- Two regions that are not aligned: the intervals recorded leave them, and overlap. -/
theorem intervals_not_always_separate : let middle := freshMap.allocatedAt 0x1001
    let last := middle.allocatedAt 0x1010
    freshMap.Assumed (allocateAt 0x1001) ∧ freshMap.perform (allocateAt 0x1001) = some middle ∧
      middle.Assumed (allocateAt 0x1010) ∧ middle.perform (allocateAt 0x1010) = some last ∧ ¬ last.Separate := by
  have second : ∀ entry ∈ (freshMap.allocatedAt 0x1001).allocations.entries,
      (⟨0x1010, 15⟩ : Window).Apart entry.2.region := by
    intro entry member
    obtain rfl := mem_singleton.mp member
    exact (Window.apart_iff (by decide) (by decide)).mpr (by decide)
  refine ⟨eightBytes_promised rfl (by decide) (by rintro entry ⟨⟩), rfl,
    eightBytes_promised rfl (by decide) second, rfl, fun separate => ?_⟩
  have listed : (0x1008, Allocation.new 0x1001 0x1008 15 3 8 .mirror) ∈
      ((freshMap.allocatedAt 0x1001).allocatedAt 0x1010).allocations.entries := mem_cons_self
  have inside := separate.inside _ listed
  exact absurd inside (by decide)

end IRMemoryMap
end Lldb
