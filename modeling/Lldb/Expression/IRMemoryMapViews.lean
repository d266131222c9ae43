import Lldb.Expression.IRMemoryMapIntervals
import Lldb.Library.Memory

/-! The two ways to read an `IRMemoryMap`, against the bytes last written through it.

Beside the map a world keeps, for each address, the byte that `WriteMemory` stored there
last; it is not known after an allocation and after a write to the process that failed.
-/

set_option autoImplicit false

namespace Lldb

open Library (Window Memory.write)
open Allocation List Option

variable {address place : Nat} {data : List UInt8}

variable (inferior : Inferior)

theorem Inferior.write_eq_write
    (fits : address + data.length ≤ 2 ^ 64) (bounded : place < 2 ^ 64) :
    inferior.write address data place = Memory.write inferior address (data.map some) place := by
  by_cases before : address ≤ place
  · have whole : (address + (place - address)) % 2 ^ 64 = place := by omega
    have stored := inferior.write_eq address data (show place - address < 2 ^ 64 by omega)
    rw [whole] at stored
    rw [stored, Memory.write, if_pos before, getD_eq_getElem?_getD, getElem?_map]
    cases data[place - address]? <;> rfl
  · by_cases empty : data = []
    · rw [empty]
      simp [write]
    · rw [write, getElem?_eq_none (by omega), Memory.write, if_neg before, none_or]

theorem Inferior.write_outside (fits : address + data.length ≤ 2 ^ 64) (bounded : place < 2 ^ 64)
    (outside : place ∉ (⟨address, data.length⟩ : Window)) : inferior.write address data place = inferior place := by
  rw [write_eq_write inferior fits bounded, Library.Memory.write_outside _ (by rwa [length_map])]

theorem Inferior.write_inside
    (fits : address + data.length ≤ 2 ^ 64) (inside : place ∈ (⟨address, data.length⟩ : Window)) :
    inferior.write address data place = data[place - address]? := by
  have bounds := Window.mem_mk.mp inside
  have stored := Library.Memory.write_inside inferior
    (show place ∈ (⟨address, (data.map some).length⟩ : Window) by rwa [length_map])
  rw [← inferior.write_eq_write fits (by omega), getElem?_map] at stored
  obtain ⟨byte, found, same⟩ := map_eq_some_iff.mp stored.symm
  exact same.symm.trans found.symm

namespace IRMemoryMap

abbrev Written := Nat → Option UInt8

def noted (written : Written) (address : Nat) (bytes : DataBuffer) (success : Bool) : Written :=
  Memory.write written address (if success then bytes.map some else replicate bytes.length none)

def noteWrite (map : IRMemoryMap) (written : Written) (address : Nat) (bytes : DataBuffer) : Written :=
  match (map.writeMemory address bytes).1 with
  | .ok _ => noted written address bytes true
  | .error _ => if map.process.isNone then written else noted written address bytes false

def noteMalloc (map : IRMemoryMap) (written : Written) (fuel : Nat) (allocateMemory : Nat → Option Nat)
    (request : MallocRequest) : Written :=
  match map.obtain fuel allocateMemory request with
  | some (.ok (policy, address), next) =>
      let start := alignAddress address request.alignment
      let fresh := Memory.write written start
        (replicate (allocationSize request.size request.alignment) none)
      if request.zeroMemory then
        (next.emplace request policy address).noteWrite fresh start (replicate request.size 0)
      else fresh
  | _ => written

structure World where
  map : IRMemoryMap
  written : Written

namespace World

def note (world : World) : Operation → Written
  | .malloc fuel allocateMemory request => world.map.noteMalloc world.written fuel allocateMemory request
  | .writeMemory processAddress bytes => world.map.noteWrite world.written processAddress bytes
  | _ => world.written

def perform (world : World) (operation : Operation) : Option World :=
  (world.map.perform operation).map fun next => ⟨next, world.note operation⟩

end World

/-- Regions start at multiples of the alignment, a write lies inside one allocation or reaches no
host-only one, and the process does no more than go away. -/
def KeepsViews (map : IRMemoryMap) : Operation → Prop
  | .malloc fuel allocateMemory request =>
      ∀ address, map.answer fuel allocateMemory request = some address → request.alignment ∣ address
  | .writeMemory processAddress bytes => processAddress + bytes.length < 2 ^ 64 ∧ ((∃ entry ∈ map.allocations.entries,
        (⟨processAddress, bytes.length⟩ : Window).Within entry.2.interval) ∨
      ∀ entry ∈ map.allocations.entries, entry.2.policy = .hostOnly →
        (⟨processAddress, bytes.length⟩ : Window).Apart entry.2.interval)
  | .processChanges process => process = none
  | _ => True

/-- Where the bytes of an allocation are read from: its buffer, or the process. -/
def store (process : Option Process) (allocation : Allocation) : Option (Nat → Option UInt8) :=
  match allocation.policy with
  | .invalid => none
  | .hostOnly => some fun place => allocation.data[place - allocation.processStart]?
  | .mirror | .processOnly => process.map (·.memory)

/-- Every byte known to be written last is in the store of its allocation. -/
structure Backed (world : World) : Prop where
  tidy : world.map.Tidy
  policy : ∀ entry ∈ world.map.allocations.entries, entry.2.policy ≠ .invalid
  buffer : ∀ entry ∈ world.map.allocations.entries,
    entry.2.policy = .hostOnly ∨ entry.2.policy = .mirror → entry.2.data.length = entry.2.size
  holds : ∀ entry ∈ world.map.allocations.entries, ∀ bytes ∈ store world.map.process entry.2,
    ∀ place ∈ entry.2.interval, ∀ byte, world.written place = some byte → bytes place = some byte

/-- A store over an interval before and after a write: cells outside it stay, and those inside take
the bytes if it succeeds. -/
def StoreWritten (interval : Window) (before after : Nat → Option UInt8) (address : Nat) (bytes : DataBuffer)
    (success : Prop) : Prop :=
  (∀ place ∈ interval, place ∉ (⟨address, bytes.length⟩ : Window) → after place = before place) ∧
  (success → ∀ place ∈ interval, place ∈ (⟨address, bytes.length⟩ : Window) → after place = bytes[place - address]?)

variable {before : Nat → Option UInt8} {address : Nat} {bytes : DataBuffer} {map : IRMemoryMap}
    {entry : Nat × Allocation} {allocation : Allocation} {world : World} {allocateMemory : Nat → Option Nat}

theorem StoreWritten.of_apart {interval : Window}
    (success : Prop) (apart : (⟨address, bytes.length⟩ : Window).Apart interval) :
    StoreWritten interval before before address bytes success :=
  ⟨fun _ _ _ => rfl, fun _ place member changed => absurd member (apart place changed)⟩

theorem StoreWritten.holds_noted {written : Written} {interval : Window} {after : Nat → Option UInt8} (success : Bool)
    (taken : StoreWritten interval before after address bytes (success = true))
    (holds : ∀ place ∈ interval, ∀ byte, written place = some byte → before place = some byte) :
    ∀ place ∈ interval, ∀ byte, noted written address bytes success place = some byte → after place = some byte := by
  obtain ⟨outside, inside⟩ := taken
  intro place member byte known
  unfold noted at known
  cases success with
  | true =>
    rw [if_pos rfl] at known
    by_cases changed : place ∈ (⟨address, bytes.length⟩ : Window)
    · have stored := Library.Memory.write_inside written (show place ∈ (⟨address, (bytes.map some).length⟩ : Window)
        by rwa [length_map])
      rw [known, getElem?_map] at stored
      obtain ⟨written, found, same⟩ := map_eq_some_iff.mp stored.symm
      rw [inside rfl place member changed, found, same]
    · rw [Library.Memory.write_outside _ (by rwa [length_map])] at known
      rw [outside place member changed]
      exact holds place member byte known
  | false =>
    rw [if_neg (by decide)] at known
    by_cases changed : place ∈ (⟨address, bytes.length⟩ : Window)
    · have stored := Library.Memory.write_inside written
        (show place ∈ (⟨address, (replicate bytes.length (none : Option UInt8)).length⟩ : Window)
          by rwa [length_replicate])
      rw [known] at stored
      exact nomatch eq_of_mem_replicate (mem_of_getElem? stored.symm)
    · rw [Library.Memory.write_outside _ (by rwa [length_replicate])] at known
      rw [outside place member changed]
      exact holds place member byte known

theorem writeProcess_memory (fits : address + bytes.length < 2 ^ 64) {after : Process}
    (present : (map.writeProcess address bytes).2.process = some after) :
    ∃ before, map.process = some before ∧
      (∀ place < 2 ^ 64, place ∉ (⟨address, bytes.length⟩ : Window) → after.memory place = before.memory place) ∧
      ((map.writeProcess address bytes).1 = .ok () → ∀ place < 2 ^ 64,
        place ∈ (⟨address, bytes.length⟩ : Window) → after.memory place = bytes[place - address]?) := by
  unfold writeProcess at present ⊢
  cases process : map.process with
  | none =>
    rw [process] at present
    exact nomatch process.symm.trans present
  | some before =>
    rw [process] at present
    refine ⟨before, rfl, ?_⟩
    cases fails : before.writeFails address bytes with
    | none =>
      simp only [Process.writeMemory, fails, Option.some.injEq] at present
      subst present
      exact ⟨fun place bounded outside => before.memory.write_outside (by omega) bounded outside,
        fun _ place _ inside => before.memory.write_inside (by omega) inside⟩
    | some written =>
      simp only [Process.writeMemory, fails, Option.some.injEq] at present ⊢
      subst present
      refine ⟨fun place bounded outside => ?_, nofun⟩
      have short : (bytes.take written).length ≤ bytes.length := length_take_le' written bytes
      apply before.memory.write_outside (by omega) bounded
      rw [Window.mem_mk] at outside ⊢
      omega

theorem findAllocation_within (tidy : map.Tidy) {size : Nat} (fits : address + size < 2 ^ 64)
    (found : map.findAllocation address size = some entry) :
    (⟨address, size⟩ : Window).Within entry.2.interval := by
  have member := findAllocation_mem found
  have key := tidy.key entry member
  unfold findAllocation at found
  split at found
  · cases found
  · have inside := (filter_eq_some_iff.mp found).2
    simp only [Bool.and_eq_true, decide_eq_true_eq] at inside
    refine Library.Window.within_iff.mpr (.inr ?_)
    simp only [interval]
    omega

theorem store_process {process : Option Process} (valid : allocation.policy ≠ .invalid)
    (inProcess : allocation.policy ≠ .hostOnly) : store process allocation = process.map (·.memory) := by
  unfold store
  cases policy : allocation.policy with
  | invalid => exact absurd policy valid
  | hostOnly => exact absurd policy inProcess
  | mirror => rfl
  | processOnly => rfl

theorem store_hostOnly (process : Option Process) (hostOnly : allocation.policy = .hostOnly) :
    store process allocation = some fun place => allocation.data[place - allocation.processStart]? := by
  rw [store, hostOnly]

theorem storeWritten_process (backed : Backed world) (process : map.process = world.map.process)
    (member : entry ∈ world.map.allocations.entries) {other : Allocation} (policy : other.policy = entry.2.policy)
    (fits : address + bytes.length < 2 ^ 64)
    (inProcess : entry.2.policy ≠ .hostOnly) {after : Nat → Option UInt8}
    (stored : store (map.writeProcess address bytes).2.process other = some after) :
    ∃ before, store world.map.process entry.2 = some before ∧
      StoreWritten entry.2.interval before after address bytes ((map.writeProcess address bytes).1 = .ok ()) := by
  have valid := backed.policy entry member
  have bounds := backed.tidy.fits entry member
  rw [store_process (policy ▸ valid) (policy ▸ inProcess)] at stored
  obtain ⟨last, present, rfl⟩ := map_eq_some_iff.mp stored
  obtain ⟨first, before, outside, inside⟩ := writeProcess_memory fits present
  have below : ∀ place ∈ entry.2.interval, place < 2 ^ 64 := by
    intro place inInterval
    simp only [Window.mem_iff, interval] at inInterval
    omega
  refine ⟨first.memory, ?_, fun place inInterval => outside place (below place inInterval),
    fun success place inInterval => inside success place (below place inInterval)⟩
  rw [store_process valid inProcess, ← process, before, map_some]

/-- An entry after a write, and the one it was: the same but for its buffer, and its store takes
the bytes that fall into it. -/
def EntryWritten (world : World) (next : IRMemoryMap) (address : Nat) (bytes : DataBuffer) (success : Prop)
    (entry : Nat × Allocation) : Prop :=
  ∃ before ∈ world.map.allocations.entries, entry.2.policy = before.2.policy ∧
    entry.2.interval = before.2.interval ∧ entry.2.data.length = before.2.data.length ∧
    ∀ after, store next.process entry.2 = some after → ∃ stored, store world.map.process before.2 = some stored ∧
      StoreWritten before.2.interval stored after address bytes success

/-- An entry that the write does not touch in the host, and whose interval it misses if it is host-only. -/
theorem entryWritten_process (backed : Backed world) (process : map.process = world.map.process)
    (member : entry ∈ world.map.allocations.entries)
    (fits : address + bytes.length < 2 ^ 64)
    (missed : entry.2.policy = .hostOnly → (⟨address, bytes.length⟩ : Window).Apart entry.2.interval) :
    EntryWritten world (map.writeProcess address bytes).2 address bytes
      ((map.writeProcess address bytes).1 = .ok ()) entry := by
  refine ⟨entry, member, rfl, rfl, rfl, fun after stored => ?_⟩
  by_cases hostOnly : entry.2.policy = .hostOnly
  · rw [store_hostOnly _ hostOnly] at stored
    exact ⟨after, (store_hostOnly _ hostOnly).trans stored, StoreWritten.of_apart _ (missed hostOnly)⟩
  · exact storeWritten_process backed process member rfl fits hostOnly stored

theorem store_copyIn (within : (⟨address, bytes.length⟩ : Window).Within allocation.interval)
    (length : allocation.data.length = allocation.size) (success : Prop) :
    StoreWritten allocation.interval (fun place => allocation.data[place - allocation.processStart]?)
      (fun place => (allocation.copyIn (address - allocation.processStart) bytes).data[place -
        (allocation.copyIn (address - allocation.processStart) bytes).processStart]?) address bytes success := by
  have bounds := Library.Window.within_iff.mp within
  simp only [interval] at bounds
  constructor
  · intro place member outside
    refine Window.getElem?_overwrite_outside ?_
    simp only [Window.mem_iff, interval, copyIn] at member outside ⊢
    omega
  · intro _ place member inside
    simp only [Window.mem_iff] at member inside
    have stored := Window.getElem?_overwrite_inside
      (show place - allocation.processStart ∈ (⟨address - allocation.processStart, bytes.length⟩ : Window)
        from Window.mem_mk.mpr (by omega))
      (show place - allocation.processStart < allocation.data.length by omega)
    refine stored.trans ?_
    congr 1
    omega

theorem writeMemory_entry (backed : Backed world) (keeps : world.map.KeepsViews (.writeMemory address bytes))
    (member : entry ∈ (world.map.writeMemory address bytes).2.allocations.entries) :
    EntryWritten world (world.map.writeMemory address bytes).2 address bytes
      ((world.map.writeMemory address bytes).1 = .ok ()) entry := by
  obtain ⟨fits, inside⟩ := keeps
  cases found : world.map.findAllocation address bytes.length with
  | none =>
    have missed : ∀ other ∈ world.map.allocations.entries, other.2.policy = .hostOnly →
        (⟨address, bytes.length⟩ : Window).Apart other.2.interval := by
      rcases inside with ⟨holder, listed, within⟩ | missed
      · by_cases empty : bytes.length = 0
        · intro other _ _ place changed
          rw [Window.mem_mk] at changed
          omega
        · rw [backed.tidy.findAllocation listed (Nat.pos_of_ne_zero empty) within] at found
          cases found
      · exact missed
    cases process : world.map.process with
    | none =>
      simp only [writeMemory, found, process] at member ⊢
      exact ⟨entry, member, rfl, rfl, rfl, fun after stored => ⟨after, stored, fun _ _ _ => rfl, nofun⟩⟩
    | some process =>
      simp only [writeMemory, found, process] at member ⊢
      rw [writeProcess_allocations] at member
      exact entryWritten_process backed rfl member fits (missed entry member)
  | some holder =>
    obtain ⟨key, allocation⟩ := holder
    have listed := findAllocation_mem found
    have within := findAllocation_within backed.tidy fits found
    have start : key = allocation.processStart := backed.tidy.key _ listed
    have positive : 0 < allocation.size := backed.tidy.nonempty _ listed
    have apart : ∀ other ∈ world.map.allocations.entries, other.1 ≠ allocation.processStart →
        (⟨address, bytes.length⟩ : Window).Apart other.2.interval := fun other otherListed different =>
      (backed.tidy.apart _ listed other otherListed (by rw [start]; exact different.symm)).mono within
    have filled : allocation.policy = .hostOnly ∨ allocation.policy = .mirror →
        allocation.data.length = allocation.size ∧ allocation.data ≠ [] := by
      intro inHost
      have length := backed.buffer _ listed inHost
      exact ⟨length, by rw [← length_pos_iff, length]; exact positive⟩
    simp only [writeMemory, found] at member ⊢
    cases policy : allocation.policy with
    | invalid => exact absurd policy (backed.policy _ listed)
    | hostOnly =>
      obtain ⟨length, some⟩ := filled (.inl policy)
      simp only [policy, some] at member ⊢
      rcases (world.map.allocations.mem_insert _ _ _).mp member with rfl | ⟨kept, different⟩
      · refine ⟨_, listed, rfl, rfl, Window.length_overwrite _ _ _, fun after stored => ?_⟩
        refine ⟨_, store_hostOnly _ policy, ?_⟩
        rw [store_hostOnly _ (show (allocation.copyIn (address - allocation.processStart) bytes).policy = .hostOnly
          from policy), Option.some.injEq] at stored
        rw [← stored]
        exact store_copyIn within length _
      · exact ⟨entry, kept, rfl, rfl, rfl, fun after stored =>
          ⟨after, stored, StoreWritten.of_apart _ (apart entry kept different)⟩⟩
    | mirror =>
      obtain ⟨-, some⟩ := filled (.inr policy)
      simp only [policy, some, if_false] at member ⊢
      rw [writeProcess_allocations] at member
      have process : (world.map.update (allocation.copyIn (address - allocation.processStart) bytes)).process =
        world.map.process := rfl
      rcases (world.map.allocations.mem_insert _ _ _).mp member with rfl | ⟨kept, different⟩
      · refine ⟨_, listed, rfl, rfl, Window.length_overwrite _ _ _, fun after stored => ?_⟩
        have samePolicy : (allocation.copyIn (address - allocation.processStart) bytes).policy =
          allocation.policy := rfl
        exact storeWritten_process backed process listed samePolicy fits (by rw [policy]; decide) stored
      · exact entryWritten_process backed process kept fits fun _ => apart entry kept different
    | processOnly =>
      simp only [policy] at member ⊢
      rw [writeProcess_allocations] at member
      refine entryWritten_process backed rfl member fits fun hostOnly => apart entry member fun same => ?_
      rw [world.map.allocations.eq_of_key_eq member listed (same.trans start.symm), policy] at hostOnly
      cases hostOnly

theorem writeMemory_nowhere {message : String}
    (failed : (map.writeMemory address bytes).1 = .error message) (gone : map.process = none) :
    (map.writeMemory address bytes).2 = map := by
  unfold writeMemory at failed ⊢
  split at failed
  · simp [gone]
  · next entry allocation found =>
    cases policy : allocation.policy with
    | invalid => simp
    | hostOnly =>
      by_cases empty : allocation.data = []
      · simp [empty]
      · simp [policy, empty] at failed
    | mirror =>
      by_cases empty : allocation.data = []
      · simp [empty]
      · simp [policy, empty, writeProcess, update, gone] at failed
    | processOnly => simp [policy, writeProcess, gone] at failed

theorem Backed.writeMemory (backed : Backed world) (keeps : world.map.KeepsViews (.writeMemory address bytes)) :
    Backed ⟨(world.map.writeMemory address bytes).2, world.map.noteWrite world.written address bytes⟩ where
  tidy := backed.tidy.writeMemory address bytes
  policy := by
    intro entry member
    obtain ⟨before, listed, policy, -⟩ := writeMemory_entry backed keeps member
    exact policy ▸ backed.policy before listed
  buffer := by
    intro entry member inHost
    obtain ⟨before, listed, policy, interval, length, -⟩ := writeMemory_entry backed keeps member
    rw [length, backed.buffer before listed (policy ▸ inHost)]
    exact congrArg Window.size interval.symm
  holds := by
    intro entry member after stored place inside byte known
    obtain ⟨before, listed, -, interval, -, written⟩ := writeMemory_entry backed keeps member
    obtain ⟨first, found, taken⟩ := written after stored
    have holds := backed.holds before listed first found
    have insideBefore : place ∈ before.2.interval := interval ▸ inside
    simp only [noteWrite] at known
    cases result : (world.map.writeMemory address bytes).1 with
    | ok value =>
      rw [result] at known taken
      exact StoreWritten.holds_noted true ⟨taken.1, fun _ => taken.2 rfl⟩ holds place insideBefore byte known
    | error message =>
      rw [result] at known taken
      cases process : world.map.process with
      | some process =>
        simp only [process] at known
        exact StoreWritten.holds_noted false ⟨taken.1, nofun⟩ holds place insideBefore byte known
      | none =>
        simp only [process] at known
        have same := writeMemory_nowhere result process
        simp only [same] at member stored
        exact backed.holds entry member after stored place inside byte known

/-! The other operations. -/

theorem Backed.free (backed : Backed world) (address : Nat) : Backed ⟨(world.map.free address).2, world.written⟩ := by
  have tidy := backed.tidy.free address
  unfold IRMemoryMap.free at tidy ⊢
  split at tidy
  · exact backed
  · have kept : ∀ entry ∈ (world.map.allocations.erase address).entries, entry ∈ world.map.allocations.entries :=
      fun entry member => ((world.map.allocations.mem_erase address entry).mp member).1
    exact {
      tidy
      policy := fun entry member => backed.policy entry (kept entry member)
      buffer := fun entry member => backed.buffer entry (kept entry member)
      holds := fun entry member => backed.holds entry (kept entry member) }

theorem Backed.leak {world : World} (backed : Backed world) (address : Nat) :
    Backed ⟨(world.map.leak address).2, world.written⟩ := by
  have tidy := backed.tidy.leak address
  unfold IRMemoryMap.leak at tidy ⊢
  split at tidy
  · exact backed
  · next allocation found =>
    have listed := (world.map.allocations.find?_eq_some_iff address allocation).mp found
    have entries : ∀ entry ∈ (world.map.update { allocation with leak := true }).allocations.entries,
        entry ∈ world.map.allocations.entries ∨ entry.2 = { allocation with leak := true } := by
      intro entry member
      rcases (world.map.allocations.mem_insert _ _ _).mp member with rfl | ⟨kept, -⟩
      · exact .inr rfl
      · exact .inl kept
    exact {
      tidy
      policy := fun entry member => (entries entry member).elim (backed.policy entry)
        fun same => same ▸ backed.policy _ listed
      buffer := fun entry member => (entries entry member).elim (backed.buffer entry)
        fun same => same ▸ backed.buffer _ listed
      holds := by
        intro entry member bytes stored place inside
        rcases entries entry member with kept | same
        · exact backed.holds entry kept bytes stored place inside
        · rw [same] at stored inside
          exact backed.holds _ listed bytes stored place inside }

theorem Backed.processGone (backed : Backed world) : Backed ⟨{ world.map with process := none }, world.written⟩ where
  tidy := backed.tidy.of_allocations rfl
  policy := backed.policy
  buffer := backed.buffer
  holds := by
    intro entry member bytes stored
    by_cases hostOnly : entry.2.policy = .hostOnly
    · rw [store_hostOnly _ hostOnly, ← store_hostOnly world.map.process hostOnly] at stored
      exact backed.holds entry member bytes stored
    · rw [store_process (backed.policy entry member) hostOnly] at stored
      cases stored

theorem Backed.writeProcess (backed : Backed world) (fits : address + bytes.length < 2 ^ 64)
    (apart : ∀ entry ∈ world.map.allocations.entries, (⟨address, bytes.length⟩ : Window).Apart entry.2.interval) :
    Backed ⟨(world.map.writeProcess address bytes).2, world.written⟩ := by
  have same := world.map.writeProcess_allocations address bytes
  exact {
    tidy := backed.tidy.of_allocations same
    policy := same ▸ backed.policy
    buffer := same ▸ backed.buffer
    holds := by
      intro entry member after stored place inside byte known
      have listed : entry ∈ world.map.allocations.entries := same ▸ member
      by_cases hostOnly : entry.2.policy = .hostOnly
      · rw [store_hostOnly _ hostOnly, ← store_hostOnly world.map.process hostOnly] at stored
        exact backed.holds entry listed after stored place inside byte known
      · obtain ⟨before, found, outside, -⟩ := storeWritten_process backed rfl listed rfl fits hostOnly stored
        rw [outside place inside fun changed => apart entry listed place changed inside]
        exact backed.holds entry listed before found place inside byte known }

theorem Backed.obtain {world : World} (backed : Backed world) {fuel : Nat} {allocateMemory : Nat → Option Nat}
    {request : MallocRequest} (promised : world.map.Promised fuel allocateMemory request)
    {obtained : Obtained} (asked : world.map.obtain fuel allocateMemory request = some obtained) :
    Backed ⟨obtained.2, world.written⟩ := by
  have inHost : ∀ {size : Nat}, world.map.obtainInHost fuel allocateMemory size = some obtained →
      Backed ⟨obtained.2, world.written⟩ := by
    intro size asked
    obtain ⟨_, -, rfl⟩ := map_eq_some_iff.mp asked
    exact backed
  have inProcess : Backed ⟨(world.map.obtainInProcess allocateMemory
      (allocationSize request.size request.alignment) request).2, world.written⟩ := by
    have zeroed : Backed ⟨(world.map.allocateInProcess allocateMemory
        (allocationSize request.size request.alignment) request.zeroMemory).2, world.written⟩ := by
      unfold allocateInProcess
      split
      · exact backed
      · next address answered =>
        obtain ⟨fits, apart⟩ := promised.allocator address answered
        split
        · refine backed.writeProcess (by rw [length_replicate]; exact fits) fun entry member => ?_
          rw [length_replicate, show entry.2.interval = entry.2.region by
            rw [region, backed.tidy.atRegion entry member, interval]]
          exact apart entry member
        · exact backed
    unfold obtainInProcess
    split <;> next allocated => rw [allocated] at zeroed; exact zeroed
  unfold IRMemoryMap.obtain at asked
  split at asked
  · cases asked; exact backed
  · exact inHost asked
  · split at asked
    · cases asked; exact inProcess
    · exact inHost asked
  · split at asked
    · cases asked; exact backed
    · split at asked
      · cases asked; exact inProcess
      · cases asked; exact backed

theorem Backed.insert {world : World} (backed : Backed world) {address size : Nat} (permissions alignment : Nat)
    {policy : AllocationPolicy} (valid : policy ≠ .invalid) (nonempty : 0 < size) (fits : address + size < 2 ^ 64)
    (apart : ∀ entry ∈ world.map.allocations.entries, (⟨address, size⟩ : Window).Apart entry.2.interval) :
    Backed ⟨world.map.update (.new address address size permissions alignment policy),
      Memory.write world.written address (replicate size none)⟩ := by
  have entries : ∀ entry ∈ (world.map.update (.new address address size permissions alignment policy)).allocations.entries,
      entry = (address, .new address address size permissions alignment policy) ∨
        entry ∈ world.map.allocations.entries := by
    intro entry member
    rcases (world.map.allocations.mem_insert _ _ _).mp member with fresh | ⟨kept, -⟩
    · exact .inl fresh
    · exact .inr kept
  refine ⟨backed.tidy.insert rfl nonempty fits apart, ?_, ?_, ?_⟩
  · intro entry member
    rcases entries entry member with rfl | kept
    · exact valid
    · exact backed.policy entry kept
  · intro entry member inHost
    rcases entries entry member with rfl | kept
    · have filled : policy = .hostOnly ∨ policy = .mirror := inHost
      simp [new, filled]
    · exact backed.buffer entry kept inHost
  · intro entry member bytes stored place inside byte known
    rcases entries entry member with rfl | kept
    · have forgotten := Library.Memory.write_inside world.written
        (show place ∈ (⟨address, (replicate size (none : Option UInt8)).length⟩ : Window) by
          rw [length_replicate]; exact inside)
      rw [show Memory.write world.written address (replicate size none) place = some byte from known] at forgotten
      exact nomatch eq_of_mem_replicate (mem_of_getElem? forgotten.symm)
    · have old : world.written place = some byte := by
        rw [← known]
        refine (Library.Memory.write_outside world.written fun changed => ?_).symm
        rw [length_replicate] at changed
        exact apart entry kept place changed inside
      exact backed.holds entry kept bytes stored place inside byte old

theorem le_allocationSize {size exponent : Nat} (bounded : size < 2 ^ 63) (small : exponent ≤ 7) :
    size ≤ allocationSize size (2 ^ exponent) := by
  have positive : 0 < 2 ^ exponent := Nat.two_pow_pos exponent
  have byte : 2 ^ exponent ≤ 2 ^ 7 := Nat.pow_le_pow_right (by decide) small
  unfold allocationSize
  split
  · omega
  · rw [alignTo, Nat.mod_eq_of_lt (by omega)]
    have split := Nat.div_add_mod (size + 2 ^ exponent - 1) (2 ^ exponent)
    rw [mul_comm] at split
    omega

theorem obtain_policy {next : IRMemoryMap} {fuel : Nat} {request : MallocRequest} {policy : AllocationPolicy}
    (positive : 0 < allocationSize request.size request.alignment)
    (obtained : map.obtain fuel allocateMemory request = some (.ok (policy, address), next)) : policy ≠ .invalid := by
  rcases obtain_cases obtained with ⟨inHost, -⟩ | ⟨-, valid, inProcess⟩
  · rw [(obtainInHost_spec positive inHost).2.2.1]
    decide
  · rw [(obtainInProcess_spec inProcess).2]
    exact valid

theorem Backed.malloc {next : World} (backed : Backed world) {fuel : Nat} {request : MallocRequest}
    (promised : world.map.Promised fuel allocateMemory request)
    (keeps : world.map.KeepsViews (.malloc fuel allocateMemory request))
    (performed : world.perform (.malloc fuel allocateMemory request) = some next) : Backed next := by
  obtain ⟨exponent, small, alignment⟩ := promised.alignment
  have positive : 0 < allocationSize request.size request.alignment := by
    rw [alignment]
    exact allocationSize_pos promised.size
  obtain ⟨map, allocated, rfl⟩ := map_eq_some_iff.mp performed
  obtain ⟨⟨result, last⟩, returned, rfl⟩ := map_eq_some_iff.mp allocated
  simp only [World.note, noteMalloc]
  unfold IRMemoryMap.malloc at returned
  cases obtained : world.map.obtain fuel allocateMemory request with
  | none =>
    rw [obtained] at returned
    cases returned
  | some outcome =>
    have after := backed.obtain promised obtained
    have same := obtain_allocations obtained
    obtain ⟨answer, map⟩ := outcome
    cases answer with
    | error message =>
      rw [obtained] at returned
      cases returned
      exact after
    | ok answer =>
      obtain ⟨policy, address⟩ := answer
      rw [obtained] at returned
      dsimp only at returned after same ⊢
      obtain ⟨answered, valid⟩ := obtain_spec positive obtained
      obtain ⟨fits, apart⟩ := backed.tidy.region promised positive answered valid
      have start : alignAddress address request.alignment = address := by
        have divides := keeps address answered
        rw [alignment] at divides ⊢
        exact alignAddress_of_dvd small (by omega) divides
      -- The new region lies apart from the live ones, so nothing is recorded at its start.
      have free : map.allocations.find? address = none := by
        rw [same]
        cases taken : world.map.allocations.find? address with
        | none => rfl
        | some allocation =>
          have listed := (world.map.allocations.find?_eq_some_iff address allocation).mp taken
          have key := backed.tidy.key _ listed
          have some := backed.tidy.nonempty _ listed
          refine absurd ?_ (apart _ listed address (Window.mem_mk.mpr (by omega)))
          simp only [Window.mem_iff, interval]
          dsimp only at key some
          omega
      have placed : map.emplace request policy address = map.update (.new address address
          (allocationSize request.size request.alignment) request.permissions request.alignment policy) := by
        simp [emplace, start, free]
      have fresh := after.insert request.permissions request.alignment (obtain_policy positive obtained) positive fits
        (by rw [same]; exact apart)
      rw [start, placed] at returned ⊢
      by_cases zero : request.zeroMemory
      · rw [if_pos zero] at returned ⊢
        by_cases large : 2 ^ 63 ≤ request.size
        · rw [if_pos large] at returned
          cases returned
        · rw [if_neg large, Option.some.injEq, Prod.mk.injEq] at returned
          rw [← returned.2]
          have fill : request.size ≤ allocationSize request.size request.alignment := by
            rw [alignment]
            exact le_allocationSize (by omega) small
          apply fresh.writeMemory
          refine ⟨by rw [length_replicate]; omega, .inl ⟨_, (map.allocations.mem_insert _ _ _).mpr (.inl rfl), ?_⟩⟩
          rw [length_replicate]
          exact Library.Window.within_iff.mpr (.inr ⟨Nat.le_refl address, Nat.add_le_add_left fill address⟩)
      · rw [if_neg zero] at returned ⊢
        rw [Option.some.injEq, Prod.mk.injEq] at returned
        rw [← returned.2]
        exact fresh

/-! Runs. -/

namespace World

def Step (world next : World) : Prop :=
  ∃ operation, world.map.Assumed operation ∧ world.map.KeepsViews operation ∧ world.perform operation = some next

end World

theorem Backed.empty (process : Option Process) (target : Option Target) (written : Written) :
    Backed ⟨⟨Library.OrderedMap.empty, process, target⟩, written⟩ :=
  ⟨Tidy.empty process target, nofun, nofun, nofun⟩

theorem Backed.step {world next : World} (backed : Backed world) (step : world.Step next) : Backed next := by
  obtain ⟨operation, assumed, keeps, performed⟩ := step
  cases operation with
  | malloc fuel allocateMemory request => exact backed.malloc assumed keeps performed
  | free processAddress => cases performed; exact backed.free processAddress
  | leak processAddress => cases performed; exact backed.leak processAddress
  | writeMemory processAddress bytes => cases performed; exact backed.writeMemory keeps
  | processChanges process => cases keeps; cases performed; exact backed.processGone

theorem run_backed {last : World} (backed : Backed world)
    (run : Relation.ReflTransGen World.Step world last) : Backed last := by
  induction run with
  | refl => exact backed
  | tail _ step ih => exact ih.step step

/-! The two ways to read. -/

/-- Where `GetMemoryData` reports no error, it gives the range, as `ReadMemory` does, with the bytes
written last. -/
def ViewsAgree (world : World) (address size : Nat) : Prop :=
  ∀ extractor next, world.map.getMemoryData [] address size = (.ok extractor, next) →
    extractor.length = size ∧ (∀ bytes, world.map.readMemory bytes address size = .ok extractor) ∧
      ∀ index < size, ∀ byte, world.written (address + index) = some byte → extractor[index]? = some byte

theorem Backed.backing_views_iff (backed : Backed world)
    (member : entry ∈ world.map.allocations.entries) {size : Nat} (nonempty : 0 < size)
    (within : (⟨address, size⟩ : Window).Within entry.2.interval) :
    ViewsAgree world address size ↔ ¬ (entry.2.policy = .mirror ∧ world.map.process = none) := by
  obtain ⟨key, allocation⟩ := entry
  have found := backed.tidy.findAllocation member nonempty within
  have positive : 0 < allocation.size := backed.tidy.nonempty _ member
  have fits : allocation.processStart + allocation.size < 2 ^ 64 := backed.tidy.fits _ member
  have holds := backed.holds _ member
  have bounds : allocation.processStart ≤ address ∧ address + size ≤ allocation.processStart + allocation.size :=
    (Library.Window.within_iff.mp within).resolve_left nonempty.ne'
  have inside : ∀ index < size, address + index ∈ allocation.interval := by
    intro index below
    simp only [Window.mem_iff, interval]
    omega
  have offset : ¬ allocation.size < address - allocation.processStart := by omega
  cases policy : allocation.policy with
  | invalid => exact absurd policy (backed.policy _ member)
  | hostOnly =>
    have length : allocation.data.length = allocation.size := backed.buffer _ member (.inl policy)
    have some : allocation.data ≠ [] := by rw [← length_pos_iff, length]; exact positive
    have enough : ¬ allocation.data.length < address - allocation.processStart + size := by omega
    refine iff_of_true ?_ (by rintro ⟨other, -⟩; cases other)
    rintro extractor next got
    simp only [getMemoryData, nonempty.ne', found, policy, some, if_false, Prod.mk.injEq, Except.ok.injEq] at got
    rw [← got.1]
    refine ⟨Window.length_read (by simp only; omega), fun bytes => ?_, fun index below byte known => ?_⟩
    · simp [readMemory, found, offset, policy, some, enough]
    · have stored := holds _ (store_hostOnly _ policy) _ (inside index below) byte known
      rw [Window.getElem?_read, if_pos below]
      refine Eq.trans ?_ stored
      congr 1
      dsimp only
      omega
  | processOnly =>
    refine iff_of_true ?_ (by rintro ⟨other, -⟩; cases other)
    rintro extractor next got
    simp only [getMemoryData, nonempty.ne', found, policy, if_false, Prod.mk.injEq] at got
    cases got.1
  | mirror =>
    have length : allocation.data.length = allocation.size := backed.buffer _ member (.inr policy)
    have some : allocation.data ≠ [] := by rw [← length_pos_iff, length]; exact positive
    cases process : world.map.process with
    | none =>
      refine iff_of_false (fun agree => ?_) fun present => present ⟨rfl, rfl⟩
      have got : world.map.getMemoryData [] address size = (.ok [], world.map) := by
        simp [getMemoryData, nonempty.ne', found, policy, some, process]
      have empty := (agree [] world.map got).1
      rw [length_nil] at empty
      omega
    | some running =>
      refine iff_of_true ?_ (by rintro ⟨-, missing⟩; cases missing)
      rintro extractor next got
      simp only [getMemoryData, nonempty.ne', found, policy, some, process, if_false, Prod.mk.injEq] at got
      obtain ⟨got, -⟩ := got
      split at got
      · next whole =>
        -- The buffer is filled from the process, so a part of it is what the process has there.
        have refreshed : (allocation.copyIn 0 (running.memory.readMemoryFromInferior allocation.processStart
            allocation.data.length)).data = running.memory.readMemoryFromInferior allocation.processStart
              allocation.data.length := by
          have all := Window.read_overwrite ⟨0, allocation.data.length⟩ whole
            (show 0 + allocation.data.length ≤ allocation.data.length by omega)
          have same := Window.read_all (Window.overwrite 0 (running.memory.readMemoryFromInferior
            allocation.processStart allocation.data.length) allocation.data)
          rw [Window.length_overwrite] at same
          exact same.symm.trans all
        have part := running.memory.readMemoryFromInferior_part whole
          (show address - allocation.processStart + size ≤ allocation.data.length by omega)
        rw [show allocation.processStart + (address - allocation.processStart) = address by omega] at part
        rw [refreshed, Except.ok.injEq, Window.read, ← part] at got
        have full : (running.memory.readMemoryFromInferior address size).length = size := by
          rw [part, length_take, length_drop]
          omega
        rw [← got]
        refine ⟨full, fun bytes => ?_, fun index below byte known => ?_⟩
        · simp [readMemory, found, offset, policy, process, Process.readMemory, full]
        · have stored := holds running.memory (by rw [store, policy, process]; rfl) _ (inside index below) byte known
          have readable := getElem?_eq_getElem
            (show index < (running.memory.readMemoryFromInferior address size).length by omega)
          have same := ((running.memory.getElem?_readMemoryFromInferior address size index _).mp readable).2.1
          rw [Nat.mod_eq_of_lt (by omega), stored] at same
          rw [readable, same]
      · cases got

def World.new (process : Option Process) (target : Option Target) : World :=
  ⟨⟨Library.OrderedMap.empty, process, target⟩, fun _ => none⟩

def World.after (world : World) (operation : Operation) : World := (world.perform operation).getD world

def mirrored : World := (World.new (some freshProcess) none).after (allocateAt 0x1000)

theorem mirrored_reached : Relation.ReflTransGen World.Step (World.new (some freshProcess) none) mirrored := by
  refine .single ⟨allocateAt 0x1000, eightBytes_promised rfl (by decide) (by rintro entry ⟨⟩), ?_, rfl⟩
  rintro address ⟨⟩
  decide

theorem mirroredGone_reached : Relation.ReflTransGen World.Step (World.new (some freshProcess) none)
    (mirrored.after (.processChanges none)) :=
  mirrored_reached.tail ⟨.processChanges none, trivial, rfl, rfl⟩

end IRMemoryMap
end Lldb
