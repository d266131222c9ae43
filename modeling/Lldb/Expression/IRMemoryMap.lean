import Lldb.Library.Window
import Lldb.Target.MemoryCacheRead

/-! `IRMemoryMap`: allocations that expressions use, kept in the host, in the process or in
both.

Sizes and addresses are 64-bit and wrap. A process is what the map sees of it; the
address that its allocator answers with is an argument of the operation that asks. The
log and the scalar accessors are not modelled, nor is running out of memory in the host.
-/

set_option autoImplicit false

namespace Lldb

open Library (Window)

inductive OptionalBool where
  | no
  | yes
  | dontKnow
  deriving DecidableEq, Repr

structure MemoryRegionInfo where
  range : Range
  readable : OptionalBool
  writable : OptionalBool
  executable : OptionalBool
  deriving DecidableEq, Repr

/-- A process that expressions run in. `writeFails` is how many bytes a write that fails has
written by then, and `none` for a write that succeeds. -/
structure Process where
  isAlive : Bool
  canJIT : Bool
  addressByteSize : Nat
  memory : Inferior
  writeFails : Nat → DataBuffer → Option Nat
  getMemoryRegionInfo : Nat → Option MemoryRegionInfo

namespace Process

def readMemory (process : Process) (address size : Nat) : Option DataBuffer :=
  let bytes := process.memory.readMemoryFromInferior address size
  if bytes.length = size then some bytes else none

def writeMemory (process : Process) (address : Nat) (bytes : DataBuffer) : Bool × Process :=
  match process.writeFails address bytes with
  | none => (true, { process with memory := process.memory.write address bytes })
  | some written => (false, { process with memory := process.memory.write address (bytes.take written) })

end Process

structure Target where
  addressByteSize : Nat
  memory : Inferior

inductive AllocationPolicy where
  | invalid
  | hostOnly
  | mirror
  | processOnly
  deriving DecidableEq, Repr

/-- An allocation; its buffer has the recorded size where the host keeps one. -/
structure Allocation where
  processAlloc : Nat
  processStart : Nat
  size : Nat
  permissions : Nat
  alignment : Nat
  policy : AllocationPolicy
  leak : Bool
  data : DataBuffer
  deriving DecidableEq, Repr

def Allocation.new (processAlloc processStart size permissions alignment : Nat) (policy : AllocationPolicy) :
    Allocation where
  processAlloc := processAlloc
  processStart := processStart
  size := size
  permissions := permissions % 2 ^ 8
  alignment := alignment
  policy := policy
  leak := false
  data := if policy = .hostOnly ∨ policy = .mirror then List.replicate size 0 else []

/-- `memcpy` into the buffer of an allocation. -/
def Allocation.copyIn (allocation : Allocation) (offset : Nat) (bytes : DataBuffer) : Allocation :=
  { allocation with data := Window.overwrite offset bytes allocation.data }

abbrev AllocationMap := Library.OrderedMap Nat Allocation

structure IRMemoryMap where
  allocations : AllocationMap
  process : Option Process
  target : Option Target

/-- `llvm::alignTo` in 64-bit arithmetic. -/
def alignTo (value align : Nat) : Nat := (value + align - 1) % 2 ^ 64 / align * align

namespace IRMemoryMap

variable (map : IRMemoryMap)

/-- `GetAddressByteSize`; `UINT32_MAX` without a process and a target. -/
def getAddressByteSize : Nat :=
  match map.process, map.target with
  | some process, _ => process.addressByteSize
  | none, some target => target.addressByteSize
  | none, none => 2 ^ 32 - 1

def processIsAlive : Bool := map.process.any (·.isAlive)

def processAllocates : Bool := map.process.any fun process => process.canJIT && process.isAlive

/-- The end of the last allocation on a page boundary, if there is an allocation. -/
def endOfAllocations : Option Nat :=
  map.allocations.entries.getLast?.map fun last => alignTo ((last.1 + last.2.size) % 2 ^ 64) 4096

/-- The walk over the regions of the process: the address it returns, if it finds one, or
the one it ends with when there is no more room. -/
def walkRegions (process : Process) (size endOfMemory : Nat) : Nat → Nat → MemoryRegionInfo → Option (Bool × Nat)
  | 0, _, _ => none
  | fuel + 1, ret, region =>
      let walkOn (ret : Nat) : Option (Bool × Nat) :=
        match process.getMemoryRegionInfo region.range.rangeEnd with
        | none => some (false, invalidAddress)
        | some next => walkRegions process size endOfMemory fuel ret next
      if region.readable ≠ .no ∨ region.writable ≠ .no ∨ region.executable ≠ .no then
        if endOfMemory ≤ (region.range.rangeEnd + 2 ^ 64 - 1) % 2 ^ 64 then some (false, invalidAddress)
        else walkOn region.range.rangeEnd
      else if (ret + size) % 2 ^ 64 < region.range.rangeEnd then some (true, ret)
      -- The address stays; the walk goes a bit further.
      else walkOn ret

/-- The walk from `ret` on, where there is a process to ask. -/
def hunt (fuel size ret : Nat) : Option (Bool × Nat) :=
  match map.process with
  | none => some (false, ret)
  | some process =>
      if process.isAlive then
        match process.getMemoryRegionInfo ret with
        | none => some (false, ret)
        | some region =>
            walkRegions process size (if process.addressByteSize = 8 then 2 ^ 64 - 1 else 2 ^ 32 - 1) fuel ret region
      else some (false, ret)

/-- Where memory for `size` bytes is found; `none` if the walk takes more steps than `fuel`. -/
def findSpace (fuel : Nat) (allocateMemory : Nat → Option Nat) (size : Nat) : Option Nat :=
  if size = 0 then some invalidAddress
  else if map.processAllocates then some ((allocateMemory size).getD invalidAddress)
  else
    match map.hunt fuel size (map.endOfAllocations.getD 0) with
    | none => none
    | some (true, ret) => some ret
    -- No room was found: back to the end of the allocations, or to a sensible default.
    | some (false, ret) =>
        match map.endOfAllocations with
        | some stop => some stop
        | none => some (if map.getAddressByteSize = 8 then 0xffffffff00000000
            else if map.getAddressByteSize = 4 then 0xee000000 else ret)

def findAllocation (address size : Nat) : Option (Nat × Allocation) :=
  if address = invalidAddress then none
  else
    (map.allocations.atOrBefore address).filter fun iter =>
      iter.1 ≤ address && (address + size) % 2 ^ 64 ≤ (iter.1 + iter.2.size) % 2 ^ 64

def update (allocation : Allocation) : IRMemoryMap :=
  { map with allocations := map.allocations.insert allocation.processStart allocation }

def writeProcess (address : Nat) (bytes : DataBuffer) : Except String Unit × IRMemoryMap :=
  match map.process with
  | none => (.ok (), map)
  | some process =>
      let (success, process) := process.writeMemory address bytes
      (if success then .ok () else .error "memory write failed", { map with process := some process })

def writeMemory (processAddress : Nat) (bytes : DataBuffer) : Except String Unit × IRMemoryMap :=
  match map.findAllocation processAddress bytes.length with
  | none =>
      match map.process with
      | some _ => map.writeProcess processAddress bytes
      | none => (.error "Couldn't write: no allocation contains the target range and the process doesn't exist", map)
  | some (_, allocation) =>
      let offset := processAddress - allocation.processStart
      let copied := map.update (allocation.copyIn offset bytes)
      match allocation.policy with
      | .invalid => (.error "Couldn't write: invalid allocation policy", map)
      | .hostOnly =>
          if allocation.data = [] then (.error "Couldn't write: data buffer is empty", map)
          else (.ok (), copied)
      | .mirror =>
          if allocation.data = [] then (.error "Couldn't write: data buffer is empty", map)
          else copied.writeProcess processAddress bytes
      | .processOnly => map.writeProcess processAddress bytes

/-- `AllocateMemory` or, for zeroed memory, `CallocateMemory` of the process. -/
def allocateInProcess (allocateMemory : Nat → Option Nat) (size : Nat) (zeroMemory : Bool) :
    Except String Nat × IRMemoryMap :=
  match allocateMemory size with
  | none => (.error "Couldn't allocate memory", map)
  | some address =>
      if zeroMemory then
        let (written, map) := map.writeProcess address (List.replicate size 0)
        (written.map fun _ => address, map)
      else (.ok address, map)

def allocationSize (size alignment : Nat) : Nat :=
  if size = 0 then alignment else alignTo size alignment + (alignment - 1)

/-- `(address + mask) & ~mask`. -/
def alignAddress (address alignment : Nat) : Nat :=
  (address + (alignment - 1)) % 2 ^ 64 &&& (2 ^ 64 - 1 - (alignment - 1))

structure MallocRequest where
  size : Nat
  alignment : Nat
  permissions : Nat
  policy : AllocationPolicy
  zeroMemory : Bool
  deriving DecidableEq, Repr

/-- The policy that an allocation ends up with and the address obtained for it, or an error, and the
map that the request leaves. -/
abbrev Obtained := Except String (AllocationPolicy × Nat) × IRMemoryMap

def obtainInHost (fuel : Nat) (allocateMemory : Nat → Option Nat) (size : Nat) : Option Obtained :=
  (map.findSpace fuel allocateMemory size).map fun address =>
    (if address = invalidAddress then .error "Couldn't malloc: address space is full"
      else .ok (.hostOnly, address), map)

def obtainInProcess (allocateMemory : Nat → Option Nat) (size : Nat)
    (request : MallocRequest) : Obtained :=
  match map.allocateInProcess allocateMemory size request.zeroMemory with
  | (.error message, next) => (.error message, next)
  | (.ok address, next) => (.ok (request.policy, address), next)

def obtain (fuel : Nat) (allocateMemory : Nat → Option Nat) (request : MallocRequest) :
    Option Obtained :=
  let size := allocationSize request.size request.alignment
  match request.policy with
  | .invalid => some (.error "Couldn't malloc: invalid allocation policy", map)
  | .hostOnly => map.obtainInHost fuel allocateMemory size
  | .mirror =>
      if map.processAllocates then some (map.obtainInProcess allocateMemory size request)
      else map.obtainInHost fuel allocateMemory size
  | .processOnly =>
      if map.process.isNone then
        some (.error "Couldn't malloc: process doesn't exist, and this memory must be in the process", map)
      else if map.processAllocates then some (map.obtainInProcess allocateMemory size request)
      else some (.error "Couldn't malloc: process doesn't support allocating memory", map)

/-- The map with a new allocation at its aligned address, unless one is there already. -/
def emplace (request : MallocRequest) (policy : AllocationPolicy) (address : Nat) : IRMemoryMap :=
  let alignedAddress := alignAddress address request.alignment
  match map.allocations.find? alignedAddress with
  | some _ => map
  | none => map.update (.new address alignedAddress (allocationSize request.size request.alignment)
      request.permissions request.alignment policy)

/-- `none` where the call does not return: the walk over the regions runs out of fuel, or the
buffer of zeros is larger than a vector can be. -/
def malloc (fuel : Nat) (allocateMemory : Nat → Option Nat) (request : MallocRequest) :
    Option (Except String Nat × IRMemoryMap) :=
  match map.obtain fuel allocateMemory request with
  | none => none
  | some (.error message, map) => some (.error message, map)
  | some (.ok (policy, address), map) =>
      let alignedAddress := alignAddress address request.alignment
      let placed := map.emplace request policy address
      if request.zeroMemory then
        if 2 ^ 63 ≤ request.size then none
        else some (.ok alignedAddress, (placed.writeMemory alignedAddress (List.replicate request.size 0)).2)
      else some (.ok alignedAddress, placed)

def leak (map : IRMemoryMap) (processAddress : Nat) : Except String Unit × IRMemoryMap :=
  match map.allocations.find? processAddress with
  | none => (.error "Couldn't leak: allocation doesn't exist", map)
  | some allocation => (.ok (), map.update { allocation with leak := true })

def free (map : IRMemoryMap) (processAddress : Nat) : Except String Unit × IRMemoryMap :=
  match map.allocations.find? processAddress with
  | none => (.error "Couldn't free: allocation doesn't exist", map)
  | some _ => (.ok (), { map with allocations := map.allocations.erase processAddress })

/-- The bytes that end up in the buffer `bytes`. -/
def readMemory (map : IRMemoryMap) (bytes : DataBuffer) (processAddress size : Nat) : Except String DataBuffer :=
  match map.findAllocation processAddress size with
  | none =>
      match map.process, map.target with
      | some process, _ =>
          match process.readMemory processAddress size with
          | some read => .ok read
          | none => .error "memory read failed"
      | none, some target =>
          let read := target.memory.readMemoryFromInferior processAddress size
          if read.length = size then .ok read else .error "memory read failed"
      | none, none => .error
          "Couldn't read: no allocation contains the target range, and neither the process nor the target exist"
  | some (_, allocation) =>
      let offset := processAddress - allocation.processStart
      if allocation.size < offset then .error "Couldn't read: data is not in the allocation"
      else
        match allocation.policy, map.process with
        | .invalid, _ => .error "Couldn't read: invalid allocation policy"
        | .hostOnly, _ =>
            if allocation.data = [] then .error "Couldn't read: data buffer is empty"
            else if allocation.data.length < offset + size then .error "Couldn't read: not enough underlying data"
            else .ok ((⟨offset, size⟩ : Window).read allocation.data)
        | .mirror, none =>
            if allocation.data = [] then .error "Couldn't read: data buffer is empty"
            else .ok ((⟨offset, size⟩ : Window).read allocation.data)
        | .mirror, some process | .processOnly, some process =>
            match process.readMemory processAddress size with
            | some read => .ok read
            | none => .error "memory read failed"
        -- Without a process nothing is copied, and that is no error.
        | .processOnly, none => .ok bytes

/-- What the extractor holds after `GetMemoryData`, and the map with the buffer it refreshes. -/
def getMemoryData (extractor : DataBuffer) (processAddress size : Nat) :
    Except String DataBuffer × IRMemoryMap :=
  if size = 0 then (.error "Couldn't get memory data: its size was zero", map)
  else
    match map.findAllocation processAddress size with
    | none => (.error "Couldn't find an allocation containing the range", map)
    | some (_, allocation) =>
        let offset := processAddress - allocation.processStart
        match allocation.policy with
        | .invalid => (.error "Couldn't get memory data: invalid allocation policy", map)
        | .processOnly => (.error "Couldn't get memory data: memory is only in the target", map)
        | .mirror =>
            if allocation.data = [] then (.error "Couldn't get memory data: data buffer is empty", map)
            else
              match map.process with
              | some process =>
                  let read := process.memory.readMemoryFromInferior allocation.processStart allocation.data.length
                  let refreshed := allocation.copyIn 0 read
                  (if read.length = allocation.data.length then
                      .ok ((⟨offset, size⟩ : Window).read refreshed.data)
                    else .error "memory read failed", map.update refreshed)
              -- The switch is left with the extractor as it was, and without an error.
              | none => (.ok extractor, map)
        | .hostOnly =>
            if allocation.data = [] then (.error "Couldn't get memory data: data buffer is empty", map)
            else (.ok ((⟨offset, size⟩ : Window).read allocation.data), map)

end IRMemoryMap
end Lldb
