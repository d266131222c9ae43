import Lldb.Breakpoint.BreakpointSite
import Lldb.Library.Memory
import Lldb.Target.MemoryCacheRead

/-! Memory of a process with breakpoints: reading and writing it, and enabling and disabling
software breakpoints.

How much of a request one call to the process moves is up to the process. The memory cache,
the log and the texts of errors are not modelled; that an error was set is.
-/

set_option autoImplicit false

namespace Lldb

open Library (Window Memory.write Memory.write_nil Memory.write_append Memory.write_inside
  Memory.write_outside)

def Inferior.store (inferior : Inferior) (address : Nat) (bytes : List UInt8) : Inferior :=
  Memory.write inferior address (bytes.map some)

namespace Inferior

variable (inferior : Inferior)

theorem store_nil (address : Nat) : inferior.store address [] = inferior := Memory.write_nil inferior address

theorem store_append (address : Nat) (front back : List UInt8) :
    (inferior.store address front).store (address + front.length) back = inferior.store address (front ++ back) := by
  have both := Memory.write_append inferior address (front.map some) (back.map some)
  rwa [List.length_map, ← List.map_append] at both

theorem store_inside {address place : Nat} {bytes : List UInt8} (inside : place ∈ (⟨address, bytes.length⟩ : Window)) :
    inferior.store address bytes place = bytes[place - address]? := by
  have stored := Memory.write_inside inferior
    (show place ∈ (⟨address, (bytes.map some).length⟩ : Window) by rwa [List.length_map])
  rw [Window.mem_mk] at inside
  rw [List.getElem?_map, List.getElem?_eq_getElem (by omega), Option.map_some, Option.some_inj] at stored
  simp [store, stored]

theorem store_outside {address place : Nat} {bytes : List UInt8}
    (outside : place ∉ (⟨address, bytes.length⟩ : Window)) : inferior.store address bytes place = inferior place :=
  Memory.write_outside inferior (by rwa [List.length_map])

end Inferior

/-- How many bytes `DoReadMemory` and `DoWriteMemory` move of those asked for. A read that can read moves
some; a write that moves none has failed. -/
structure Transfers where
  reads : Nat → Nat → Nat
  writes : Nat → Nat → Nat
  reads_le : ∀ address size, reads address size ≤ size
  reads_pos : ∀ address size, 0 < size → 0 < reads address size
  writes_le : ∀ address size, writes address size ≤ size

structure ProcessMemory where
  inferior : Inferior
  sites : BreakpointSiteList

namespace ProcessMemory

variable (transfers : Transfers)

def doReadMemory (inferior : Inferior) (address size : Nat) : List UInt8 :=
  inferior.readMemoryFromInferior address (transfers.reads address size)

def doWriteMemory (inferior : Inferior) (address : Nat) (bytes : List UInt8) : Nat × Inferior :=
  let count := transfers.writes address bytes.length
  (count, inferior.store address (bytes.take count))

/-- The loop of `ReadMemoryFromInferior`; every turn but the last reads something, so `size` turns are enough. -/
def readChunks (transfers : Transfers) (inferior : Inferior) : Nat → Nat → Nat → List UInt8
  | 0, _, _ => []
  | fuel + 1, address, size =>
      let chunk := doReadMemory transfers inferior address size
      if chunk.length = size ∨ chunk.length = 0 then chunk
      else chunk ++ readChunks transfers inferior fuel (address + chunk.length) (size - chunk.length)

/-- What `RemoveBreakpointOpcodesFromBuffer` does for one site. -/
def removeBreakpointOpcode (address size : Nat) (buffer : List UInt8) (site : BreakpointSite) : List UInt8 :=
  if site.siteType = .software then
    match site.intersectsRange address size with
    | some intersection => Window.overwrite (intersection.address - address) (site.savedPart intersection) buffer
    | none => buffer
  else buffer

def removeBreakpointOpcodesFromBuffer (sites : BreakpointSiteList) (address size : Nat) (buffer : List UInt8) :
    List UInt8 :=
  match sites.findInRange address ((address + size) % 2 ^ 64) with
  | none => buffer
  | some found => found.foldl (removeBreakpointOpcode address size) buffer

def readMemoryFromInferior (memory : ProcessMemory) (transfers : Transfers) (address size : Nat) : List UInt8 :=
  let bytes := readChunks transfers memory.inferior size address size
  if 0 < bytes.length then removeBreakpointOpcodesFromBuffer memory.sites address bytes.length bytes else bytes

/-- The count of bytes written, by a loop of at most as many turns as there are bytes. -/
def writeMemoryPrivate (transfers : Transfers) : Nat → Inferior → Nat → List UInt8 → Nat × Inferior
  | 0, inferior, _, _ => (0, inferior)
  | fuel + 1, inferior, address, bytes =>
      let (count, inferior) := doWriteMemory transfers inferior address bytes
      if count = bytes.length ∨ count = 0 then (count, inferior)
      else
        let (more, inferior) := writeMemoryPrivate transfers fuel inferior (address + count) (bytes.drop count)
        (count + more, inferior)

/-- Where the loop of `WriteMemory` over the sites stands. -/
structure WriteProgress where
  memory : ProcessMemory
  bytesWritten : Nat
  failed : Bool

/-- One site of `WriteMemory`; nothing comes of a site that does not intersect the range, for which the
source goes on with an intersection that was never set. -/
def writeAround (address : Nat) (bytes : List UInt8) (progress : WriteProgress)
    (bp : BreakpointSite) : Option WriteProgress :=
  if progress.failed then some progress
  else
    match bp.intersectsRange address bytes.length with
    | none => none
    | some intersection =>
        let current := address + progress.bytesWritten
        let size := intersection.address - current
        let (count, inferior) :=
          if intersection.address > current then
            writeMemoryPrivate transfers size progress.memory.inferior current
              ((bytes.drop progress.bytesWritten).take size)
          else (0, progress.memory.inferior)
        let written := progress.bytesWritten + count
        let saved := bp.savedOpcode.copyIn intersection.opcodeOffset
          ((bytes.drop written).take intersection.size)
        some
          { memory := ⟨inferior, progress.memory.sites.insert bp.loadAddress { bp with savedOpcode := saved }⟩
            bytesWritten := written + intersection.size
            failed := decide (intersection.address > current ∧ count ≠ size) }

def writeMemory (memory : ProcessMemory) (transfers : Transfers) (address : Nat) (bytes : List UInt8) :
    Option (Nat × ProcessMemory) :=
  if bytes = [] then some (0, memory)
  else
    let writeRest := fun (inferior : Inferior) (offset : Nat) =>
      writeMemoryPrivate transfers (bytes.length - offset) inferior (address + offset) (bytes.drop offset)
    match memory.sites.findInRange address ((address + bytes.length) % 2 ^ 64) with
    | none | some [] =>
        let (count, inferior) := writeRest memory.inferior 0
        some (count, ⟨inferior, memory.sites⟩)
    | some found =>
        match found.foldlM (writeAround transfers address bytes) ⟨memory, 0, false⟩ with
        | none => none
        | some progress =>
            if progress.bytesWritten < bytes.length then
              some (0, ⟨(writeRest progress.memory.inferior progress.bytesWritten).2, progress.memory.sites⟩)
            else some (0, progress.memory)

/-- The inferior and the site after the attempt; whether it worked is whether the site is enabled. -/
def enableSoftwareBreakpoint (trapOpcode : List UInt8) (inferior : Inferior)
    (site : BreakpointSite) : Inferior × BreakpointSite :=
  if site.enabled then (inferior, site)
  else if site.loadAddress = invalidAddress then (inferior, site)
  else
    let (set, site) := site.setTrapOpcode trapOpcode
    if set then
      let size := trapOpcode.length
      let saved := doReadMemory transfers inferior site.loadAddress size
      let site := { site with savedOpcode := site.savedOpcode.copyIn 0 saved }
      if saved.length = size then
        let (count, inferior) := doWriteMemory transfers inferior site.loadAddress (site.trapOpcode.bytes.take size)
        if count = size then
          let verify := doReadMemory transfers inferior site.loadAddress size
          if verify.length = size ∧ verify = site.trapOpcode.bytes.take size then
            (inferior, { site with enabled := true, siteType := .software })
          else (inferior, site)
        else (inferior, site)
      else (inferior, site)
    else (inferior, site)

def disableSoftwareBreakpoint (inferior : Inferior) (site : BreakpointSite) :
    Inferior × BreakpointSite :=
  if site.isHardware then (inferior, site)
  else if site.enabled then
    let size := site.byteSize
    let saved := site.savedOpcode.bytes.take size
    if 0 < size then
      let current := doReadMemory transfers inferior site.loadAddress size
      if current.length = size then
        let (verify, inferior) :=
          if current = site.trapOpcode.bytes.take size then
            let (count, inferior) := doWriteMemory transfers inferior site.loadAddress saved
            (decide (count = size), inferior)
          else (true, inferior)
        let restored := doReadMemory transfers inferior site.loadAddress size
        if verify ∧ restored.length = size ∧ restored = saved then (inferior, { site with enabled := false })
        else (inferior, site)
      else (inferior, site)
    else (inferior, site)
  else (inferior, site)

theorem readMemoryFromInferior_split (inferior : Inferior) {address size count : Nat}
    (reached : count ≤ (inferior.readMemoryFromInferior address size).length) :
    inferior.readMemoryFromInferior address size = (inferior.readMemoryFromInferior address size).take count ++
        inferior.readMemoryFromInferior (address + count) (size - count) := by
  induction count generalizing address size with
  | zero => rfl
  | succ count ih =>
    cases size with
    | zero => exact absurd reached (Nat.not_succ_le_zero count)
    | succ size =>
      cases held : inferior (address % 2 ^ 64) with
      | none =>
        simp only [Inferior.readMemoryFromInferior, held] at reached
        exact absurd reached (Nat.not_succ_le_zero count)
      | some byte =>
        simp only [Inferior.readMemoryFromInferior, held] at reached
        have rest := ih (Nat.le_of_succ_le_succ reached)
        simp only [Inferior.readMemoryFromInferior, held, List.take_succ_cons, List.cons_append]
        simp [show address + (count + 1) = address + 1 + count by omega, ← rest]

theorem readChunks_eq (inferior : Inferior) {fuel : Nat} (address : Nat) {size : Nat}
    (enough : size ≤ fuel) :
    readChunks transfers inferior fuel address size = inferior.readMemoryFromInferior address size := by
  induction fuel generalizing address size with
  | zero =>
    cases Nat.le_zero.mp enough
    rfl
  | succ fuel ih =>
    have chunk : doReadMemory transfers inferior address size =
        (inferior.readMemoryFromInferior address size).take (transfers.reads address size) := by
      rw [Inferior.take_readMemoryFromInferior, min_eq_right (transfers.reads_le address size)]
      rfl
    have reads := transfers.reads_pos address size
    have bounded := inferior.length_readMemoryFromInferior_le address size
    have count : (doReadMemory transfers inferior address size).length =
        min (transfers.reads address size) (inferior.readMemoryFromInferior address size).length := by
      simp [chunk]
    have front : doReadMemory transfers inferior address size =
        (inferior.readMemoryFromInferior address size).take (doReadMemory transfers inferior address size).length := by
      rw [count, ← List.take_take, List.take_length]
      exact chunk
    unfold readChunks
    dsimp only
    split_ifs with last
    · rw [front, List.take_of_length_le]
      omega
    · rw [ih _ (by omega)]
      conv_lhs => arg 1; rw [front]
      exact (readMemoryFromInferior_split inferior (by omega)).symm

/-- Writes that do not fail store all the bytes, however they are cut. -/
theorem writeMemoryPrivate_eq {transfers : Transfers}
    (succeed : ∀ address size, 0 < size → 0 < transfers.writes address size) {fuel : Nat} (inferior : Inferior)
    (address : Nat) {bytes : List UInt8} (enough : bytes.length ≤ fuel) :
    writeMemoryPrivate transfers fuel inferior address bytes = (bytes.length, inferior.store address bytes) := by
  induction fuel generalizing inferior address bytes with
  | zero =>
    rw [List.length_eq_zero_iff.mp (Nat.le_zero.mp enough)]
    rw [Inferior.store_nil]
    rfl
  | succ fuel ih =>
    have some := succeed address bytes.length
    have most := transfers.writes_le address bytes.length
    unfold writeMemoryPrivate doWriteMemory
    dsimp only
    split_ifs with last
    · have all : transfers.writes address bytes.length = bytes.length := by omega
      simp [all]
    · have left : (bytes.drop (transfers.writes address bytes.length)).length ≤ fuel := by
        rw [List.length_drop]
        omega
      have taken : (bytes.take (transfers.writes address bytes.length)).length =
          transfers.writes address bytes.length := by
        rw [List.length_take]
        omega
      rw [ih _ _ left, List.length_drop]
      refine Prod.ext (by simp only; omega) ?_
      have both := inferior.store_append address (bytes.take (transfers.writes address bytes.length))
        (bytes.drop (transfers.writes address bytes.length))
      rwa [taken, List.take_append_drop] at both

end ProcessMemory

end Lldb
