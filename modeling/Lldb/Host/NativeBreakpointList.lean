import Lldb.Library.Memory
import Lldb.Library.OrderedMap

/-! `NativeBreakpointList` and the software breakpoints in it: traps that are counted references.

Reads and writes of the inferior's memory always succeed here, with all the bytes asked for. What
`GetSoftwareBreakpointTrapOpcode` gives for a size hint is a parameter.
-/

set_option autoImplicit false

namespace Lldb

open Library

structure SoftwareBreakpoint where
  savedOpcodes : List UInt8
  trapOpcodes : List UInt8
  refCount : Int
  enabled : Bool
  deriving DecidableEq, Repr

namespace SoftwareBreakpoint

abbrev Status := Except String Unit

def hex (value : Nat) : String := "0x" ++ String.ofList (Nat.toDigits 16 value)

def enableSoftwareBreakpoint (memory : Nat → UInt8) (addr : Nat) (trapOpcodes : List UInt8) :
    Status × List UInt8 × (Nat → UInt8) :=
  let savedOpcodes := Memory.read memory addr trapOpcodes.length
  let written := Memory.write memory addr trapOpcodes
  if trapOpcodes ≠ Memory.read written addr trapOpcodes.length then
    (.error ("SoftwareBreakpoint::EnableSoftwareBreakpoint: verification of software breakpoint writing failed - " ++
      "trap opcodes not successfully read back after writing when setting breakpoint at " ++ hex addr), savedOpcodes,
      written)
  else (.ok (), savedOpcodes, written)

def invalidAddress : Nat := 2 ^ 64 - 1

def maxTrapOpcodeSize : Nat := 8

def createSoftwareBreakpoint (trapOpcode : Nat → Except String (List UInt8)) (memory : Nat → UInt8)
    (addr sizeHint : Nat) : Except String SoftwareBreakpoint × (Nat → UInt8) :=
  if addr = invalidAddress then
    (.error "SoftwareBreakpoint::CreateSoftwareBreakpoint invalid load address specified.", memory)
  else
    match trapOpcode sizeHint with
    | .error text => (.error text, memory)
    | .ok trapOpcodes =>
      if trapOpcodes.length = 0 then
        (.error ("SoftwareBreakpoint::GetSoftwareBreakpointTrapOpcode() returned zero, " ++
          "unable to get breakpoint trap for address " ++ hex addr), memory)
      else if trapOpcodes.length > maxTrapOpcodeSize then
        (.error ("SoftwareBreakpoint::GetSoftwareBreakpointTrapOpcode() returned too many trap opcode bytes: requires " ++
          toString trapOpcodes.length ++ " but we only support a max of " ++ toString maxTrapOpcodeSize), memory)
      else
        let (status, savedOpcodes, memory) := enableSoftwareBreakpoint memory addr trapOpcodes
        (status.map fun _ => ⟨savedOpcodes, trapOpcodes, 1, true⟩, memory)

variable (breakpoint : SoftwareBreakpoint)

/-- Where the trap is gone the status is that of the last read, which succeeds. -/
def doDisable (memory : Nat → UInt8) (addr : Nat) : Status × (Nat → UInt8) :=
  let size := breakpoint.trapOpcodes.length
  let breakOpFound := Memory.read memory addr size = breakpoint.trapOpcodes
  let memory := if breakOpFound then Memory.write memory addr breakpoint.savedOpcodes else memory
  if breakpoint.savedOpcodes = Memory.read memory addr size then (.ok (), memory)
  else if breakOpFound then (.error "Failed to restore original opcode.", memory)
  else (.ok (), memory)

def enable (memory : Nat → UInt8) (addr : Nat) :
    Status × SoftwareBreakpoint × (Nat → UInt8) :=
  if breakpoint.enabled then (.ok (), breakpoint, memory)
  else
    match enableSoftwareBreakpoint memory addr breakpoint.trapOpcodes with
    | (.ok (), savedOpcodes, memory) => (.ok (), { breakpoint with savedOpcodes, enabled := true }, memory)
    | (.error text, savedOpcodes, memory) => (.error text, { breakpoint with savedOpcodes }, memory)

def disable (memory : Nat → UInt8) (addr : Nat) :
    Status × SoftwareBreakpoint × (Nat → UInt8) :=
  if ¬ breakpoint.enabled then (.ok (), breakpoint, memory)
  else
    match breakpoint.doDisable memory addr with
    | (.ok (), memory) => (.ok (), { breakpoint with enabled := false }, memory)
    | (.error text, memory) => (.error text, breakpoint, memory)

end SoftwareBreakpoint

structure NativeBreakpointList where
  breakpoints : OrderedMap Nat SoftwareBreakpoint
  memory : Nat → UInt8

namespace NativeBreakpointList

open SoftwareBreakpoint

def notFound : Status := .error "breakpoint not found"

/-- `none` where the count, an int of 32 bits, overflows. -/
def addRef (trapOpcode : Nat → Except String (List UInt8)) (list : NativeBreakpointList) (addr sizeHint : Nat) :
    Option (Status × NativeBreakpointList) :=
  match list.breakpoints.find? addr with
  | some breakpoint =>
    if breakpoint.refCount < 2 ^ 31 - 1 then
      some (.ok (), { list with
        breakpoints := list.breakpoints.insert addr { breakpoint with refCount := breakpoint.refCount + 1 } })
    else none
  | none =>
    match createSoftwareBreakpoint trapOpcode list.memory addr sizeHint with
    | (.error text, memory) => some (.error text, { list with memory })
    | (.ok breakpoint, memory) => some (.ok (), ⟨list.breakpoints.insert addr breakpoint, memory⟩)

variable (list : NativeBreakpointList)

/-- The breakpoint leaves the list with its last reference, also when its removal fails. -/
def decRef (addr : Nat) : Status × NativeBreakpointList :=
  match list.breakpoints.find? addr with
  | none => (notFound, list)
  | some breakpoint =>
    let refCount := breakpoint.refCount - 1
    if refCount > 0 then (.ok (), { list with breakpoints := list.breakpoints.insert addr { breakpoint with refCount } })
    else
      let (status, _, memory) :=
        if breakpoint.enabled then breakpoint.disable list.memory addr else (.ok (), breakpoint, list.memory)
      (status, ⟨list.breakpoints.erase addr, memory⟩)

def enableBreakpoint (addr : Nat) : Status × NativeBreakpointList :=
  match list.breakpoints.find? addr with
  | none => (notFound, list)
  | some breakpoint =>
    let (status, breakpoint, memory) := breakpoint.enable list.memory addr
    (status, ⟨list.breakpoints.insert addr breakpoint, memory⟩)

def disableBreakpoint (addr : Nat) : Status × NativeBreakpointList :=
  match list.breakpoints.find? addr with
  | none => (notFound, list)
  | some breakpoint =>
    let (status, breakpoint, memory) := breakpoint.disable list.memory addr
    (status, ⟨list.breakpoints.insert addr breakpoint, memory⟩)

inductive Operation where
  | addRef (addr sizeHint : Nat)
  | decRef (addr : Nat)
  | enableBreakpoint (addr : Nat)
  | disableBreakpoint (addr : Nat)
  deriving DecidableEq, Repr

def apply (trapOpcode : Nat → Except String (List UInt8)) (list : NativeBreakpointList) :
    Operation → Option (Status × NativeBreakpointList)
  | .addRef addr sizeHint => list.addRef trapOpcode addr sizeHint
  | .decRef addr => some (list.decRef addr)
  | .enableBreakpoint addr => some (list.enableBreakpoint addr)
  | .disableBreakpoint addr => some (list.disableBreakpoint addr)

end NativeBreakpointList

end Lldb
