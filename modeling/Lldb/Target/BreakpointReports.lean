import Lldb.Target.MemoryIntegers
import Lldb.Target.ProcessMemory

/-! What `EnableSoftwareBreakpoint` and `DisableSoftwareBreakpoint` report where each call to the process may move less
than it is asked for and may clear the error of an earlier one.

The log is not modelled, nor that an opcode of 8 bytes fails an assertion, which the buffer has room for.
-/

set_option autoImplicit false

namespace Lldb

open Library (Window)

/-- What a `DoReadMemory` or a `DoWriteMemory` does: how many bytes it moves at most, whether it clears the error
that it is given, and the error that it sets if it falls short. -/
structure Transfer where
  count : Nat
  clears : Bool
  error : Option String

namespace Transfer

variable (transfer : Transfer)

def report (whole : Prop) [Decidable whole] (error : Option String) : Option String :=
  let error := if transfer.clears then none else error
  if whole then error else transfer.error.or error

def read (inferior : Inferior) (address size : Nat) (error : Option String) : List UInt8 × Option String :=
  let bytes := inferior.readMemoryFromInferior address (min transfer.count size)
  (bytes, transfer.report (bytes.length = size) error)

def write (inferior : Inferior) (address : Nat) (bytes : List UInt8) (error : Option String) :
    Nat × Inferior × Option String :=
  let count := min transfer.count bytes.length
  (count, inferior.write address (bytes.take count), transfer.report (count = bytes.length) error)

end Transfer

structure BreakpointReport where
  inferior : Inferior
  site : BreakpointSite
  error : Option String

namespace BreakpointReport

def hexadecimal (value : Nat) : String := "0x" ++ String.ofList (Nat.toDigits 16 value)

section

variable (read write verify : Transfer) (inferior : Inferior) (site : BreakpointSite)

/-- The calls are the read of the original opcode, the write of the trap and the read that verifies it. -/
def enableSoftwareBreakpoint (trapOpcode : List UInt8) : BreakpointReport :=
  let bpAddr := site.loadAddress
  if site.enabled then ⟨inferior, site, none⟩
  else if bpAddr = invalidAddress then
    ⟨inferior, site, some "BreakpointSite contains an invalid load address."⟩
  else
    let (set, site) := site.setTrapOpcode trapOpcode
    let bpOpcodeSize := if set then trapOpcode.length else 0
    if bpOpcodeSize = 0 then
      ⟨inferior, site, some ("Process::GetSoftwareBreakpointTrapOpcode() returned zero, unable to get breakpoint " ++
        "trap for address " ++ hexadecimal bpAddr)⟩
    else
      let bpOpcodeBytes := site.trapOpcode.bytes.take bpOpcodeSize
      let (saved, error) := read.read inferior bpAddr bpOpcodeSize none
      let site := { site with savedOpcode := site.savedOpcode.copyIn 0 saved }
      if saved.length = bpOpcodeSize then
        let (count, inferior, error) := write.write inferior bpAddr bpOpcodeBytes error
        if count = bpOpcodeSize then
          let (verifyBytes, error) := verify.read inferior bpAddr bpOpcodeSize error
          if verifyBytes.length = bpOpcodeSize then
            if bpOpcodeBytes = verifyBytes then ⟨inferior, { site with enabled := true, siteType := .software }, error⟩
            else ⟨inferior, site, some "failed to verify the breakpoint trap in memory."⟩
          else ⟨inferior, site, some "Unable to read memory to verify breakpoint trap."⟩
        else ⟨inferior, site, some "Unable to write breakpoint trap to memory."⟩
      else ⟨inferior, site, some "Unable to read memory at breakpoint address."⟩

/-- The last part of `DisableSoftwareBreakpoint`: whether the original opcode is back. -/
def verifyRestored (breakOpFound : Bool) (error : Option String) : BreakpointReport :=
  let breakOpSize := site.byteSize
  let (verifyOpcode, error) := verify.read inferior site.loadAddress breakOpSize error
  if verifyOpcode.length = breakOpSize then
    if site.savedOpcode.bytes.take breakOpSize = verifyOpcode then ⟨inferior, { site with enabled := false }, error⟩
    else ⟨inferior, site, if breakOpFound then some "Failed to restore original opcode." else error⟩
  else
    ⟨inferior, site, some "Failed to read memory to verify that breakpoint trap was restored."⟩

/-- The calls are the read of the trap, the write of the saved opcode and the read that verifies it. -/
def disableSoftwareBreakpoint : BreakpointReport :=
  if site.isHardware then ⟨inferior, site, some "Breakpoint site is a hardware breakpoint."⟩
  else if site.enabled then
    let breakOpSize := site.byteSize
    if 0 < breakOpSize then
      let (currBreakOp, error) := read.read inferior site.loadAddress breakOpSize none
      if currBreakOp.length = breakOpSize then
        if currBreakOp = site.trapOpcode.bytes.take breakOpSize then
          let saved := site.savedOpcode.bytes.take breakOpSize
          let (count, inferior, error) := write.write inferior site.loadAddress saved error
          if count = breakOpSize then verifyRestored verify inferior site true error
          else ⟨inferior, site, some "Memory write failed when restoring original opcode."⟩
        else verifyRestored verify inferior site false (some "Original breakpoint trap is no longer in memory.")
      else ⟨inferior, site, some "Unable to read memory that should contain the breakpoint trap."⟩
    else ⟨inferior, site, none⟩
  else ⟨inferior, site, none⟩

end

/-! What the reports should say, and when they do. -/

variable {read write verify : Transfer} {inferior : Inferior} {site : BreakpointSite} {trapOpcode : List UInt8}

abbrev opcodeAt (inferior : Inferior) (site : BreakpointSite) (size : Nat) : List UInt8 :=
  inferior.readMemoryFromInferior site.loadAddress size

structure EnableTrue (inferior : Inferior) (site : BreakpointSite) (size : Nat) (report : BreakpointReport) : Prop where
  success : report.error = none ↔ report.site.enabled = true
  failure : report.error ≠ none → opcodeAt report.inferior site size = opcodeAt inferior site size

structure DisableTrue (site : BreakpointSite) (report : BreakpointReport) : Prop where
  success : report.error = none ↔ report.site.enabled = false ∧
    opcodeAt report.inferior site site.byteSize = site.savedOpcode.bytes.take site.byteSize

/-- Where the original opcode could be read: a write of the trap that falls short has changed nothing, and neither
has the write before a verifying read that falls short. -/
def EnableUndone (read write verify : Transfer) (inferior : Inferior) (site : BreakpointSite)
    (trapOpcode : List UInt8) :
    Prop :=
  let size := trapOpcode.length
  let original := opcodeAt inferior site size
  site.loadAddress ≠ invalidAddress → 0 < size → size ≤ 8 → original.length = size → size ≤ read.count →
    (write.count < size → trapOpcode.take write.count = original.take write.count) ∧
    (size ≤ write.count → verify.count < size → trapOpcode = original)

/-- The site has a size; and where other bytes than the trap are read at it, and then read again, the second read
clears the error if they are the saved ones, and keeps it otherwise. -/
def DisableSettled (read verify : Transfer) (inferior : Inferior) (site : BreakpointSite) : Prop :=
  let size := site.byteSize
  let current := opcodeAt inferior site size
  0 < size ∧ (current.length = size → size ≤ read.count → size ≤ verify.count →
    current ≠ site.trapOpcode.bytes.take size →
    (verify.clears = true ↔ current = site.savedOpcode.bytes.take size))

section

variable {transfer : Transfer} {address size : Nat} {error : Option String}

theorem length_read_iff : (transfer.read inferior address size error).1.length = size ↔
    size ≤ transfer.count ∧ (inferior.readMemoryFromInferior address size).length = size := by
  change (inferior.readMemoryFromInferior address (min transfer.count size)).length = size ↔ _
  constructor
  · intro whole
    have most := inferior.length_readMemoryFromInferior_le address (min transfer.count size)
    have enough : size ≤ transfer.count := by omega
    rw [min_eq_right enough] at whole
    exact ⟨enough, whole⟩
  · rintro ⟨enough, whole⟩
    rwa [min_eq_right enough]

theorem read_whole (error : Option String) (enough : size ≤ transfer.count)
    (whole : (inferior.readMemoryFromInferior address size).length = size) :
    transfer.read inferior address size error =
      (inferior.readMemoryFromInferior address size, if transfer.clears then none else error) := by
  unfold Transfer.read Transfer.report
  rw [min_eq_right enough]
  dsimp only
  rw [if_pos whole]

theorem write_whole {bytes : List UInt8} (enough : bytes.length ≤ transfer.count) :
    transfer.write inferior address bytes error =
      (bytes.length, inferior.write address bytes, if transfer.clears then none else error) := by
  unfold Transfer.write Transfer.report
  rw [min_eq_right enough]
  dsimp only
  simp

theorem write_short {bytes : List UInt8} (short : transfer.count < bytes.length) :
    transfer.write inferior address bytes error = (transfer.count, inferior.write address (bytes.take transfer.count),
        transfer.report (transfer.count = bytes.length) error) := by
  unfold Transfer.write
  rw [min_eq_left (le_of_lt short)]

end

theorem take_copyIn (opcode : OpcodeBytes) {bytes : List UInt8} (fits : bytes.length ≤ 8) :
    (opcode.copyIn 0 bytes).bytes.take bytes.length = bytes := by
  have room : 0 + bytes.length ≤ opcode.bytes.length := by rw [opcode.length]; omega
  change (Window.overwrite 0 bytes opcode.bytes).take bytes.length = bytes
  simp [Window.overwrite_eq room]

theorem enableTrue_of_untouched {report : BreakpointReport} {size : Nat} (same : report.inferior = inferior)
    (failed : report.error ≠ none) (off : report.site.enabled = false) : EnableTrue inferior site size report where
  success := iff_of_false failed (by rw [off]; decide)
  failure _ := by rw [same]

def prepared (inferior : Inferior) (site : BreakpointSite) (trapOpcode : List UInt8) : BreakpointSite :=
  { (site.setTrapOpcode trapOpcode).2 with
    savedOpcode := site.savedOpcode.copyIn 0 (opcodeAt inferior site trapOpcode.length) }

theorem length_readMemory_write {address size : Nat} {bytes : List UInt8} (bounded : size < 2 ^ 64)
    (readable : (inferior.readMemoryFromInferior address size).length = size) (fits : bytes.length ≤ size) :
    ((inferior.write address bytes).readMemoryFromInferior address size).length = size := by
  rw [Inferior.readMemoryFromInferior_write bounded readable fits, List.length_append, List.length_drop, readable]
  exact Nat.add_sub_cancel' fits

theorem readMemory_write_whole {address : Nat} (bytes : List UInt8) (bounded : bytes.length < 2 ^ 64)
    (readable : (inferior.readMemoryFromInferior address bytes.length).length = bytes.length) :
    (inferior.write address bytes).readMemoryFromInferior address bytes.length = bytes := by
  rw [Inferior.readMemoryFromInferior_write bounded readable (le_refl _), List.drop_eq_nil_of_le, List.append_nil]
  exact le_of_eq readable

/-- What is left to a short write and to a short verifying read, once the original opcode has been read. -/
theorem enable_read (disabled : site.enabled = false) (valid : site.loadAddress ≠ invalidAddress)
    (positive : 0 < trapOpcode.length) (fits : trapOpcode.length ≤ 8)
    (readable : (opcodeAt inferior site trapOpcode.length).length = trapOpcode.length)
    (enough : trapOpcode.length ≤ read.count) :
    enableSoftwareBreakpoint read write verify inferior site trapOpcode = let site' := prepared inferior site trapOpcode
      if trapOpcode.length ≤ write.count then
        let inferior := inferior.write site.loadAddress trapOpcode
        if trapOpcode.length ≤ verify.count then
          ⟨inferior, { site' with enabled := true, siteType := .software }, none⟩
        else ⟨inferior, site', some "Unable to read memory to verify breakpoint trap."⟩
      else
        ⟨inferior.write site.loadAddress (trapOpcode.take write.count), site',
          some "Unable to write breakpoint trap to memory."⟩ := by
  have set : site.setTrapOpcode trapOpcode =
      (true, { site with byteSize := trapOpcode.length, trapOpcode := site.trapOpcode.copyIn 0 trapOpcode }) :=
    if_pos ⟨positive, fits⟩
  have saved := read_whole none enough readable
  unfold enableSoftwareBreakpoint prepared
  rw [disabled, if_neg Bool.false_ne_true, if_neg valid, set]
  dsimp only
  rw [if_pos rfl, if_neg (Nat.ne_of_gt positive), take_copyIn site.trapOpcode fits, saved]
  rw [if_pos readable, ite_self]
  by_cases written : trapOpcode.length ≤ write.count
  · have trapped := readMemory_write_whole trapOpcode (by omega) readable
    rw [if_pos written, write_whole written]
    rw [if_pos rfl, ite_self]
    by_cases verified : trapOpcode.length ≤ verify.count
    · have verifying := read_whole none verified
        (length_readMemory_write (by omega) readable (Nat.le_refl _))
      rw [if_pos verified, verifying]
      simp [trapped]
    · rw [if_neg verified, if_neg (fun whole => verified (length_read_iff.mp whole).1)]
  · rw [if_neg written, write_short (Nat.lt_of_not_le written)]
    rw [if_neg (fun same => written (Nat.le_of_eq same.symm))]

theorem prepared_disabled (disabled : site.enabled = false) : ¬ (prepared inferior site trapOpcode).enabled = true := by
  have same : (site.setTrapOpcode trapOpcode).2.enabled = site.enabled := by
    unfold BreakpointSite.setTrapOpcode
    split <;> rfl
  change ¬ (site.setTrapOpcode trapOpcode).2.enabled = true
  rw [same, disabled]
  exact Bool.false_ne_true

theorem opcodeAt_write_iff (bytes : List UInt8) {size : Nat} (bounded : size < 2 ^ 64)
    (readable : (opcodeAt inferior site size).length = size) (fits : bytes.length ≤ size) :
    opcodeAt (inferior.write site.loadAddress bytes) site size = opcodeAt inferior site size ↔
      bytes = (opcodeAt inferior site size).take bytes.length := by
  change (inferior.write site.loadAddress bytes).readMemoryFromInferior site.loadAddress size = _ ↔ _
  rw [Inferior.readMemoryFromInferior_write bounded readable fits]
  conv_lhs => rhs; rw [← List.take_append_drop bytes.length (opcodeAt inferior site size)]
  exact List.append_left_inj _

theorem enableTrue_of_unread (disabled : site.enabled = false)
    (unread : ¬ (site.loadAddress ≠ invalidAddress ∧ 0 < trapOpcode.length ∧ trapOpcode.length ≤ 8 ∧
      (opcodeAt inferior site trapOpcode.length).length = trapOpcode.length ∧ trapOpcode.length ≤ read.count)) :
    EnableTrue inferior site trapOpcode.length
      (enableSoftwareBreakpoint read write verify inferior site trapOpcode) := by
  unfold enableSoftwareBreakpoint
  rw [disabled, if_neg Bool.false_ne_true]
  by_cases valid : site.loadAddress = invalidAddress
  · rw [if_pos valid]
    exact enableTrue_of_untouched rfl nofun disabled
  · rw [if_neg valid]
    by_cases sized : 0 < trapOpcode.length ∧ trapOpcode.length ≤ 8
    · have set : site.setTrapOpcode trapOpcode =
          (true, { site with byteSize := trapOpcode.length, trapOpcode := site.trapOpcode.copyIn 0 trapOpcode }) :=
        if_pos sized
      have short : (read.read inferior site.loadAddress trapOpcode.length none).1.length ≠ trapOpcode.length := by
        intro whole
        obtain ⟨enough, readable⟩ := length_read_iff.mp whole
        exact unread ⟨valid, sized.1, sized.2, readable, enough⟩
      rw [set]
      dsimp only
      rw [if_pos rfl, if_neg (Nat.ne_of_gt sized.1), if_neg short]
      exact enableTrue_of_untouched rfl nofun disabled
    · have set : site.setTrapOpcode trapOpcode = (false, { site with byteSize := 0 }) := if_neg sized
      rw [set]
      exact enableTrue_of_untouched rfl nofun disabled

theorem enableTrue_of_read (disabled : site.enabled = false) (valid : site.loadAddress ≠ invalidAddress)
    (positive : 0 < trapOpcode.length) (fits : trapOpcode.length ≤ 8)
    (readable : (opcodeAt inferior site trapOpcode.length).length = trapOpcode.length)
    (enough : trapOpcode.length ≤ read.count) :
    EnableTrue inferior site trapOpcode.length
        (enableSoftwareBreakpoint read write verify inferior site trapOpcode) ↔
      (write.count < trapOpcode.length →
        trapOpcode.take write.count = (opcodeAt inferior site trapOpcode.length).take write.count) ∧
      (trapOpcode.length ≤ write.count → verify.count < trapOpcode.length →
        trapOpcode = opcodeAt inferior site trapOpcode.length) := by
  have off : ¬ (prepared inferior site trapOpcode).enabled = true := prepared_disabled disabled
  rw [enable_read disabled valid positive fits readable enough]
  by_cases written : trapOpcode.length ≤ write.count
  · rw [if_pos written]
    by_cases verified : trapOpcode.length ≤ verify.count
    · rw [if_pos verified]
      constructor
      · intro _
        exact ⟨fun short => absurd written (Nat.not_le_of_lt short),
          fun _ short => absurd verified (Nat.not_le_of_lt short)⟩
      · intro _
        exact ⟨iff_of_true rfl rfl, fun failed => absurd rfl failed⟩
    · have unchanged := opcodeAt_write_iff trapOpcode (by omega) readable (Nat.le_refl _)
      rw [List.take_of_length_le (Nat.le_of_eq readable)] at unchanged
      rw [if_neg verified]
      constructor
      · intro told
        exact ⟨fun short => absurd written (Nat.not_le_of_lt short), fun _ _ => unchanged.mp (told.failure nofun)⟩
      · intro undone
        have same := undone.2 written (Nat.lt_of_not_le verified)
        exact ⟨iff_of_false nofun off, fun _ => unchanged.mpr same⟩
  · have short := Nat.lt_of_not_le written
    have length : (trapOpcode.take write.count).length = write.count := List.length_take_of_le (Nat.le_of_lt short)
    have unchanged := opcodeAt_write_iff (trapOpcode.take write.count) (by omega) readable
      (by rw [length]; exact Nat.le_of_lt short)
    rw [length] at unchanged
    rw [if_neg written]
    constructor
    · intro told
      exact ⟨fun _ => unchanged.mp (told.failure nofun), fun enough => absurd enough written⟩
    · intro undone
      exact ⟨iff_of_false nofun off, fun _ => unchanged.mpr (undone.1 short)⟩

theorem enableTrue_iff (disabled : site.enabled = false) :
    EnableTrue inferior site trapOpcode.length (enableSoftwareBreakpoint read write verify inferior site trapOpcode) ↔
      EnableUndone read write verify inferior site trapOpcode := by
  by_cases reached : site.loadAddress ≠ invalidAddress ∧ 0 < trapOpcode.length ∧ trapOpcode.length ≤ 8 ∧
      (opcodeAt inferior site trapOpcode.length).length = trapOpcode.length ∧ trapOpcode.length ≤ read.count
  · obtain ⟨valid, positive, fits, readable, enough⟩ := reached
    rw [enableTrue_of_read disabled valid positive fits readable enough]
    constructor
    · exact fun undone _ _ _ _ _ => undone
    · exact fun undone => undone valid positive fits readable enough
  · refine iff_of_true (enableTrue_of_unread disabled reached) ?_
    intro valid positive fits readable enough
    exact absurd ⟨valid, positive, fits, readable, enough⟩ reached

theorem verifyRestored_whole {breakOpFound : Bool} {error : Option String} (enough : site.byteSize ≤ verify.count)
    (readable : (opcodeAt inferior site site.byteSize).length = site.byteSize) :
    verifyRestored verify inferior site breakOpFound error = let error := if verify.clears then none else error
      if site.savedOpcode.bytes.take site.byteSize = opcodeAt inferior site site.byteSize then
        ⟨inferior, { site with enabled := false }, error⟩
      else ⟨inferior, site, if breakOpFound then some "Failed to restore original opcode." else error⟩ := by
  unfold verifyRestored
  dsimp only
  rw [read_whole _ enough readable]
  rw [if_pos readable]

theorem verifyRestored_short {breakOpFound : Bool} {error : Option String} (short : ¬ site.byteSize ≤ verify.count) :
    verifyRestored verify inferior site breakOpFound error =
      ⟨inferior, site, some "Failed to read memory to verify that breakpoint trap was restored."⟩ := by
  unfold verifyRestored
  dsimp only
  rw [if_neg fun whole => short (length_read_iff.mp whole).1]

theorem disableTrue_of_enabled {report : BreakpointReport} (failed : report.error ≠ none)
    (on : report.site.enabled = true) : DisableTrue site report where
  success := iff_of_false failed fun off => Bool.false_ne_true (off.1.symm.trans on)

theorem disableTrue_of_trapped (enabled : site.enabled = true) (positive : 0 < site.byteSize)
    (readable : (opcodeAt inferior site site.byteSize).length = site.byteSize) (enough : site.byteSize ≤ read.count)
    (trapped : opcodeAt inferior site site.byteSize = site.trapOpcode.bytes.take site.byteSize)
    (software : site.isHardware = false) :
    DisableTrue site (disableSoftwareBreakpoint read write verify inferior site) := by
  have eight : site.byteSize ≤ 8 := by
    rw [trapped, List.length_take, site.trapOpcode.length] at readable
    omega
  have length : (site.savedOpcode.bytes.take site.byteSize).length = site.byteSize :=
    List.length_take_of_le (by rwa [site.savedOpcode.length])
  have saved := read_whole none enough readable
  unfold disableSoftwareBreakpoint
  rw [software, if_neg Bool.false_ne_true, if_pos enabled]
  dsimp only
  rw [if_pos positive, saved]
  rw [if_pos readable, if_pos trapped, ite_self]
  by_cases written : site.byteSize ≤ write.count
  · rw [write_whole (by rwa [length]), ite_self]
    rw [if_pos length]
    have restored : opcodeAt (inferior.write site.loadAddress (site.savedOpcode.bytes.take site.byteSize)) site
        site.byteSize = site.savedOpcode.bytes.take site.byteSize := by
      have restored := readMemory_write_whole (site.savedOpcode.bytes.take site.byteSize)
        (by rw [length]; omega) (by rwa [length])
      rwa [length] at restored
    by_cases verified : site.byteSize ≤ verify.count
    · rw [verifyRestored_whole verified (by rw [restored, length]), if_pos restored.symm, ite_self]
      exact ⟨iff_of_true rfl ⟨rfl, restored⟩⟩
    · rw [verifyRestored_short verified]
      exact disableTrue_of_enabled nofun enabled
  · rw [write_short (by rw [length]; exact Nat.lt_of_not_le written)]
    rw [if_neg fun same => written (le_of_eq same.symm)]
    exact disableTrue_of_enabled nofun enabled

theorem disableTrue_of_gone (enabled : site.enabled = true) (positive : 0 < site.byteSize)
    (readable : (opcodeAt inferior site site.byteSize).length = site.byteSize) (enough : site.byteSize ≤ read.count)
    (gone : opcodeAt inferior site site.byteSize ≠ site.trapOpcode.bytes.take site.byteSize)
    (software : site.isHardware = false) :
    DisableTrue site (disableSoftwareBreakpoint read write verify inferior site) ↔ (site.byteSize ≤ verify.count →
        (verify.clears = true ↔ opcodeAt inferior site site.byteSize = site.savedOpcode.bytes.take site.byteSize)) := by
  have saved := read_whole none enough readable
  unfold disableSoftwareBreakpoint
  rw [software, if_pos enabled]
  dsimp only
  rw [if_pos positive, saved]
  rw [if_pos readable, if_neg gone]
  by_cases verified : site.byteSize ≤ verify.count
  · rw [verifyRestored_whole verified readable]
    have cleared : (if verify.clears then none else some "Original breakpoint trap is no longer in memory.") = none ↔
        verify.clears = true := by
      cases verify.clears <;> simp
    by_cases same : site.savedOpcode.bytes.take site.byteSize = opcodeAt inferior site site.byteSize
    · rw [if_pos same]
      constructor
      · intro told _
        exact iff_of_true (cleared.mp (told.success.mpr ⟨rfl, same.symm⟩)) same.symm
      · intro settled
        exact ⟨iff_of_true (cleared.mpr ((settled verified).mpr same.symm)) ⟨rfl, same.symm⟩⟩
    · rw [if_neg same]
      constructor
      · intro told _
        refine iff_of_false (fun clears => ?_) (Ne.symm same)
        have off := (told.success.mp (cleared.mpr clears)).1
        exact Bool.false_ne_true (off.symm.trans enabled)
      · intro settled
        exact disableTrue_of_enabled (fun none => same ((settled verified).mp (cleared.mp none)).symm) enabled
  · rw [verifyRestored_short verified]
    exact iff_of_true (disableTrue_of_enabled nofun enabled) fun whole => absurd whole verified

theorem disableTrue_iff (enabled : site.enabled = true) (software : site.isHardware = false) :
    DisableTrue site (disableSoftwareBreakpoint read write verify inferior site) ↔
      DisableSettled read verify inferior site := by
  unfold DisableSettled
  by_cases positive : 0 < site.byteSize
  · rw [and_iff_right positive]
    by_cases whole : (opcodeAt inferior site site.byteSize).length = site.byteSize ∧ site.byteSize ≤ read.count
    · obtain ⟨readable, enough⟩ := whole
      by_cases gone : opcodeAt inferior site site.byteSize = site.trapOpcode.bytes.take site.byteSize
      · exact iff_of_true (disableTrue_of_trapped enabled positive readable enough gone software)
          fun _ _ _ other => absurd gone other
      · rw [disableTrue_of_gone enabled positive readable enough gone software]
        exact ⟨fun settled _ _ verified _ => settled verified,
          fun settled verified => settled readable enough verified gone⟩
    · refine iff_of_true ?_ fun readable enough => absurd ⟨readable, enough⟩ whole
      unfold disableSoftwareBreakpoint
      rw [software, if_pos enabled]
      dsimp only
      rw [if_pos positive, if_neg fun read => whole ⟨(length_read_iff.mp read).2, (length_read_iff.mp read).1⟩]
      exact disableTrue_of_enabled nofun enabled
  · refine iff_of_false (fun told => ?_) fun settled => positive settled.1
    have empty : disableSoftwareBreakpoint read write verify inferior site = ⟨inferior, site, none⟩ := by
      unfold disableSoftwareBreakpoint
      rw [software, if_neg Bool.false_ne_true, if_pos enabled]
      rw [if_neg positive]
    rw [empty] at told
    exact Bool.false_ne_true ((told.success.mp rfl).1.symm.trans enabled)

structure ReportsTrue (read write verify : Transfer) (inferior : Inferior) (site : BreakpointSite)
    (trapOpcode : List UInt8) : Prop where
  enable : site.enabled = false → EnableTrue inferior site trapOpcode.length
    (enableSoftwareBreakpoint read write verify inferior site trapOpcode)
  disable : site.enabled = true → site.isSoftware = true → DisableTrue site
    (disableSoftwareBreakpoint read write verify inferior site)

theorem reportsTrue_iff (read write verify : Transfer) (inferior : Inferior) (site : BreakpointSite)
    (trapOpcode : List UInt8) :
    ReportsTrue read write verify inferior site trapOpcode ↔
      (site.enabled = false → EnableUndone read write verify inferior site trapOpcode) ∧
      (site.enabled = true → site.isSoftware = true → DisableSettled read verify inferior site) := by
  have notHardware (software : site.isSoftware = true) : site.isHardware = false := by
    simpa using (Bool.and_eq_true_iff.mp software).2
  constructor
  · intro told
    exact ⟨fun disabled => (enableTrue_iff disabled).mp (told.enable disabled),
      fun enabled software => (disableTrue_iff enabled (notHardware software)).mp (told.disable enabled software)⟩
  · rintro ⟨undone, settled⟩
    exact ⟨fun disabled => (enableTrue_iff disabled).mpr (undone disabled),
      fun enabled software => (disableTrue_iff enabled (notHardware software)).mpr (settled enabled software)⟩

/-- The trap stays in memory where it cannot be read back; and a trap that has gone before is an error, although the
saved opcode is there and the site is disabled. -/
theorem not_reportsTrue :
    ¬ (∀ read write verify inferior site trapOpcode, ReportsTrue read write verify inferior site trapOpcode) := by
  intro told
  have enable := (told ⟨1, true, none⟩ ⟨1, true, none⟩ ⟨0, true, some "E08"⟩ (fun _ => some 0x55)
    (.new 0x1000) [0xcc]).enable rfl
  exact absurd (enable.failure (by decide)) (by decide)

end BreakpointReport

end Lldb
