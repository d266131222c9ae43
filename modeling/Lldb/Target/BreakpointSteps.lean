import Lldb.Target.BreakpointTransparency

/-! Enabling and disabling software breakpoints on a process whose memory operations succeed: what
stays true of the sites, and what happens to the program's memory.
-/

set_option autoImplicit false

namespace Lldb

open Library (Window)
open BreakpointSite

structure Transfers.Whole (transfers : Transfers) : Prop where
  reads : ∀ address size, transfers.reads address size = size
  writes : ∀ address size, transfers.writes address size = size

theorem OpcodeBytes.take_copyIn (opcode : OpcodeBytes) {bytes : List UInt8} (small : bytes.length ≤ 8) :
    (opcode.copyIn 0 bytes).bytes.take bytes.length = bytes := by
  have length : bytes.length = (⟨0, bytes.length⟩ : Window).size := rfl
  have fits : 0 + bytes.length ≤ opcode.bytes.length := by rwa [opcode.length, zero_add]
  exact Window.read_overwrite _ length fits

namespace Inferior

theorem read_store (inferior : Inferior) {address : Nat} {bytes : List UInt8} (fits : address + bytes.length ≤ 2 ^ 64) :
    (inferior.store address bytes).readMemoryFromInferior address bytes.length = bytes := by
  apply List.ext_getElem?
  intro index
  apply Option.ext
  intro byte
  rw [getElem?_readMemoryFromInferior]
  have at_ {position : Nat} (inside : position < bytes.length) :
      inferior.store address bytes ((address + position) % 2 ^ 64) = bytes[position]? := by
    rw [Nat.mod_eq_of_lt (by omega), inferior.store_inside (Window.mem_mk.mpr (by omega)), Nat.add_sub_cancel_left]
  constructor
  · rintro ⟨inside, held, -⟩
    rwa [at_ inside] at held
  · intro held
    have inside := (List.getElem?_eq_some_iff.mp held).1
    refine ⟨inside, (at_ inside).trans held, fun before less => ?_⟩
    rw [at_ (lt_trans less inside), List.getElem?_eq_getElem (lt_trans less inside)]
    rfl

theorem length_read_mapped {inferior : Inferior} (mapped : ∀ place < 2 ^ 64, (inferior place).isSome)
    (address size : Nat) : (inferior.readMemoryFromInferior address size).length = size := by
  induction size generalizing address with
  | zero => rfl
  | succ size ih =>
    obtain ⟨byte, held⟩ := Option.isSome_iff_exists.mp (mapped (address % 2 ^ 64) (Nat.mod_lt _ (by decide)))
    rw [readMemoryFromInferior, held]
    exact congrArg (· + 1) (ih (address + 1))

end Inferior

namespace ProcessMemory

theorem enableSoftwareBreakpoint_eq {transfers : Transfers} (whole : transfers.Whole) {trapOpcode : List UInt8}
    (nonempty : 0 < trapOpcode.length) (small : trapOpcode.length ≤ 8) {inferior : Inferior}
    (mapped : ∀ place < 2 ^ 64, (inferior place).isSome) {site : BreakpointSite} (disabled : site.enabled = false)
    (valid : site.loadAddress ≠ invalidAddress) (fits : site.loadAddress + trapOpcode.length ≤ 2 ^ 64) :
    enableSoftwareBreakpoint transfers trapOpcode inferior site = (inferior.store site.loadAddress trapOpcode,
        { site with
          byteSize := trapOpcode.length
          trapOpcode := site.trapOpcode.copyIn 0 trapOpcode
          savedOpcode := site.savedOpcode.copyIn 0
            (inferior.readMemoryFromInferior site.loadAddress trapOpcode.length)
          enabled := true
          siteType := .software }) := by
  have verify := inferior.read_store fits
  simp [enableSoftwareBreakpoint, disabled, valid, setTrapOpcode, nonempty, small, doReadMemory, doWriteMemory, whole.reads, whole.writes, Inferior.length_read_mapped mapped, OpcodeBytes.take_copyIn _ small, verify]

theorem disableSoftwareBreakpoint_eq {transfers : Transfers} (whole : transfers.Whole) {inferior : Inferior}
    {site : BreakpointSite} (software : site.isHardware = false) (enabled : site.enabled) (nonempty : 0 < site.byteSize)
    (small : site.byteSize ≤ 8) (fits : site.loadAddress + site.byteSize ≤ 2 ^ 64)
    (trapped : inferior.readMemoryFromInferior site.loadAddress site.byteSize =
      site.trapOpcode.bytes.take site.byteSize) :
    disableSoftwareBreakpoint transfers inferior site =
      (inferior.store site.loadAddress (site.savedOpcode.bytes.take site.byteSize),
        { site with enabled := false }) := by
  have saved : (site.savedOpcode.bytes.take site.byteSize).length = site.byteSize := by
    rw [List.length_take, site.savedOpcode.length]
    omega
  have trap : (site.trapOpcode.bytes.take site.byteSize).length = site.byteSize := by
    rw [List.length_take, site.trapOpcode.length]
    omega
  have restored := inferior.read_store
    (show site.loadAddress + (site.savedOpcode.bytes.take site.byteSize).length ≤ 2 ^ 64 by rwa [saved])
  rw [saved] at restored
  have all : (site.savedOpcode.bytes.take site.byteSize).take site.byteSize =
      site.savedOpcode.bytes.take site.byteSize := by rw [List.take_take, min_self]
  simp [disableSoftwareBreakpoint, software, enabled, nonempty, doReadMemory, doWriteMemory, whole.reads, whole.writes, trapped, trap, saved, all, restored]

/-- Software sites as large as their traps; an enabled site has its trap in memory, and a disabled one has
saved what is in memory. -/
structure Consistent (trapOpcode : Nat → List UInt8) (memory : ProcessMemory) : Prop where
  placed : memory.sites.Placed
  software : ∀ entry ∈ memory.sites.entries, entry.2.isSoftware
  nonempty : ∀ entry ∈ memory.sites.entries, 0 < entry.2.byteSize
  sized : ∀ entry ∈ memory.sites.entries, entry.2.byteSize = (trapOpcode entry.1).length
  trapped : memory.Trapped
  synced : ∀ entry ∈ memory.sites.entries, entry.2.enabled = false → ∀ place ∈ entry.2.range,
    memory.inferior place = entry.2.savedOpcode.bytes[place - entry.2.loadAddress]?
  mapped : ∀ place < 2 ^ 64, (memory.inferior place).isSome

/-- A site that takes the place of the one at its address, or of none, with memory changed in its range only. -/
structure Replaces (trapOpcode : Nat → List UInt8) (memory : ProcessMemory) (inferior : Inferior)
    (site : BreakpointSite) : Prop where
  software : site.isSoftware
  nonempty : 0 < site.byteSize
  sized : site.byteSize = (trapOpcode site.loadAddress).length
  small : site.byteSize ≤ 8
  fits : site.loadAddress + site.byteSize ≤ 2 ^ 64
  apart : ∀ entry ∈ memory.sites.entries, entry.1 ≠ site.loadAddress → site.range.Apart entry.2.range
  old : ∀ entry ∈ memory.sites.entries, entry.1 = site.loadAddress → entry.2.range = site.range
  frame : ∀ place ∉ site.range, inferior place = memory.inferior place
  content : ∀ place ∈ site.range,
    inferior place = (if site.enabled then site.trapOpcode else site.savedOpcode).bytes[place - site.loadAddress]?

def withSite (memory : ProcessMemory) (inferior : Inferior) (site : BreakpointSite) : ProcessMemory :=
  ⟨inferior, memory.sites.insert site.loadAddress site⟩

section
variable {trapOpcode : Nat → List UInt8} {memory : ProcessMemory} {inferior : Inferior} {site : BreakpointSite}

theorem mem_withSite {entry : Nat × BreakpointSite} : entry ∈ (memory.withSite inferior site).sites.entries ↔
      entry = (site.loadAddress, site) ∨ entry ∈ memory.sites.entries ∧ entry.1 ≠ site.loadAddress :=
  memory.sites.mem_insert site.loadAddress site entry

variable (consistent : memory.Consistent trapOpcode)
include consistent

theorem Consistent.withSite
    (replaces : Replaces trapOpcode memory inferior site) : (memory.withSite inferior site).Consistent trapOpcode where
  placed :=
    { keyed := by
        intro entry member
        rcases mem_withSite.mp member with rfl | ⟨old, -⟩
        · rfl
        · exact consistent.placed.keyed entry old
      small := by
        intro entry member
        rcases mem_withSite.mp member with rfl | ⟨old, -⟩
        · exact replaces.small
        · exact consistent.placed.small entry old
      fits := by
        intro entry member
        rcases mem_withSite.mp member with rfl | ⟨old, -⟩
        · exact replaces.fits
        · exact consistent.placed.fits entry old
      apart := by
        intro entry member other listed software otherSoftware different
        rcases mem_withSite.mp member with rfl | ⟨old, beside⟩
        · rcases mem_withSite.mp listed with rfl | ⟨otherOld, otherBeside⟩
          · exact absurd rfl different
          · exact replaces.apart other otherOld otherBeside
        · rcases mem_withSite.mp listed with rfl | ⟨otherOld, -⟩
          · exact (replaces.apart entry old beside).symm
          · exact consistent.placed.apart entry old other otherOld software otherSoftware different }
  software := by
    intro entry member
    rcases mem_withSite.mp member with rfl | ⟨old, -⟩
    · exact replaces.software
    · exact consistent.software entry old
  nonempty := by
    intro entry member
    rcases mem_withSite.mp member with rfl | ⟨old, -⟩
    · exact replaces.nonempty
    · exact consistent.nonempty entry old
  sized := by
    intro entry member
    rcases mem_withSite.mp member with rfl | ⟨old, -⟩
    · exact replaces.sized
    · exact consistent.sized entry old
  trapped := by
    intro entry member software enabled index below
    have covers : entry.2.loadAddress + index ∈ entry.2.range := Window.mem_mk.mpr (by omega)
    rcases mem_withSite.mp member with rfl | ⟨old, beside⟩
    · have stored := replaces.content _ covers
      rwa [if_pos enabled, Nat.add_sub_cancel_left] at stored
    · exact (replaces.frame _ fun inside => replaces.apart entry old beside _ inside covers).trans
        (consistent.trapped entry old software enabled index below)
  synced := by
    intro entry member disabled place covers
    rcases mem_withSite.mp member with rfl | ⟨old, beside⟩
    · have stored := replaces.content _ covers
      rwa [disabled] at stored
    · exact (replaces.frame _ fun inside => replaces.apart entry old beside _ inside covers).trans
        (consistent.synced entry old disabled place covers)
  mapped := by
    intro place below
    show (inferior place).isSome
    by_cases covers : place ∈ site.range
    · have inside := covers
      rw [range, Window.mem_mk] at inside
      have small := replaces.small
      have length (opcode : OpcodeBytes) : place - site.loadAddress < opcode.bytes.length := by
        rw [opcode.length]
        omega
      rw [replaces.content place covers, List.getElem?_eq_getElem (length _)]
      rfl
    · rw [replaces.frame place covers]
      exact consistent.mapped place below

/-- The program's memory has the saved bytes of the site in its range, and is as before elsewhere. -/
theorem logical_withSite (replaces : Replaces trapOpcode memory inferior site) (place : Nat) :
    (memory.withSite inferior site).logical place =
      if place ∈ site.range then site.savedOpcode.bytes[place - site.loadAddress]? else memory.logical place := by
  have placed := (consistent.withSite replaces).placed
  have present : (site.loadAddress, site) ∈ (memory.withSite inferior site).sites.entries := mem_withSite.mpr (.inl rfl)
  by_cases covers : place ∈ site.range
  · rw [if_pos covers]
    cases enabled : site.enabled with
    | true => exact logical_of_hides placed present (hides_iff.mpr ⟨enabled, replaces.software, covers⟩)
    | false =>
      have clear : ∀ entry ∈ (memory.withSite inferior site).sites.entries, ¬ entry.2.hides place := by
        intro entry member hides
        obtain ⟨on, -, inside⟩ := hides_iff.mp hides
        rcases mem_withSite.mp member with rfl | ⟨old, beside⟩
        · exact Bool.false_ne_true (enabled.symm.trans on)
        · exact replaces.apart entry old beside place covers inside
      have stored := replaces.content place covers
      rw [enabled] at stored
      exact (logical_of_clear clear).trans stored
  · rw [if_neg covers]
    by_cases hidden : ∃ entry ∈ memory.sites.entries, entry.2.hides place
    · obtain ⟨entry, member, hides⟩ := hidden
      have beside : entry.1 ≠ site.loadAddress := fun same =>
        covers (replaces.old entry member same ▸ (hides_iff.mp hides).2.2)
      rw [logical_of_hides consistent.placed member hides]
      exact logical_of_hides placed (mem_withSite.mpr (.inr ⟨member, beside⟩)) hides
    · have clear : ∀ entry ∈ (memory.withSite inferior site).sites.entries, ¬ entry.2.hides place := by
        intro entry member hides
        rcases mem_withSite.mp member with rfl | ⟨old, -⟩
        · exact covers (hides_iff.mp hides).2.2
        · exact hidden ⟨entry, old, hides⟩
      rw [logical_of_clear fun entry member hides => hidden ⟨entry, member, hides⟩]
      exact (logical_of_clear clear).trans (replaces.frame place covers)

theorem Consistent.store {address : Nat} {bytes : List UInt8}
    (beside : ∀ entry ∈ memory.sites.entries, entry.2.range.Apart ⟨address, bytes.length⟩) :
    Consistent trapOpcode ⟨memory.inferior.store address bytes, memory.sites⟩ ∧
      logical ⟨memory.inferior.store address bytes, memory.sites⟩ = memory.logical.store address bytes := by
  have kept {entry : Nat × BreakpointSite} (member : entry ∈ memory.sites.entries) {place : Nat}
      (covers : place ∈ entry.2.range) : memory.inferior.store address bytes place = memory.inferior place :=
    memory.inferior.store_outside (beside entry member place covers)
  refine ⟨{ consistent with
    trapped := fun entry member software enabled index below =>
      (kept member (Window.mem_mk.mpr (by omega))).trans
        (consistent.trapped entry member software enabled index below)
    synced := fun entry member disabled place covers =>
      (kept member covers).trans (consistent.synced entry member disabled place covers)
    mapped := fun place below => ?_ }, ?_⟩
  · show (memory.inferior.store address bytes place).isSome
    by_cases inside : place ∈ (⟨address, bytes.length⟩ : Window)
    · rw [memory.inferior.store_inside inside]
      rw [Window.mem_mk] at inside
      rw [List.getElem?_eq_getElem (by omega), Option.isSome_some]
    · rw [memory.inferior.store_outside inside]
      exact consistent.mapped place below
  · funext place
    by_cases hidden : ∃ entry ∈ memory.sites.entries, entry.2.hides place
    · obtain ⟨entry, member, hides⟩ := hidden
      have outside := beside entry member place (hides_iff.mp hides).2.2
      have placed : (⟨memory.inferior.store address bytes, memory.sites⟩ : ProcessMemory).sites.Placed :=
        consistent.placed
      rw [memory.logical.store_outside outside, logical_of_hides consistent.placed member hides]
      exact logical_of_hides placed member hides
    · have clear : ∀ entry ∈ memory.sites.entries, ¬ entry.2.hides place :=
        fun entry member hides => hidden ⟨entry, member, hides⟩
      calc logical ⟨memory.inferior.store address bytes, memory.sites⟩ place
          = memory.inferior.store address bytes place := logical_of_clear clear
        _ = memory.logical.store address bytes place :=
            Library.Memory.write_congr address _ (logical_of_clear clear).symm

theorem Consistent.refresh (member : (site.loadAddress, site) ∈ memory.sites.entries) :
    (memory.withSite memory.inferior site).Consistent trapOpcode ∧
      (memory.withSite memory.inferior site).logical = memory.logical := by
  have software := consistent.software _ member
  have replaces : Replaces trapOpcode memory memory.inferior site :=
    { software := software
      nonempty := consistent.nonempty _ member
      sized := consistent.sized _ member
      small := consistent.placed.small _ member
      fits := consistent.placed.fits _ member
      apart := fun other listed beside => consistent.placed.apart _ member other listed software
        (consistent.software other listed) fun same => beside (same ▸ rfl)
      old := fun other listed same => by rw [memory.sites.eq_of_key_eq listed member same]
      frame := fun place outside => rfl
      content := by
        intro place covers
        cases enabled : site.enabled with
        | true => exact consistent.trapped.at_place member (hides_iff.mpr ⟨enabled, software, covers⟩)
        | false => exact consistent.synced _ member enabled place covers }
  refine ⟨consistent.withSite replaces, ?_⟩
  funext place
  rw [logical_withSite consistent replaces]
  split_ifs with covers
  · cases enabled : site.enabled with
    | true => exact (logical_of_hides consistent.placed member (hides_iff.mpr ⟨enabled, software, covers⟩)).symm
    | false =>
      have clear : ∀ entry ∈ memory.sites.entries, ¬ entry.2.hides place := by
        intro entry listed hides
        obtain ⟨on, -, inside⟩ := hides_iff.mp hides
        have same : entry = (site.loadAddress, site) := by
          by_contra different
          exact consistent.placed.apart entry listed _ member (consistent.software entry listed) software
            different place inside covers
        rw [same] at on
        exact Bool.false_ne_true (enabled.symm.trans on)
      rw [logical_of_clear clear]
      exact (consistent.synced _ member enabled place covers).symm
  · rfl

theorem Consistent.enable {transfers : Transfers}
    (whole : transfers.Whole) (disabled : site.enabled = false) (soft : site.isHardware = false)
    (valid : site.loadAddress ≠ invalidAddress) (nonempty : 0 < (trapOpcode site.loadAddress).length)
    (small : (trapOpcode site.loadAddress).length ≤ 8)
    (fits : site.loadAddress + (trapOpcode site.loadAddress).length ≤ 2 ^ 64)
    (apart : ∀ entry ∈ memory.sites.entries, entry.1 ≠ site.loadAddress →
      Window.Apart ⟨site.loadAddress, (trapOpcode site.loadAddress).length⟩ entry.2.range)
    (old : ∀ entry ∈ memory.sites.entries, entry.1 = site.loadAddress → entry.2.enabled = false) :
    ∃ inferior enabled,
      enableSoftwareBreakpoint transfers (trapOpcode site.loadAddress) memory.inferior site = (inferior, enabled) ∧
      enabled.enabled ∧
      (memory.withSite inferior enabled).Consistent trapOpcode ∧
      (memory.withSite inferior enabled).logical = memory.logical := by
  refine ⟨_, _, enableSoftwareBreakpoint_eq whole nonempty small consistent.mapped disabled valid fits, rfl, ?_⟩
  have read := Inferior.length_read_mapped consistent.mapped site.loadAddress (trapOpcode site.loadAddress).length
  have oldRange : ∀ entry ∈ memory.sites.entries, entry.1 = site.loadAddress →
      entry.2.range = ⟨site.loadAddress, (trapOpcode site.loadAddress).length⟩ := by
    intro entry member same
    rw [range, consistent.sized entry member, ← consistent.placed.keyed entry member, same]
  have replaces : Replaces trapOpcode memory (memory.inferior.store site.loadAddress (trapOpcode site.loadAddress))
      { site with
        byteSize := (trapOpcode site.loadAddress).length
        trapOpcode := site.trapOpcode.copyIn 0 (trapOpcode site.loadAddress)
        savedOpcode := site.savedOpcode.copyIn 0
          (memory.inferior.readMemoryFromInferior site.loadAddress (trapOpcode site.loadAddress).length)
        enabled := true
        siteType := .software } :=
    { software := by simp [isSoftware, soft]
      nonempty := nonempty
      sized := rfl
      small := small
      fits := fits
      apart := apart
      old := oldRange
      frame := fun place outside => memory.inferior.store_outside outside
      content := by
        intro place inside
        rw [range] at inside
        rw [memory.inferior.store_inside inside]
        rw [Window.mem_mk] at inside
        dsimp only at inside ⊢
        have position : place - site.loadAddress ∈ (⟨0, (trapOpcode site.loadAddress).length⟩ : Window) :=
          Window.mem_mk.mpr (by omega)
        exact (site.trapOpcode.getElem?_copyIn_inside position (by omega)).symm }
  refine ⟨consistent.withSite replaces, ?_⟩
  funext place
  rw [logical_withSite consistent replaces]
  split_ifs with covers
  · rw [range] at covers
    have clear : ∀ entry ∈ memory.sites.entries, ¬ entry.2.hides place := by
      intro entry member hides
      obtain ⟨on, -, inside⟩ := hides_iff.mp hides
      by_cases same : entry.1 = site.loadAddress
      · exact Bool.false_ne_true ((old entry member same).symm.trans on)
      · exact apart entry member same place covers inside
    rw [logical_of_clear clear]
    rw [Window.mem_mk] at covers
    dsimp only at covers ⊢
    rw [site.savedOpcode.getElem?_copyIn_inside (Window.mem_mk.mpr (by omega)) (by omega), Nat.sub_zero,
      getElem?_readable (by rw [readable]; omega), Nat.add_sub_cancel' covers.1, Nat.mod_eq_of_lt (by omega)]
  · rfl

theorem read_trapped {entry : Nat × BreakpointSite}
    (member : entry ∈ memory.sites.entries) (enabled : entry.2.enabled) :
    memory.inferior.readMemoryFromInferior entry.2.loadAddress entry.2.byteSize =
      entry.2.trapOpcode.bytes.take entry.2.byteSize := by
  have length := Inferior.length_read_mapped consistent.mapped entry.2.loadAddress entry.2.byteSize
  have fits := consistent.placed.fits entry member
  apply List.ext_getElem?
  intro index
  by_cases below : index < entry.2.byteSize
  · rw [getElem?_readable (by rw [readable, length]; exact below), Nat.mod_eq_of_lt (by omega),
      consistent.trapped entry member (consistent.software entry member) enabled index below,
      List.getElem?_take, if_pos below]
  · rw [List.getElem?_eq_none (by omega), List.getElem?_eq_none (by rw [List.length_take]; omega)]

theorem Consistent.disable {transfers : Transfers}
    (whole : transfers.Whole) {entry : Nat × BreakpointSite} (member : entry ∈ memory.sites.entries)
    (enabled : entry.2.enabled) :
    ∃ inferior disabled, disableSoftwareBreakpoint transfers memory.inferior entry.2 = (inferior, disabled) ∧
      (memory.withSite inferior disabled).Consistent trapOpcode ∧
      (memory.withSite inferior disabled).logical = memory.logical := by
  have software := consistent.software entry member
  have soft : entry.2.isHardware = false := by
    rw [isSoftware, Bool.and_eq_true, Bool.not_eq_true'] at software
    exact software.2
  have key := consistent.placed.keyed entry member
  have small := consistent.placed.small entry member
  have nonempty := consistent.nonempty entry member
  have saved : (entry.2.savedOpcode.bytes.take entry.2.byteSize).length = entry.2.byteSize := by
    rw [List.length_take, entry.2.savedOpcode.length]
    omega
  refine ⟨_, _, disableSoftwareBreakpoint_eq whole soft enabled nonempty small
    (consistent.placed.fits entry member) (read_trapped consistent member enabled), ?_⟩
  have replaces : Replaces trapOpcode memory
      (memory.inferior.store entry.2.loadAddress (entry.2.savedOpcode.bytes.take entry.2.byteSize))
      { entry.2 with enabled := false } :=
    { software := software
      nonempty := nonempty
      sized := key ▸ consistent.sized entry member
      small := small
      fits := consistent.placed.fits entry member
      apart := fun other listed beside => consistent.placed.apart entry member other listed software
        (consistent.software other listed) fun same => beside (same ▸ key)
      old := fun other listed same => by
        rw [memory.sites.eq_of_key_eq listed member (same.trans key.symm)]
        rfl
      frame := fun place outside => memory.inferior.store_outside (by rwa [saved])
      content := by
        intro place inside
        rw [range] at inside
        rw [memory.inferior.store_inside (by rwa [saved]), if_neg Bool.false_ne_true]
        rw [Window.mem_mk] at inside
        rw [List.getElem?_take, if_pos (by simp only at inside; omega)] }
  refine ⟨consistent.withSite replaces, ?_⟩
  funext place
  rw [logical_withSite consistent replaces]
  split_ifs with covers
  · exact (logical_of_hides consistent.placed member (hides_iff.mpr ⟨enabled, software, covers⟩)).symm
  · rfl

/-- Writing a part of the saved bytes of an enabled site writes the program's memory under its trap. -/
theorem Consistent.saveOpcode
    (member : (site.loadAddress, site) ∈ memory.sites.entries) (enabled : site.enabled) {offset : Nat}
    {bytes : List UInt8} (inside : offset + bytes.length ≤ site.byteSize) :
    (memory.withSite memory.inferior { site with savedOpcode := site.savedOpcode.copyIn offset bytes }).Consistent
        trapOpcode ∧
      (memory.withSite memory.inferior { site with savedOpcode := site.savedOpcode.copyIn offset bytes }).logical =
        memory.logical.store (site.loadAddress + offset) bytes := by
  have software := consistent.software _ member
  have small : site.byteSize ≤ 8 := consistent.placed.small _ member
  have replaces : Replaces trapOpcode memory memory.inferior
      { site with savedOpcode := site.savedOpcode.copyIn offset bytes } :=
    { software := software
      nonempty := consistent.nonempty _ member
      sized := consistent.sized _ member
      small := small
      fits := consistent.placed.fits _ member
      apart := fun other listed beside => consistent.placed.apart _ member other listed software
        (consistent.software other listed) fun same => beside (same ▸ rfl)
      old := fun other listed same => by
        rw [memory.sites.eq_of_key_eq listed member same]
        rfl
      frame := fun place outside => rfl
      content := by
        intro place covers
        rw [if_pos enabled]
        exact consistent.trapped.at_place member (hides_iff.mpr ⟨enabled, software, covers⟩) }
  refine ⟨consistent.withSite replaces, ?_⟩
  funext place
  rw [logical_withSite consistent replaces]
  by_cases written : place ∈ (⟨site.loadAddress + offset, bytes.length⟩ : Window)
  · rw [memory.logical.store_inside written]
    rw [Window.mem_mk] at written
    have covers : place ∈ site.range := Window.mem_mk.mpr (by omega)
    refine (if_pos covers).trans ?_
    have part : place - site.loadAddress ∈ (⟨offset, bytes.length⟩ : Window) := Window.mem_mk.mpr (by omega)
    rw [site.savedOpcode.getElem?_copyIn_inside part (by omega), Nat.sub_add_eq]
  · rw [memory.logical.store_outside written]
    rw [Window.mem_mk] at written
    by_cases covers : place ∈ site.range
    · have bounds := covers
      rw [range, Window.mem_mk] at bounds
      have part : place - site.loadAddress ∉ (⟨offset, bytes.length⟩ : Window) := by
        rw [Window.mem_mk]
        omega
      refine (if_pos covers).trans ?_
      rw [site.savedOpcode.getElem?_copyIn_outside part]
      exact (logical_of_hides consistent.placed member (hides_iff.mpr ⟨enabled, software, covers⟩)).symm
    · exact if_neg covers

end

end ProcessMemory

end Lldb
