import Lldb.Library.OrderedMap
import Lldb.Library.Window
import Lldb.Core.Range

/-! Breakpoint sites and the list of them that a process keeps, sorted by address.

Addresses are 64-bit. Owners, hit counts and identifiers of sites are not modelled.
-/

set_option autoImplicit false

namespace Lldb

open Library (Window)
open List

structure OpcodeBytes where
  bytes : List UInt8
  length : bytes.length = 8
  deriving DecidableEq

namespace OpcodeBytes

def zero : OpcodeBytes := ⟨replicate 8 0, rfl⟩

/-- `memcpy` to an offset. -/
def copyIn (opcode : OpcodeBytes) (offset : Nat) (bytes : List UInt8) : OpcodeBytes :=
  ⟨Window.overwrite offset bytes opcode.bytes, (Window.length_overwrite ..).trans opcode.length⟩

theorem getElem?_copyIn_inside (opcode : OpcodeBytes) {offset index : Nat} {bytes : List UInt8}
    (inside : index ∈ (⟨offset, bytes.length⟩ : Window)) (fits : offset + bytes.length ≤ 8) :
    (opcode.copyIn offset bytes).bytes[index]? = bytes[index - offset]? := by
  refine Window.getElem?_overwrite_inside inside ?_
  have last := inside.2
  rw [opcode.length]
  simp only at last
  omega

theorem getElem?_copyIn_outside (opcode : OpcodeBytes) {offset index : Nat} {bytes : List UInt8}
    (outside : index ∉ (⟨offset, bytes.length⟩ : Window)) :
    (opcode.copyIn offset bytes).bytes[index]? = opcode.bytes[index]? :=
  Window.getElem?_overwrite_outside outside

end OpcodeBytes

inductive BreakpointSiteType where
  | software
  | hardware
  | external
  deriving DecidableEq, Repr

structure BreakpointSite where
  loadAddress : Nat
  byteSize : Nat
  isHardware : Bool
  siteType : BreakpointSiteType
  savedOpcode : OpcodeBytes
  trapOpcode : OpcodeBytes
  enabled : Bool
  deriving DecidableEq

/-- What `IntersectsRange` stores through its pointers. -/
structure Intersection where
  address : Nat
  size : Nat
  opcodeOffset : Nat
  deriving DecidableEq, Repr

namespace BreakpointSite

def new (loadAddress : Nat) : BreakpointSite where
  loadAddress := loadAddress
  byteSize := 0
  isHardware := false
  siteType := .software
  savedOpcode := .zero
  trapOpcode := .zero
  enabled := false

variable (site : BreakpointSite)

def range : Window := ⟨site.loadAddress, site.byteSize⟩

def isSoftware : Bool := site.siteType = .software && !site.isHardware

def setTrapOpcode (trapOpcode : List UInt8) : Bool × BreakpointSite :=
  if 0 < trapOpcode.length ∧ trapOpcode.length ≤ 8 then
    (true, { site with byteSize := trapOpcode.length, trapOpcode := site.trapOpcode.copyIn 0 trapOpcode })
  else (false, { site with byteSize := 0 })

def intersectsRange (address size : Nat) : Option Intersection :=
  if site.isHardware ∨ site.byteSize = 0 then none
  else
    let bpEndAddress := (site.loadAddress + site.byteSize) % 2 ^ 64
    let endAddress := (address + size) % 2 ^ 64
    if bpEndAddress ≤ address then none
    else if endAddress ≤ site.loadAddress then none
    else if site.loadAddress < address then
      some ⟨address, (min bpEndAddress endAddress + 2 ^ 64 - address) % 2 ^ 64, address - site.loadAddress⟩
    else
      some ⟨site.loadAddress, (min bpEndAddress endAddress + 2 ^ 64 - site.loadAddress) % 2 ^ 64, 0⟩

def savedPart (intersection : Intersection) : List UInt8 :=
  (⟨intersection.opcodeOffset, intersection.size⟩ : Window).read site.savedOpcode.bytes

theorem intersectsRange_eq {site : BreakpointSite} (software : site.isHardware = false)
    (fits : site.loadAddress + site.byteSize < 2 ^ 64) {address size place : Nat} (bounded : address + size < 2 ^ 64)
    (inSite : place ∈ site.range) (inRange : place ∈ (⟨address, size⟩ : Window)) :
    site.intersectsRange address size = some ⟨max address site.loadAddress,
        min (site.loadAddress + site.byteSize) (address + size) - max address site.loadAddress,
        max address site.loadAddress - site.loadAddress⟩ := by
  rw [range, Window.mem_mk] at inSite
  rw [Window.mem_mk] at inRange
  unfold intersectsRange
  rw [software, if_neg (by simp; omega)]
  simp only [Nat.mod_eq_of_lt fits, Nat.mod_eq_of_lt bounded]
  rw [if_neg (by omega), if_neg (by omega)]
  split_ifs with below
  · simp only [Option.some.injEq, Intersection.mk.injEq]
    omega
  · simp only [Option.some.injEq, Intersection.mk.injEq]
    omega

/-- The end of a site at the top of the address space wraps to zero. -/
theorem intersectsRange_top {site : BreakpointSite} (top : site.loadAddress + site.byteSize = 2 ^ 64)
    (address size : Nat) : site.intersectsRange address size = none := by
  unfold intersectsRange
  rw [top]
  by_cases skipped : site.isHardware = true ∨ site.byteSize = 0
  · rw [if_pos skipped]
  · rw [if_neg skipped]
    exact if_pos (Nat.zero_le address)

theorem intersectsRange_none {site : BreakpointSite} {address size : Nat} (bounded : address + size < 2 ^ 64)
    (apart : site.range.Apart ⟨address, size⟩) (nonempty : 0 < size) : site.intersectsRange address size = none := by
  unfold intersectsRange
  by_cases skipped : site.isHardware = true ∨ site.byteSize = 0
  · rw [if_pos skipped]
  · have sides := (Window.apart_iff (Nat.pos_of_ne_zero fun empty => skipped (.inr empty)) nonempty).mp apart
    simp only [range] at sides
    rw [if_neg skipped]
    by_cases before : (site.loadAddress + site.byteSize) % 2 ^ 64 ≤ address
    · rw [if_pos before]
    · rw [if_neg before, if_pos (by omega)]

end BreakpointSite

abbrev BreakpointSiteList := Library.OrderedMap Nat BreakpointSite

namespace BreakpointSiteList

/-- The sites that `FindInRange` adds, in the order of their addresses; `none` where it returns false. -/
def findInRange (sites : BreakpointSiteList) (lowerBound upperBound : Nat) : Option (List BreakpointSite) :=
  if lowerBound > upperBound then none
  else
    let lower := sites.lowerBound lowerBound
    match sites.entries[lower]? with
    | none => none
    | some first =>
        if first.1 ≥ upperBound then none
        else
          let previous :=
            if lower = 0 then []
            else (sites.entries[lower - 1]?.toList.map (·.2)).filter fun site =>
              (site.loadAddress + site.byteSize) % 2 ^ 64 > lowerBound
          let upper := sites.upperBound upperBound
          some (previous ++ ((sites.entries.take upper).drop lower).map (·.2))

def Keyed (sites : BreakpointSiteList) : Prop := ∀ entry ∈ sites.entries, entry.1 = entry.2.loadAddress

def BeginsIn (sites : BreakpointSiteList) (address size : Nat) : Prop :=
  ∃ entry ∈ sites.entries, entry.1 ∈ (⟨address, size⟩ : Window)

/-- No site is listed between this one, which begins below the address, and the address. -/
def Precedes (sites : BreakpointSiteList) (site : BreakpointSite) (address : Nat) : Prop :=
  site.loadAddress < address ∧ ∀ entry ∈ sites.entries, entry.1 < address → entry.1 ≤ site.loadAddress

theorem findInRange_none {sites : BreakpointSiteList} {address size : Nat} (nonempty : 0 < size) :
    sites.findInRange address (address + size) = none ↔ ¬ sites.BeginsIn address size := by
  obtain ⟨front, back, split, position, below, above, -⟩ :=
    sites.between_bounds (show address ≤ address + size by omega)
  have first : sites.entries[sites.lowerBound address]? = back.head? := by
    simp [split, position, getElem?_append_right (Nat.le_refl _), head?_eq_getElem?]
  have sorted := split ▸ sites.sorted
  unfold findInRange
  rw [if_neg (by omega)]
  simp only [first]
  cases back with
  | nil =>
    simp only [head?_nil, true_iff]
    rintro ⟨entry, member, begins⟩
    rw [split, append_nil] at member
    have less := below entry member
    have atLeast := begins.1
    simp only at atLeast
    omega
  | cons head rest =>
    simp only [head?_cons]
    have atLeast := above head mem_cons_self
    split_ifs with beyond
    · simp only [true_iff]
      rintro ⟨entry, member, begins⟩
      rw [Window.mem_mk] at begins
      rw [split, mem_append, mem_cons] at member
      rcases member with before | rfl | later
      · have := below entry before
        omega
      · omega
      · have := (pairwise_cons.mp (pairwise_append.mp sorted).2.1).1 entry later
        omega
    · simp only [false_iff, not_not]
      exact ⟨head, split ▸ mem_append_right _ mem_cons_self, Window.mem_mk.mpr (by omega)⟩

theorem eq_of_site_eq {sites : BreakpointSiteList} (keyed : sites.Keyed) {entry other : Nat × BreakpointSite}
    (member : entry ∈ sites.entries) (listed : other ∈ sites.entries) (equal : entry.2 = other.2) : entry = other :=
  Prod.ext ((keyed entry member).trans (equal ▸ (keyed other listed).symm)) equal

section

variable {sites : BreakpointSiteList} (keyed : sites.Keyed) {address : Nat}
  {front back : List (Nat × BreakpointSite)} (split : sites.entries = front ++ back)
  (below : ∀ entry ∈ front, entry.1 < address) (above : ∀ entry ∈ back, address ≤ entry.1)

include keyed split below above

theorem mem_takeWhile_back (bound : Nat) {entry : Nat × BreakpointSite} (member : entry ∈ sites.entries) :
    entry.2 ∈ (back.takeWhile fun entry => decide (entry.1 ≤ bound)).map (·.2) ↔
      address ≤ entry.1 ∧ entry.1 ≤ bound := by
  have backSorted := (pairwise_append.mp (split ▸ sites.sorted)).2.1
  rw [mem_map]
  constructor
  · rintro ⟨other, listed, equal⟩
    obtain ⟨inBack, reached⟩ := (Library.OrderedMap.mem_takeWhile_of_sorted backSorted _ _).mp listed
    cases eq_of_site_eq keyed member (split ▸ mem_append_right _ inBack) equal.symm
    exact ⟨above entry inBack, reached⟩
  · rintro ⟨atLeast, reached⟩
    refine ⟨entry, (Library.OrderedMap.mem_takeWhile_of_sorted backSorted _ _).mpr ⟨?_, reached⟩, rfl⟩
    rw [split, mem_append] at member
    rcases member with before | inBack
    · exact absurd (below entry before) (not_lt.mpr atLeast)
    · exact inBack

theorem precedes_iff {last entry : Nat × BreakpointSite} (ends : front.getLast? = some last)
    (member : entry ∈ sites.entries) : sites.Precedes entry.2 address ↔ entry = last := by
  have frontSorted := (pairwise_append.mp (split ▸ sites.sorted)).1
  have inFront := mem_of_getLast? ends
  have lastListed : last ∈ sites.entries := split ▸ mem_append_left _ inFront
  constructor
  · rintro ⟨less, greatest⟩
    have most := greatest last lastListed (below last inFront)
    rw [← keyed entry member] at less most
    have before : entry.1 ≤ last.1 := by
      rw [split, mem_append] at member
      refine Library.OrderedMap.le_last_of_sorted frontSorted ends entry (member.resolve_right fun after => ?_)
      exact absurd (above entry after) (not_le.mpr less)
    exact sites.eq_of_key_eq member lastListed (le_antisymm before most)
  · rintro rfl
    refine ⟨?_, fun other listed less => ?_⟩ <;> rw [← keyed entry member]
    · exact below entry inFront
    · rw [split, mem_append] at listed
      rcases listed with before | after
      · exact Library.OrderedMap.le_last_of_sorted frontSorted ends other before
      · exact absurd (above other after) (not_le.mpr less)

end

/-- What is found: the sites that begin in the range or at its end, and the one before them when it
reaches into the range. -/
theorem mem_findInRange {sites : BreakpointSiteList} (keyed : sites.Keyed) {address size : Nat} (nonempty : 0 < size)
    {found : List BreakpointSite} (finds : sites.findInRange address (address + size) = some found) :
    found.Sublist (sites.entries.map (·.2)) ∧ ∀ entry ∈ sites.entries,
      entry.2 ∈ found ↔ address ≤ entry.1 ∧ entry.1 ≤ address + size ∨
        sites.Precedes entry.2 address ∧ address < (entry.2.loadAddress + entry.2.byteSize) % 2 ^ 64 := by
  obtain ⟨front, back, split, position, below, above, between⟩ :=
    sites.between_bounds (show address ≤ address + size by omega)
  have later (entry) (member : entry ∈ sites.entries) :=
    mem_takeWhile_back keyed split below above (address + size) member
  unfold findInRange at finds
  rw [if_neg (by omega)] at finds
  dsimp only at finds
  split at finds
  · cases finds
  · rename_i first listed
    have within : ¬ first.1 ≥ address + size := fun beyond => by simp [beyond] at finds
    rw [if_neg within, between, Option.some.injEq] at finds
    rw [← finds]
    rcases eq_nil_or_concat front with rfl | ⟨earlier, last, rfl⟩
    · rw [if_pos (position.trans length_nil), nil_append, split]
      refine ⟨(takeWhile_sublist _).map _, fun entry member => ?_⟩
      rw [later entry (split ▸ member)]
      refine ⟨.inl, fun either => either.resolve_right fun reaches => ?_⟩
      have less := reaches.1.1
      rw [← keyed entry (split ▸ member)] at less
      exact absurd (above entry member) (not_le.mpr less)
    · rw [concat_eq_append] at split below position
      have index : sites.entries[sites.lowerBound address - 1]? = some last := by
        rw [split, position, length_append, length_singleton, Nat.add_sub_cancel,
          append_assoc, getElem?_append_right (Nat.le_refl _), Nat.sub_self]
        rfl
      have lastListed : last ∈ sites.entries := split ▸ by simp
      rw [if_neg (by rw [position, length_append, length_singleton]; omega), index]
      simp only [Option.toList_some, map_cons, map_nil]
      refine ⟨?_, fun entry member => ?_⟩
      · rw [split, map_append]
        refine .append ?_ ((takeWhile_sublist _).map _)
        refine filter_sublist.trans ?_
        rw [map_append]
        exact sublist_append_right _ _
      · rw [mem_append, mem_filter, mem_singleton, later entry member, or_comm,
          precedes_iff keyed split below above (getLast?_concat ..) member, decide_eq_true_eq]
        refine or_congr_right (and_congr_left fun _ => ⟨?_, congrArg Prod.snd⟩)
        exact eq_of_site_eq keyed member lastListed

/-- The sites that are found for a range that has a byte in common with them: they end below the end of
the address space, and begin in the range or directly before one that does. -/
structure Reaches (sites : BreakpointSiteList) (address size : Nat) (site : BreakpointSite) : Prop where
  fits : site.loadAddress + site.byteSize < 2 ^ 64
  found : address ≤ site.loadAddress ∨ sites.Precedes site address ∧ sites.BeginsIn address size

theorem reaches_iff {sites : BreakpointSiteList} (keyed : sites.Keyed) {entry : Nat × BreakpointSite}
    (member : entry ∈ sites.entries) {address size place : Nat} (inSite : place ∈ entry.2.range)
    (inRange : place ∈ (⟨address, size⟩ : Window)) :
    sites.Reaches address size entry.2 ↔ entry.2.loadAddress + entry.2.byteSize < 2 ^ 64 ∧
      ∃ found, sites.findInRange address (address + size) = some found ∧ entry.2 ∈ found := by
  rw [BreakpointSite.range, Window.mem_mk] at inSite
  rw [Window.mem_mk] at inRange
  have nonempty : 0 < size := by omega
  have key := keyed entry member
  constructor
  · rintro ⟨below, found⟩
    refine ⟨below, ?_⟩
    have begins : sites.BeginsIn address size := by
      rcases found with inside | ⟨-, begins⟩
      · exact ⟨entry, member, Window.mem_mk.mpr (by omega)⟩
      · exact begins
    cases finds : sites.findInRange address (address + size) with
    | none => exact absurd begins ((findInRange_none nonempty).mp finds)
    | some list =>
      refine ⟨list, rfl, ((mem_findInRange keyed nonempty finds).2 entry member).mpr ?_⟩
      rcases found with inside | ⟨precedes, -⟩
      · exact .inl (by omega)
      · exact .inr ⟨precedes, by rw [Nat.mod_eq_of_lt below]; omega⟩
  · rintro ⟨below, list, finds, listed⟩
    refine ⟨below, ?_⟩
    rcases ((mem_findInRange keyed nonempty finds).2 entry member).mp listed with inside | ⟨precedes, -⟩
    · exact .inl (by omega)
    · refine .inr ⟨precedes, ?_⟩
      by_contra none
      rw [(findInRange_none nonempty).mpr none] at finds
      cases finds

end BreakpointSiteList

end Lldb
