import Mathlib.Data.List.Pairwise
import Lldb.Host.NativeBreakpointList

/-! What `RemoveTrapsFromBuffer` makes of a buffer that was read from the memory of the inferior. -/

set_option autoImplicit false

namespace Lldb.NativeBreakpointList

open Library Window Memory List

/-- What is copied over the buffer, each with its place in the buffer; the comparisons are made with 64 bits. -/
def trapCopies (list : NativeBreakpointList) (addr size : Nat) : List (Nat × List UInt8) :=
  list.breakpoints.entries.filterMap fun (bpAddr, breakpoint) =>
    if bpAddr < addr ∨ (addr + size) % 2 ^ 64 ≤ bpAddr then none
    else some (bpAddr - addr, breakpoint.savedOpcodes)

/-- The buffer stands at the beginning of `buf`, with more of the server's memory behind it. -/
def removeTrapsFromBuffer (list : NativeBreakpointList) (addr size : Nat) (buf : Nat → UInt8) : Nat → UInt8 :=
  writeAll buf (list.trapCopies addr size)

def opcodeRange (entry : Nat × SoftwareBreakpoint) : Window := ⟨entry.1, entry.2.trapOpcodes.length⟩

/-- Software breakpoints as `CreateSoftwareBreakpoint` makes them, with opcodes that do not overlap. -/
structure DisjointTraps where
  list : NativeBreakpointList
  saved : ∀ entry ∈ list.breakpoints.entries, entry.2.savedOpcodes.length = entry.2.trapOpcodes.length
  apart : list.breakpoints.entries.Pairwise fun first second => (opcodeRange first).Apart (opcodeRange second)

structure ReadRange where
  addr : Nat
  size : Nat
  within : addr + size ≤ 2 ^ 64

namespace DisjointTraps

variable (traps : DisjointTraps) (range : ReadRange)

def entries : List (Nat × SoftwareBreakpoint) := traps.list.breakpoints.entries

def hidden : Nat → UInt8 :=
  writeAll traps.list.memory
    ((traps.entries.filter fun entry => entry.2.enabled).map fun entry => (entry.1, entry.2.savedOpcodes))

/-- All copies stay in the buffer, and leave in it what the memory holds without traps. -/
structure HidesTraps : Prop where
  inside : ∀ copy ∈ traps.list.trapCopies range.addr range.size, copy.1 + copy.2.length ≤ range.size
  hides : ∀ buf : Nat → UInt8, (∀ index < range.size, buf index = traps.list.memory (range.addr + index)) →
    ∀ index < range.size,
      traps.list.removeTrapsFromBuffer range.addr range.size buf index = traps.hidden (range.addr + index)

/-- The breakpoint begins in the range, whose end is not that of the addresses. -/
def BeginsIn (range : ReadRange) (entry : Nat × SoftwareBreakpoint) : Prop :=
  entry.1 ∈ (⟨range.addr, range.size⟩ : Window) ∧ range.addr + range.size < 2 ^ 64

/-- A breakpoint that begins in the range ends in it, and has saved what is in memory if it is disabled; what another
one that is enabled has in the range, it has saved as it is in memory.
-/
structure Clear : Prop where
  ends : ∀ entry ∈ traps.entries, BeginsIn range entry → entry.1 + entry.2.trapOpcodes.length ≤ range.addr + range.size
  disabled : ∀ entry ∈ traps.entries, BeginsIn range entry → entry.2.enabled = false →
    ∀ place ∈ opcodeRange entry, some (traps.list.memory place) = entry.2.savedOpcodes[place - entry.1]?
  elsewhere : ∀ entry ∈ traps.entries, ¬ BeginsIn range entry → entry.2.enabled = true →
    ∀ place ∈ opcodeRange entry, place ∈ (⟨range.addr, range.size⟩ : Window) →
      some (traps.list.memory place) = entry.2.savedOpcodes[place - entry.1]?

variable {traps range} {copy : Nat × List UInt8} {entry : Nat × SoftwareBreakpoint} {place : Nat}

theorem mem_trapCopies : copy ∈ traps.list.trapCopies range.addr range.size ↔
      ∃ entry ∈ traps.entries, BeginsIn range entry ∧ copy = (entry.1 - range.addr, entry.2.savedOpcodes) := by
  have within := range.within
  unfold trapCopies BeginsIn
  rw [mem_filterMap]
  refine exists_congr fun ⟨bpAddr, breakpoint⟩ => and_congr_right fun _ => ?_
  dsimp only
  rw [mem_mk]
  by_cases outside : bpAddr < range.addr ∨ (range.addr + range.size) % 2 ^ 64 ≤ bpAddr
  · rw [if_pos outside]
    exact iff_of_false nofun fun begins => by omega
  · rw [if_neg outside, Option.some.injEq, eq_comm, iff_and_self]
    exact fun _ => by omega

theorem apart_trapCopies : (traps.list.trapCopies range.addr range.size).Pairwise fun first second =>
    (places first).Apart (places second) := by
  rw [trapCopies, pairwise_filterMap]
  refine traps.apart.imp_of_mem fun {first second} firstIn secondIn apart copy is other otherIs => ?_
  obtain ⟨begins, is⟩ := Option.ite_none_left_eq_some.mp is
  obtain ⟨otherBegins, otherIs⟩ := Option.ite_none_left_eq_some.mp otherIs
  cases is
  cases otherIs
  intro index inFirst inSecond
  have firstSaved := traps.saved first firstIn
  have secondSaved := traps.saved second secondIn
  rw [places, mem_mk] at inFirst inSecond
  dsimp only at inFirst inSecond
  apply apart (index + range.addr)
  · rw [opcodeRange, mem_mk]
    omega
  · rw [opcodeRange, mem_mk]
    omega

theorem unique_entry {other : Nat × SoftwareBreakpoint} (member : entry ∈ traps.entries) (otherIn : other ∈ traps.entries)
    (inside : place ∈ opcodeRange entry) (inOther : place ∈ opcodeRange other) : other = entry := by
  by_contra different
  have symmetric : Std.Symm fun first second => (opcodeRange first).Apart (opcodeRange second) := ⟨fun _ _ => .symm⟩
  exact traps.apart.forall otherIn member different place inOther inside

theorem removeTraps_begins (buf : Nat → UInt8) (member : entry ∈ traps.entries) (begins : BeginsIn range entry)
    (inside : place ∈ opcodeRange entry) :
    some (traps.list.removeTrapsFromBuffer range.addr range.size buf (place - range.addr)) =
      entry.2.savedOpcodes[place - entry.1]? := by
  have there := mem_trapCopies.mpr ⟨entry, member, begins, rfl⟩
  have saved := traps.saved entry member
  have bounds := begins.1
  rw [mem_mk] at bounds
  rw [opcodeRange, mem_mk] at inside
  have copied : place - range.addr ∈ places (entry.1 - range.addr, entry.2.savedOpcodes) := by
    rw [places, mem_mk]
    dsimp only
    omega
  have found := writeAll_inside buf apart_trapCopies there copied
  rwa [show place - range.addr - (entry.1 - range.addr) = place - entry.1 by omega] at found

variable (traps) in
theorem removeTraps_other (buf : Nat → UInt8) (inRange : place ∈ (⟨range.addr, range.size⟩ : Window))
    (other : ∀ entry ∈ traps.entries, BeginsIn range entry → place ∉ opcodeRange entry) :
    traps.list.removeTrapsFromBuffer range.addr range.size buf (place - range.addr) = buf (place - range.addr) := by
  apply writeAll_outside
  intro copy there copied
  obtain ⟨entry, member, begins, rfl⟩ := mem_trapCopies.mp there
  have saved := traps.saved entry member
  have bounds := begins.1
  rw [mem_mk] at bounds inRange
  rw [places, mem_mk] at copied
  dsimp only at copied
  apply other entry member begins
  rw [opcodeRange, mem_mk]
  omega

theorem hidden_enabled (member : entry ∈ traps.entries) (enabled : entry.2.enabled = true)
    (inside : place ∈ opcodeRange entry) : some (traps.hidden place) = entry.2.savedOpcodes[place - entry.1]? := by
  have saved := traps.saved entry member
  refine @Memory.writeAll_inside _ _ place traps.list.memory ?_ (entry.1, entry.2.savedOpcodes)
    (mem_map.mpr ⟨entry, mem_filter.mpr ⟨member, enabled⟩, rfl⟩) ?_
  · rw [pairwise_map]
    refine (List.Pairwise.sublist filter_sublist traps.apart).imp_of_mem
      fun {first second} firstIn secondIn apart => ?_
    have firstSaved := traps.saved first ((mem_filter.mp firstIn).1)
    have secondSaved := traps.saved second ((mem_filter.mp secondIn).1)
    rwa [places, places, firstSaved, secondSaved]
  · rwa [places, saved]

theorem hidden_other (other : ∀ entry ∈ traps.entries, entry.2.enabled = true → place ∉ opcodeRange entry) :
    traps.hidden place = traps.list.memory place := by
  apply writeAll_outside
  intro values there
  obtain ⟨entry, listed, rfl⟩ := mem_map.mp there
  obtain ⟨member, enabled⟩ := mem_filter.mp listed
  rw [places, traps.saved entry member]
  exact other entry member enabled

theorem HidesTraps.ends (hides : traps.HidesTraps range) (member : entry ∈ traps.entries)
    (begins : BeginsIn range entry) : entry.1 + entry.2.trapOpcodes.length ≤ range.addr + range.size := by
  have fits := hides.inside _ (mem_trapCopies.mpr ⟨entry, member, begins, rfl⟩)
  have saved := traps.saved entry member
  dsimp only at fits
  omega

theorem HidesTraps.at (hides : traps.HidesTraps range) (inRange : place ∈ (⟨range.addr, range.size⟩ : Window)) :
    traps.list.removeTrapsFromBuffer range.addr range.size (fun index => traps.list.memory (range.addr + index))
      (place - range.addr) = traps.hidden place := by
  rw [mem_mk] at inRange
  have same := hides.hides (fun index => traps.list.memory (range.addr + index)) (fun _ _ => rfl) (place - range.addr)
    (by omega)
  rwa [show range.addr + (place - range.addr) = place by omega] at same

theorem HidesTraps.clear (hides : traps.HidesTraps range) : traps.Clear range where
  ends _ member begins := hides.ends member begins
  disabled entry member begins disabled place inside := by
    have fits := hides.ends member begins
    have bounds := begins.1
    have inRange : place ∈ (⟨range.addr, range.size⟩ : Window) := by
      rw [mem_mk] at bounds ⊢
      rw [opcodeRange, mem_mk] at inside
      omega
    have untouched : traps.hidden place = traps.list.memory place := by
      apply hidden_other
      intro other otherIn enabled inOther
      obtain rfl := unique_entry member otherIn inside inOther
      exact Bool.false_ne_true (disabled.symm.trans enabled)
    rw [← removeTraps_begins _ member begins inside, hides.at inRange, untouched]
  elsewhere entry member begins enabled place inside inRange := by
    have untouched := traps.removeTraps_other (fun index => traps.list.memory (range.addr + index)) inRange
      fun other otherIn otherBegins inOther => begins (unique_entry member otherIn inside inOther ▸ otherBegins)
    rw [hides.at inRange] at untouched
    rw [← hidden_enabled member enabled inside, untouched]
    rw [mem_mk] at inRange
    rw [show range.addr + (place - range.addr) = place by omega]

theorem Clear.hidesTraps (clear : traps.Clear range) : traps.HidesTraps range where
  inside copy there := by
    obtain ⟨entry, member, begins, rfl⟩ := mem_trapCopies.mp there
    have fits := clear.ends entry member begins
    have saved := traps.saved entry member
    have bounds := begins.1
    rw [mem_mk] at bounds
    dsimp only
    omega
  hides buf same index below := by
    have inRange : range.addr + index ∈ (⟨range.addr, range.size⟩ : Window) := mem_mk.mpr (by omega)
    have back : range.addr + index - range.addr = index := by omega
    by_cases covered : ∃ entry ∈ traps.entries, range.addr + index ∈ opcodeRange entry
    · obtain ⟨entry, member, inside⟩ := covered
      -- What the breakpoint that covers the place leaves in the buffer, and what it hides.
      have buffered : BeginsIn range entry ∨ traps.list.removeTrapsFromBuffer range.addr range.size buf index =
          traps.list.memory (range.addr + index) := by
        refine or_iff_not_imp_left.mpr fun begins => ?_
        have untouched := traps.removeTraps_other buf inRange fun other otherIn otherBegins inOther =>
          begins (unique_entry member otherIn inside inOther ▸ otherBegins)
        rw [back] at untouched
        exact untouched.trans (same index below)
      have hides : entry.2.enabled = false → traps.hidden (range.addr + index) = traps.list.memory (range.addr + index) := by
        intro disabled
        apply hidden_other
        intro other otherIn enabled inOther
        obtain rfl := unique_entry member otherIn inside inOther
        exact Bool.false_ne_true (disabled.symm.trans enabled)
      apply Option.some.inj
      by_cases begins : BeginsIn range entry
      · have removed := removeTraps_begins buf member begins inside
        rw [back] at removed
        cases enabled : entry.2.enabled with
        | true => rw [removed, hidden_enabled member enabled inside]
        | false => rw [removed, hides enabled, clear.disabled entry member begins enabled _ inside]
      · rw [buffered.resolve_left begins]
        cases enabled : entry.2.enabled with
        | true => rw [hidden_enabled member enabled inside, clear.elsewhere entry member begins enabled _ inside inRange]
        | false => rw [hides enabled]
    · have nowhere : ∀ entry ∈ traps.entries, range.addr + index ∉ opcodeRange entry :=
        fun entry member inside => covered ⟨entry, member, inside⟩
      rw [hidden_other fun entry member _ => nowhere entry member, ← same index below]
      have untouched := traps.removeTraps_other buf inRange fun entry member _ => nowhere entry member
      rwa [back] at untouched

/-- The traps are hidden, and nothing is written outside, just where every breakpoint that begins in the range is clear
of its end and no other one matters.
-/
theorem hidesTraps_iff (traps : DisjointTraps) (range : ReadRange) : traps.HidesTraps range ↔ traps.Clear range :=
  ⟨HidesTraps.clear, Clear.hidesTraps⟩

def longTrap : DisjointTraps where
  list := ⟨⟨[(16, ⟨[1, 2, 3, 4], [0, 0, 32, 212], 1, true⟩)], pairwise_singleton _ _⟩,
    write (fun _ => 0) 16 [0, 0, 32, 212]⟩
  saved := by simp
  apart := pairwise_singleton _ _

theorem not_hidesTraps : ¬ longTrap.HidesTraps ⟨16, 2, by decide⟩ :=
  fun hides => absurd (hides.inside (0, [1, 2, 3, 4]) (by decide)) (by decide)

end DisjointTraps

end Lldb.NativeBreakpointList
