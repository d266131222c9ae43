import Lldb.Target.BreakpointSteps

/-! The loop of `WriteMemory` over the breakpoint sites that it finds: the bytes between sites go to
memory, those under a trap to the saved opcode of its site.
-/

set_option autoImplicit false

namespace Lldb

open Library (Window)
open BreakpointSiteList BreakpointSite

namespace ProcessMemory

/-- A write that finds every site it reaches, all of them enabled, with none at its end where one begins in it. -/
structure WriteFound (sites : BreakpointSiteList) (address size : Nat) : Prop where
  bounded : address + size < 2 ^ 64
  found : ∀ entry ∈ sites.entries, ∀ place ∈ (⟨address, size⟩ : Window), place ∈ entry.2.range →
    sites.Reaches address size entry.2 ∧ entry.2.enabled
  ends : sites.BeginsIn address size → ∀ entry ∈ sites.entries, entry.1 ≠ address + size

/-- Between two sites of the loop of `WriteMemory`: the bytes up to a position are in the program's memory,
and the sites that reach beyond it are those still to come. -/
structure Midway (trapOpcode : Nat → List UInt8) (start : ProcessMemory) (address : Nat) (bytes : List UInt8)
    (remaining : List BreakpointSite) (progress : WriteProgress) : Prop where
  consistent : progress.memory.Consistent trapOpcode
  logical : progress.memory.logical = start.logical.store address (bytes.take progress.bytesWritten)
  going : progress.failed = false
  within : progress.bytesWritten ≤ bytes.length
  listed : ∀ bp ∈ remaining, (bp.loadAddress, bp) ∈ progress.memory.sites.entries ∧ bp.enabled
  reaches : ∀ bp ∈ remaining, bp.loadAddress + bp.byteSize < 2 ^ 64 ∧
    max address bp.loadAddress < min (bp.loadAddress + bp.byteSize) (address + bytes.length) ∧
    address + progress.bytesWritten ≤ max address bp.loadAddress
  covered : ∀ entry ∈ progress.memory.sites.entries, ∀ place ∈ entry.2.range,
    address + progress.bytesWritten ≤ place → place < address + bytes.length → entry.2 ∈ remaining

theorem store_take_add (memory : Inferior) (address : Nat) (bytes : List UInt8) {front : Nat}
    (within : front ≤ bytes.length) (size : Nat) :
    (memory.store address (bytes.take front)).store (address + front) ((bytes.drop front).take size) =
      memory.store address (bytes.take (front + size)) := by
  have both := memory.store_append address (bytes.take front) ((bytes.drop front).take size)
  rwa [List.length_take, min_eq_left within, ← List.take_add] at both

theorem writeMemoryPrivate_upTo {transfers : Transfers} (whole : transfers.Whole) (inferior : Inferior)
    {current place : Nat} {gap : List UInt8} (length : gap.length = place - current) :
    (if place > current then writeMemoryPrivate transfers (place - current) inferior current gap
      else (0, inferior)) = (place - current, inferior.store current gap) := by
  split_ifs with positive
  · rw [writeMemoryPrivate_eq (fun _ _ positive => (whole.writes _ _).symm ▸ positive) _ _ length.le, length]
  · obtain rfl := List.eq_nil_of_length_eq_zero (show gap.length = 0 by omega)
    simp [Inferior.store_nil, ← length]

section
variable {trapOpcode : Nat → List UInt8} {start : ProcessMemory} {address : Nat} {bytes : List UInt8}

section

variable {bp : BreakpointSite} {rest : List BreakpointSite} {progress : WriteProgress}
  (midway : Midway trapOpcode start address bytes (bp :: rest) progress)
  (ascending : ∀ other ∈ rest, bp.loadAddress < other.loadAddress)

include midway ascending

theorem Midway.behind (other : BreakpointSite) (later : other ∈ rest) :
    bp.loadAddress + bp.byteSize ≤ other.loadAddress := by
  obtain ⟨⟨member, -⟩, listedRest⟩ := List.forall_mem_cons.mp midway.listed
  have less := ascending other later
  have otherListed := (listedRest other later).1
  have consistent := midway.consistent
  have apart := consistent.placed.apart _ member _ otherListed (consistent.software _ member)
    (consistent.software _ otherListed) fun same => absurd (congrArg Prod.fst same) (Nat.ne_of_lt less)
  have sides := (Window.apart_iff (consistent.nonempty _ member) (consistent.nonempty _ otherListed)).mp apart
  simp only [range] at sides
  omega

theorem Midway.gap_apart : ∀ entry ∈ progress.memory.sites.entries, entry.2.range.Apart
    ⟨address + progress.bytesWritten, max address bp.loadAddress - (address + progress.bytesWritten)⟩ := by
  intro entry among place covers inGap
  obtain ⟨⟨-, common, ahead⟩, -⟩ := List.forall_mem_cons.mp midway.reaches
  rw [Window.mem_mk] at inGap
  have bounds := covers
  rw [range, Window.mem_mk] at bounds
  rcases List.mem_cons.mp (midway.covered entry among place covers (by omega) (by omega)) with same | later
  · rw [same] at bounds
    omega
  · have := midway.behind ascending entry.2 later
    omega

end

/-- One site of the loop: the bytes before it go to memory, those under it to its saved opcode. -/
theorem Midway.step {transfers : Transfers} (whole : transfers.Whole) (bounded : address + bytes.length < 2 ^ 64)
    {bp : BreakpointSite} {rest : List BreakpointSite} {progress : WriteProgress}
    (midway : Midway trapOpcode start address bytes (bp :: rest) progress)
    (ascending : ∀ other ∈ rest, bp.loadAddress < other.loadAddress) :
    ∃ next, writeAround transfers address bytes progress bp = some next ∧
      Midway trapOpcode start address bytes rest next := by
  have behind := midway.behind ascending
  have gapApart := midway.gap_apart ascending
  obtain ⟨consistent, logical, going, within, listed, reaches, covered⟩ := midway
  obtain ⟨⟨member, enabled⟩, listedRest⟩ := List.forall_mem_cons.mp listed
  obtain ⟨⟨fits, common, ahead⟩, reachesRest⟩ := List.forall_mem_cons.mp reaches
  have soft : bp.isHardware = false := by
    have software := consistent.software _ member
    rw [isSoftware, Bool.and_eq_true, Bool.not_eq_true'] at software
    exact software.2
  have first : max address bp.loadAddress ∈ bp.range := Window.mem_mk.mpr (by omega)
  have inRange : max address bp.loadAddress ∈ (⟨address, bytes.length⟩ : Window) := Window.mem_mk.mpr (by omega)
  have intersects := intersectsRange_eq soft fits bounded first inRange
  generalize place₀ : max address bp.loadAddress = firstPlace at intersects first inRange common ahead gapApart
  generalize last : min (bp.loadAddress + bp.byteSize) (address + bytes.length) = lastPlace at intersects common
  have position : progress.bytesWritten + (firstPlace - (address + progress.bytesWritten)) = firstPlace - address := by
    omega
  have total : firstPlace - address + (lastPlace - firstPlace) = lastPlace - address := by omega
  -- The gap in front of the site.
  have gapLength : ((bytes.drop progress.bytesWritten).take
      (firstPlace - (address + progress.bytesWritten))).length = firstPlace - (address + progress.bytesWritten) := by
    rw [List.length_take, List.length_drop]
    omega
  rw [← gapLength] at gapApart
  obtain ⟨gapConsistent, gapLogical⟩ := consistent.store gapApart
  -- The bytes under the site.
  have partLength : ((bytes.drop (firstPlace - address)).take (lastPlace - firstPlace)).length =
      lastPlace - firstPlace := by
    rw [List.length_take, List.length_drop]
    omega
  obtain ⟨savedConsistent, savedLogical⟩ := gapConsistent.saveOpcode member enabled
    (show firstPlace - bp.loadAddress +
      ((bytes.drop (firstPlace - address)).take (lastPlace - firstPlace)).length ≤ bp.byteSize by
        omega)
  refine ⟨⟨_, lastPlace - address, false⟩, ?_, savedConsistent, ?_, rfl, ?_, ?_, ?_, ?_⟩
  · simp [writeAround, going, intersects, writeMemoryPrivate_upTo whole _ gapLength, position, total]
  · refine savedLogical.trans ?_
    rw [gapLogical, logical, store_take_add _ _ _ within, position,
      show bp.loadAddress + (firstPlace - bp.loadAddress) = address + (firstPlace - address) by omega,
      store_take_add _ _ _ (by omega), total]
  · dsimp only
    omega
  · intro other later
    have less := ascending other later
    exact ⟨mem_withSite.mpr (.inr ⟨(listedRest other later).1, Nat.ne_of_gt less⟩), (listedRest other later).2⟩
  · intro other later
    obtain ⟨otherFits, otherCommon, -⟩ := reachesRest other later
    have after := behind other later
    dsimp only
    omega
  · intro entry among place covers beyond before
    dsimp only at beyond
    rcases mem_withSite.mp among with rfl | ⟨old, beside⟩
    · have bounds := covers
      rw [range, Window.mem_mk] at bounds
      dsimp only at bounds
      omega
    · rcases List.mem_cons.mp (covered entry old place covers (by omega) before) with same | later
      · exact absurd ((consistent.placed.keyed entry old).trans (same ▸ rfl)) beside
      · exact later

theorem Midway.loop {transfers : Transfers} (whole : transfers.Whole) (bounded : address + bytes.length < 2 ^ 64)
    {remaining : List BreakpointSite} {progress : WriteProgress}
    (midway : Midway trapOpcode start address bytes remaining progress)
    (ascending : remaining.Pairwise fun first second => first.loadAddress < second.loadAddress) :
    ∃ last, remaining.foldlM (writeAround transfers address bytes) progress = some last ∧
      Midway trapOpcode start address bytes [] last := by
  induction remaining generalizing progress with
  | nil => exact ⟨progress, rfl, midway⟩
  | cons bp rest ih =>
    obtain ⟨below, sorted⟩ := List.pairwise_cons.mp ascending
    obtain ⟨next, done, after⟩ := midway.step whole bounded below
    obtain ⟨last, rest, reached⟩ := ih after sorted
    refine ⟨last, ?_, reached⟩
    rw [List.foldlM_cons, done]
    exact rest

theorem Consistent.midway {memory : ProcessMemory} (consistent : memory.Consistent trapOpcode)
    (nonempty : bytes ≠ []) (clear : WriteFound memory.sites address bytes.length) {found : List BreakpointSite}
    (finds : memory.sites.findInRange address (address + bytes.length) = some found) :
    Midway trapOpcode memory address bytes found ⟨memory, 0, false⟩ ∧
      found.Pairwise fun first second => first.loadAddress < second.loadAddress := by
  have positive := List.length_pos_iff.mpr nonempty
  have keyed := consistent.placed.keyed
  obtain ⟨sub, among⟩ := mem_findInRange keyed positive finds
  have begins : memory.sites.BeginsIn address bytes.length := by
    by_contra straight
    rw [(findInRange_none positive).mpr straight] at finds
    cases finds
  -- A site that is found has its first byte, or the first byte of the range, in common with it.
  have meets (bp : BreakpointSite) (listed : bp ∈ found) : (bp.loadAddress, bp) ∈ memory.sites.entries ∧
      max address bp.loadAddress ∈ bp.range ∧
      max address bp.loadAddress ∈ (⟨address, bytes.length⟩ : Window) := by
    obtain ⟨entry, member, rfl⟩ := List.mem_map.mp (sub.subset listed)
    have key := keyed entry member
    have size := consistent.nonempty entry member
    refine ⟨key ▸ member, ?_⟩
    rw [range, Window.mem_mk, Window.mem_mk]
    rcases (among entry member).mp listed with inside | ⟨precedes, reaches⟩
    · have notEnd := clear.ends begins entry member
      omega
    · have less := precedes.1
      omega
  refine ⟨⟨consistent, ?_, rfl, Nat.zero_le _, ?_, ?_, ?_⟩, ?_⟩
  · simp [Inferior.store_nil]
  · intro bp listed
    obtain ⟨member, inSite, inRange⟩ := meets bp listed
    exact ⟨member, (clear.found _ member _ inRange inSite).2⟩
  · intro bp listed
    obtain ⟨member, inSite, inRange⟩ := meets bp listed
    have fits := (clear.found _ member _ inRange inSite).1.fits
    rw [range, Window.mem_mk] at inSite
    rw [Window.mem_mk] at inRange
    exact ⟨fits, by omega, Nat.le_max_left _ _⟩
  · intro entry member place covers beyond before
    have inRange : place ∈ (⟨address, bytes.length⟩ : Window) := Window.mem_mk.mpr ⟨by simpa using beyond, before⟩
    obtain ⟨-, others, same, listed⟩ := (reaches_iff keyed member covers inRange).mp
      (clear.found entry member place inRange covers).1
    cases finds.symm.trans same
    exact listed
  · refine List.Pairwise.sublist sub (List.pairwise_map.mpr (memory.sites.sorted.imp_of_mem ?_))
    intro first second inFirst inSecond less
    rwa [← keyed first inFirst, ← keyed second inSecond]

theorem Consistent.writeMemory {memory : ProcessMemory} (consistent : memory.Consistent trapOpcode)
    {transfers : Transfers} (whole : transfers.Whole) (clear : WriteFound memory.sites address bytes.length) :
    ∃ count next, memory.writeMemory transfers address bytes = some (count, next) ∧ next.Consistent trapOpcode ∧
      next.logical = memory.logical.store address bytes := by
  have succeed : ∀ address size, 0 < size → 0 < transfers.writes address size :=
    fun _ _ positive => (whole.writes _ _).symm ▸ positive
  by_cases nonempty : bytes = []
  · rw [nonempty]
    exact ⟨0, memory, rfl, consistent, (Inferior.store_nil _ _).symm⟩
  · have positive := List.length_pos_iff.mpr nonempty
    cases finds : memory.sites.findInRange address (address + bytes.length) with
    | none =>
      have straight := (findInRange_none positive).mp finds
      refine ⟨_, _, writeMemory_straight succeed nonempty clear.bounded straight, consistent.store ?_⟩
      intro entry member place covers inside
      obtain ⟨-, others, same, -⟩ := (reaches_iff consistent.placed.keyed member covers inside).mp
        (clear.found entry member place inside covers).1
      cases finds.symm.trans same
    | some found =>
      obtain ⟨midway, ascending⟩ := consistent.midway nonempty clear finds
      obtain ⟨last, looped, done⟩ := midway.loop whole clear.bounded ascending
      have nothing : found ≠ [] := by
        rintro rfl
        obtain ⟨entry, member, begins⟩ : memory.sites.BeginsIn address bytes.length := by
          by_contra straight
          rw [(findInRange_none positive).mpr straight] at finds
          cases finds
        rw [Window.mem_mk] at begins
        cases ((mem_findInRange consistent.placed.keyed positive finds).2 entry member).mpr
          (.inl (by omega))
      by_cases tail : last.bytesWritten < bytes.length
      · have beside : ∀ entry ∈ last.memory.sites.entries, entry.2.range.Apart
            ⟨address + last.bytesWritten, (bytes.drop last.bytesWritten).length⟩ := by
          intro entry member place covers inside
          rw [Window.mem_mk, List.length_drop] at inside
          cases done.covered entry member place covers inside.1 (by omega)
        obtain ⟨stored, logical⟩ := done.consistent.store beside
        refine ⟨0, _, ?_, stored, ?_⟩
        · simp only [ProcessMemory.writeMemory, if_neg nonempty, Nat.mod_eq_of_lt clear.bounded, finds, looped,
            if_pos tail]
          rw [writeMemoryPrivate_eq succeed _ _ (by rw [List.length_drop])]
        · have front : (bytes.take last.bytesWritten).length = last.bytesWritten := by
            rw [List.length_take]
            omega
          have both := memory.logical.store_append address (bytes.take last.bytesWritten)
            (bytes.drop last.bytesWritten)
          rw [front, List.take_append_drop] at both
          rw [logical, done.logical, both]
      · refine ⟨0, last.memory, ?_, done.consistent, ?_⟩
        · simp only [ProcessMemory.writeMemory, if_neg nonempty, Nat.mod_eq_of_lt clear.bounded, finds, looped,
            if_neg tail]
        · rw [done.logical, List.take_of_length_le (by omega)]

end

end ProcessMemory

end Lldb
