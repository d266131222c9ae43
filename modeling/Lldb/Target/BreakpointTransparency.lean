import Lldb.Target.ProcessMemory

/-! Breakpoints as memory accesses see them: what a process with software breakpoints reads and
writes, against the memory that its program would have without them.
-/

set_option autoImplicit false

namespace Lldb

open Library (Window)
open BreakpointSite BreakpointSiteList

def BreakpointSite.hides (site : BreakpointSite) (place : Nat) : Bool :=
  site.enabled && site.isSoftware && decide (place ∈ site.range)

/-- Opcodes fit a site and lie in the address space, and no two software sites share a byte. -/
structure BreakpointSiteList.Placed (sites : BreakpointSiteList) : Prop where
  keyed : sites.Keyed
  small : ∀ entry ∈ sites.entries, entry.2.byteSize ≤ 8
  fits : ∀ entry ∈ sites.entries, entry.2.loadAddress + entry.2.byteSize ≤ 2 ^ 64
  apart : ∀ entry ∈ sites.entries, ∀ other ∈ sites.entries, entry.2.isSoftware → other.2.isSoftware →
    entry ≠ other → entry.2.range.Apart other.2.range

namespace ProcessMemory

/-- The memory of the program: what is in memory, with the saved bytes in the place of each trap. -/
def logical (memory : ProcessMemory) : Inferior := fun place =>
  match memory.sites.entries.find? fun entry => entry.2.hides place with
  | some entry => entry.2.savedOpcode.bytes[place - entry.2.loadAddress]?
  | none => memory.inferior place

theorem hides_iff {site : BreakpointSite} {place : Nat} :
    site.hides place ↔ site.enabled ∧ site.isSoftware ∧ place ∈ site.range := by
  simp [hides, and_assoc]

theorem logical_of_hides {memory : ProcessMemory} (placed : memory.sites.Placed) {entry : Nat × BreakpointSite}
    (member : entry ∈ memory.sites.entries) {place : Nat} (hides : entry.2.hides place) :
    memory.logical place = entry.2.savedOpcode.bytes[place - entry.2.loadAddress]? := by
  unfold logical
  cases found : memory.sites.entries.find? fun entry => entry.2.hides place with
  | none => exact absurd hides (List.find?_eq_none.mp found entry member)
  | some other =>
    have same : entry = other := by
      by_contra different
      obtain ⟨-, software, inside⟩ := hides_iff.mp hides
      have held := List.find?_some found
      obtain ⟨-, otherSoftware, otherInside⟩ := hides_iff.mp held
      exact placed.apart entry member other (List.mem_of_find?_eq_some found) software otherSoftware different
        place inside otherInside
    rw [same]

theorem logical_of_clear {memory : ProcessMemory} {place : Nat}
    (clear : ∀ entry ∈ memory.sites.entries, ¬ entry.2.hides place) : memory.logical place = memory.inferior place := by
  unfold logical
  rw [List.find?_eq_none.mpr clear]

/-- What the removal of breakpoint opcodes looks at: a software site below the end of the address space. -/
def Restores (site : BreakpointSite) (place : Nat) : Prop :=
  site.isSoftware ∧ place ∈ site.range ∧ site.loadAddress + site.byteSize < 2 ^ 64

instance (site : BreakpointSite) (place : Nat) : Decidable (Restores site place) :=
  inferInstanceAs (Decidable (_ ∧ _))

theorem getElem?_removeBreakpointOpcode {site : BreakpointSite} (small : site.byteSize ≤ 8)
    (fits : site.loadAddress + site.byteSize ≤ 2 ^ 64) {address size : Nat} {buffer : List UInt8}
    (length : buffer.length = size) (bounded : address + size < 2 ^ 64) {index : Nat} (inside : index < size) :
    (removeBreakpointOpcode address size buffer site)[index]? =
      if Restores site (address + index) then site.savedOpcode.bytes[address + index - site.loadAddress]?
      else buffer[index]? := by
  unfold removeBreakpointOpcode
  by_cases kind : site.siteType = .software
  · rw [if_pos kind]
    by_cases hardware : site.isHardware
    · have skipped : site.intersectsRange address size = none := by
        rw [intersectsRange, if_pos (.inl hardware)]
      rw [skipped, if_neg]
      rintro ⟨software, -, -⟩
      simp [isSoftware, hardware] at software
    · have software : site.isSoftware := by simp [isSoftware, kind, hardware]
      by_cases below : site.loadAddress + site.byteSize < 2 ^ 64
      · by_cases apart : site.range.Apart ⟨address, size⟩
        · rw [intersectsRange_none bounded apart (by omega), if_neg]
          rintro ⟨-, covered, -⟩
          exact apart _ covered (Window.mem_mk.mpr (by omega))
        · obtain ⟨place, inSite, inRange⟩ : ∃ place ∈ site.range, place ∈ (⟨address, size⟩ : Window) := by
            by_contra none
            exact apart fun place inSite inRange => none ⟨place, inSite, inRange⟩
          rw [intersectsRange_eq (by simpa using hardware) below bounded inSite inRange]
          rw [range, Window.mem_mk] at inSite
          rw [Window.mem_mk] at inRange
          dsimp only
          generalize start : max address site.loadAddress = first
          generalize common : min (site.loadAddress + site.byteSize) (address + size) - first = count
          have saved : (site.savedPart ⟨first, count, first - site.loadAddress⟩).length = count := by
            refine Window.length_read ?_
            rw [site.savedOpcode.length]
            simp only
            omega
          by_cases covered : address + index ∈ site.range
          · rw [if_pos ⟨software, covered, below⟩]
            rw [range, Window.mem_mk] at covered
            rw [Window.getElem?_overwrite_inside (Window.mem_mk.mpr (by omega)) (by omega),
              savedPart, Window.getElem?_read, if_pos (by simp only; omega)]
            congr 1
            simp only
            omega
          · rw [if_neg fun all => covered all.2.1]
            rw [range, Window.mem_mk] at covered
            exact Window.getElem?_overwrite_outside (by rw [Window.mem_mk]; omega)
      · rw [intersectsRange_top (by omega), if_neg fun all => below all.2.2]
  · rw [if_neg kind, if_neg]
    rintro ⟨software, -, -⟩
    simp [isSoftware, kind] at software

theorem length_removeBreakpointOpcode (address size : Nat) (buffer : List UInt8) (site : BreakpointSite) :
    (removeBreakpointOpcode address size buffer site).length = buffer.length := by
  unfold removeBreakpointOpcode
  split
  · split
    · exact Window.length_overwrite ..
    · rfl
  · rfl

section
variable {sites : BreakpointSiteList} {address size : Nat}

variable {index : Nat} {buffer : List UInt8}

theorem foldl_untouched (bounded : address + size < 2 ^ 64) (inside : index < size) {found : List BreakpointSite}
    (fit : ∀ site ∈ found, site.byteSize ≤ 8 ∧ site.loadAddress + site.byteSize ≤ 2 ^ 64)
    (untouched : ∀ site ∈ found, ¬ Restores site (address + index))
    (length : buffer.length = size) :
    (found.foldl (removeBreakpointOpcode address size) buffer)[index]? = buffer[index]? := by
  induction found generalizing buffer with
  | nil => rfl
  | cons site rest ih =>
    rw [List.forall_mem_cons] at fit untouched
    simp [ih fit.2 untouched.2 ((length_removeBreakpointOpcode ..).trans length), getElem?_removeBreakpointOpcode fit.1.1 fit.1.2 length bounded inside, if_neg untouched.1]

theorem foldl_restored (bounded : address + size < 2 ^ 64) (inside : index < size) {found : List BreakpointSite}
    (fit : ∀ site ∈ found, site.byteSize ≤ 8 ∧ site.loadAddress + site.byteSize ≤ 2 ^ 64)
    {site : BreakpointSite} (member : site ∈ found) (restores : Restores site (address + index))
    (only : ∀ other ∈ found, Restores other (address + index) → other = site)
    (length : buffer.length = size) :
    (found.foldl (removeBreakpointOpcode address size) buffer)[index]? =
      site.savedOpcode.bytes[address + index - site.loadAddress]? := by
  induction found generalizing buffer with
  | nil => cases member
  | cons first rest ih =>
    rw [List.forall_mem_cons] at fit only
    rw [List.foldl_cons]
    have kept := (length_removeBreakpointOpcode address size buffer first).trans length
    by_cases later : site ∈ rest
    · exact ih fit.2 later only.2 kept
    · rcases List.mem_cons.mp member with rfl | inRest
      · rw [foldl_untouched bounded inside fit.2 (fun other listed also => later (only.2 other listed also ▸ listed))
          kept, getElem?_removeBreakpointOpcode fit.1.1 fit.1.2 length bounded inside, if_pos restores]
      · exact absurd inRest later

theorem removed_restored (placed : sites.Placed) (bounded : address + size < 2 ^ 64)
    (inside : index < size) {entry : Nat × BreakpointSite} (member : entry ∈ sites.entries)
    (software : entry.2.isSoftware) (covers : address + index ∈ entry.2.range)
    (reaches : sites.Reaches address size entry.2) (length : buffer.length = size) :
    (removeBreakpointOpcodesFromBuffer sites address size buffer)[index]? =
      entry.2.savedOpcode.bytes[address + index - entry.2.loadAddress]? := by
  have inRange : address + index ∈ (⟨address, size⟩ : Window) := Window.mem_mk.mpr (by omega)
  obtain ⟨below, found, finds, listed⟩ :=
    (reaches_iff placed.keyed member covers inRange).mp reaches
  have sub := (mem_findInRange placed.keyed (by omega) finds).1
  rw [removeBreakpointOpcodesFromBuffer, Nat.mod_eq_of_lt bounded, finds]
  have known (site : BreakpointSite) (among : site ∈ found) : ∃ other ∈ sites.entries, other.2 = site :=
    List.mem_map.mp (sub.subset among)
  refine foldl_restored bounded inside (fun site among => ?_) listed ⟨software, covers, below⟩
    (fun site among restores => ?_) length
  · obtain ⟨other, is, rfl⟩ := known site among
    exact ⟨placed.small other is, placed.fits other is⟩
  · obtain ⟨other, is, rfl⟩ := known site among
    by_contra different
    exact placed.apart other is entry member restores.1 software (fun same => different (same ▸ rfl)) _
      restores.2.1 covers

theorem removed_untouched (placed : sites.Placed) (bounded : address + size < 2 ^ 64) (inside : index < size)
    (missed : ∀ entry ∈ sites.entries, entry.2.isSoftware → address + index ∈ entry.2.range →
      ¬ sites.Reaches address size entry.2) (length : buffer.length = size) :
    (removeBreakpointOpcodesFromBuffer sites address size buffer)[index]? = buffer[index]? := by
  have inRange : address + index ∈ (⟨address, size⟩ : Window) := Window.mem_mk.mpr (by omega)
  rw [removeBreakpointOpcodesFromBuffer, Nat.mod_eq_of_lt bounded]
  cases finds : sites.findInRange address (address + size) with
  | none => rfl
  | some found =>
    have sub := (mem_findInRange placed.keyed (by omega) finds).1
    refine foldl_untouched bounded inside (fun site among => ?_) (fun site among restores => ?_) length
    · obtain ⟨other, is, rfl⟩ := List.mem_map.mp (sub.subset among)
      exact ⟨placed.small other is, placed.fits other is⟩
    · obtain ⟨other, is, rfl⟩ := List.mem_map.mp (sub.subset among)
      exact missed other is restores.1 restores.2.1
        ((reaches_iff placed.keyed is restores.2.1 inRange).mpr ⟨restores.2.2, found, finds, among⟩)

end

def readable (inferior : Inferior) (address size : Nat) : Nat :=
  (inferior.readMemoryFromInferior address size).length

theorem readable_le (inferior : Inferior) (address size : Nat) : readable inferior address size ≤ size :=
  inferior.length_readMemoryFromInferior_le address size

theorem readable_congr {inferior other : Inferior} {address size : Nat}
    (same : ∀ index < size, (inferior ((address + index) % 2 ^ 64)).isSome =
      (other ((address + index) % 2 ^ 64)).isSome) : readable inferior address size = readable other address size := by
  unfold readable
  induction size generalizing address with
  | zero => rfl
  | succ size ih =>
    have here := same 0 (Nat.succ_pos size)
    have rest : (inferior.readMemoryFromInferior (address + 1) size).length =
        (other.readMemoryFromInferior (address + 1) size).length := ih fun index below => by
      rw [add_assoc, add_comm 1 index]
      exact same (index + 1) (Nat.succ_lt_succ below)
    rw [add_zero] at here
    cases left : inferior (address % 2 ^ 64) with
    | none =>
      rw [left, Option.isSome_none, eq_comm, Option.isSome_eq_false_iff, Option.isNone_iff_eq_none] at here
      simp only [Inferior.readMemoryFromInferior, left, here]
    | some byte =>
      rw [left, Option.isSome_some, eq_comm, Option.isSome_iff_exists] at here
      obtain ⟨otherByte, right⟩ := here
      simp only [Inferior.readMemoryFromInferior, left, right, List.length_cons, rest]

theorem getElem?_readable {inferior : Inferior} {address size index : Nat}
    (inside : index < readable inferior address size) :
    (inferior.readMemoryFromInferior address size)[index]? = inferior ((address + index) % 2 ^ 64) := by
  have read := List.getElem?_eq_getElem (l := inferior.readMemoryFromInferior address size) inside
  rw [read, ((inferior.getElem?_readMemoryFromInferior address size index _).mp read).2.1]

def Trapped (memory : ProcessMemory) : Prop :=
  ∀ entry ∈ memory.sites.entries, entry.2.isSoftware → entry.2.enabled → ∀ index < entry.2.byteSize,
    memory.inferior (entry.2.loadAddress + index) = entry.2.trapOpcode.bytes[index]?

section
variable {memory : ProcessMemory}

theorem Trapped.at_place (trapped : memory.Trapped) {entry : Nat × BreakpointSite}
    (member : entry ∈ memory.sites.entries) {place : Nat} (hides : entry.2.hides place) :
    memory.inferior place = entry.2.trapOpcode.bytes[place - entry.2.loadAddress]? := by
  obtain ⟨enabled, software, inside⟩ := hides_iff.mp hides
  rw [range, Window.mem_mk] at inside
  have stored := trapped entry member software enabled (place - entry.2.loadAddress) (by omega)
  rwa [Nat.add_sub_cancel' inside.1] at stored

theorem isSome_logical (placed : memory.sites.Placed) (trapped : memory.Trapped) (place : Nat) :
    (memory.logical place).isSome = (memory.inferior place).isSome := by
  by_cases clear : ∀ entry ∈ memory.sites.entries, ¬ entry.2.hides place
  · rw [logical_of_clear clear]
  · push Not at clear
    obtain ⟨entry, member, hides⟩ := clear
    have inside := (hides_iff.mp hides).2.2
    rw [range, Window.mem_mk] at inside
    have small := placed.small entry member
    have saved := entry.2.savedOpcode.length
    have trap := entry.2.trapOpcode.length
    rw [logical_of_hides placed member hides, trapped.at_place member hides,
      List.getElem?_eq_getElem (by omega), List.getElem?_eq_getElem (by omega)]
    rfl

theorem readable_logical (placed : memory.sites.Placed) (trapped : memory.Trapped) (address size : Nat) :
    readable memory.logical address size = readable memory.inferior address size :=
  readable_congr fun _ _ => isSome_logical placed trapped _

theorem length_readMemoryFromInferior (memory : ProcessMemory) (transfers : Transfers) (address size : Nat) :
    (memory.readMemoryFromInferior transfers address size).length = readable memory.inferior address size := by
  have kept (found : List BreakpointSite) (size : Nat) (buffer : List UInt8) :
      (found.foldl (removeBreakpointOpcode address size) buffer).length = buffer.length := by
    induction found generalizing buffer with
    | nil => rfl
    | cons site rest ih => exact (ih _).trans (length_removeBreakpointOpcode ..)
  unfold readMemoryFromInferior removeBreakpointOpcodesFromBuffer
  rw [readChunks_eq transfers memory.inferior address (le_refl size)]
  dsimp only
  split
  · split
    · rfl
    · exact kept _ _ _
  · rfl

theorem readMemoryFromInferior_eq (memory : ProcessMemory) (transfers : Transfers) {address size : Nat}
    (some : 0 < readable memory.inferior address size) :
    memory.readMemoryFromInferior transfers address size =
      removeBreakpointOpcodesFromBuffer memory.sites address (readable memory.inferior address size)
        (memory.inferior.readMemoryFromInferior address size) := by
  unfold readMemoryFromInferior
  rw [readChunks_eq transfers memory.inferior address (le_refl size)]
  exact if_pos some

variable {transfers : Transfers} {address size : Nat}

variable {index : Nat}

theorem read_restored (placed : memory.sites.Placed) (bounded : address + size < 2 ^ 64)
    (inside : index < readable memory.inferior address size) {entry : Nat × BreakpointSite}
    (member : entry ∈ memory.sites.entries) (software : entry.2.isSoftware)
    (covers : address + index ∈ entry.2.range)
    (reaches : memory.sites.Reaches address (readable memory.inferior address size) entry.2) :
    (memory.readMemoryFromInferior transfers address size)[index]? =
      entry.2.savedOpcode.bytes[address + index - entry.2.loadAddress]? := by
  have most := readable_le memory.inferior address size
  rw [readMemoryFromInferior_eq memory transfers (by omega)]
  exact removed_restored placed (by omega) inside member software covers reaches rfl

theorem read_untouched (placed : memory.sites.Placed) (bounded : address + size < 2 ^ 64)
    (inside : index < readable memory.inferior address size)
    (missed : ∀ entry ∈ memory.sites.entries, entry.2.isSoftware → address + index ∈ entry.2.range →
      ¬ memory.sites.Reaches address (readable memory.inferior address size) entry.2) :
    (memory.readMemoryFromInferior transfers address size)[index]? = memory.inferior (address + index) := by
  have most := readable_le memory.inferior address size
  rw [readMemoryFromInferior_eq memory transfers (by omega), removed_untouched placed (by omega) inside missed rfl,
    getElem?_readable inside, Nat.mod_eq_of_lt (by omega)]

theorem getElem?_logical_read (placed : memory.sites.Placed) (trapped : memory.Trapped)
    (bounded : address + size < 2 ^ 64) (inside : index < readable memory.inferior address size) :
    (memory.logical.readMemoryFromInferior address size)[index]? = memory.logical (address + index) := by
  have most := readable_le memory.inferior address size
  have same := readable_logical placed trapped address size
  rw [getElem?_readable (by rw [same]; exact inside), Nat.mod_eq_of_lt (by omega)]

/-- Every software site with a byte in the range is found for it, or hides nothing there. -/
def ReadsClear (memory : ProcessMemory) (address size : Nat) : Prop :=
  ∀ entry ∈ memory.sites.entries, entry.2.isSoftware → ∀ place ∈ (⟨address, size⟩ : Window), place ∈ entry.2.range →
    memory.sites.Reaches address size entry.2 ∨
      entry.2.savedOpcode.bytes[place - entry.2.loadAddress]? = memory.inferior place

def AllEnabled (memory : ProcessMemory) : Prop :=
  ∀ entry ∈ memory.sites.entries, entry.2.isSoftware → entry.2.enabled

theorem read_covered (transfers : Transfers) (placed : memory.sites.Placed) (bounded : address + size < 2 ^ 64)
    (inside : index < readable memory.inferior address size) {entry : Nat × BreakpointSite}
    (member : entry ∈ memory.sites.entries) (software : entry.2.isSoftware)
    (covers : address + index ∈ entry.2.range) :
    (memory.readMemoryFromInferior transfers address size)[index]? =
        entry.2.savedOpcode.bytes[address + index - entry.2.loadAddress]? ∧
        memory.sites.Reaches address (readable memory.inferior address size) entry.2 ∨
      (memory.readMemoryFromInferior transfers address size)[index]? = memory.inferior (address + index) ∧
        ¬ memory.sites.Reaches address (readable memory.inferior address size) entry.2 := by
  by_cases reaches : memory.sites.Reaches address (readable memory.inferior address size) entry.2
  · exact .inl ⟨read_restored placed bounded inside member software covers reaches, reaches⟩
  · refine .inr ⟨read_untouched placed bounded inside fun other is otherSoftware otherCovers => ?_, reaches⟩
    have same : entry = other := by
      by_contra different
      exact placed.apart entry member other is software otherSoftware different _ covers otherCovers
    exact same ▸ reaches

theorem reads_logical_iff (transfers : Transfers) (placed : memory.sites.Placed) (enabled : memory.AllEnabled)
    (trapped : memory.Trapped) (bounded : address + size < 2 ^ 64) :
    memory.readMemoryFromInferior transfers address size = memory.logical.readMemoryFromInferior address size ↔
      memory.ReadsClear address (readable memory.inferior address size) := by
  have length := readable_logical placed trapped address size
  constructor
  · intro same entry member software place inRange covers
    rw [Window.mem_mk] at inRange
    have inside : place - address < readable memory.inferior address size := by omega
    rw [← Nat.add_sub_cancel' inRange.1] at covers ⊢
    have hides := hides_iff.mpr ⟨enabled entry member software, software, covers⟩
    have shown := getElem?_logical_read placed trapped bounded inside
    rw [← same, logical_of_hides placed member hides] at shown
    rcases read_covered transfers placed bounded inside member software covers with
      ⟨-, reaches⟩ | ⟨raw, -⟩
    · exact .inl reaches
    · exact .inr (shown.symm.trans raw)
  · intro clear
    apply List.ext_getElem?
    intro index
    by_cases inside : index < readable memory.inferior address size
    · rw [getElem?_logical_read placed trapped bounded inside]
      by_cases hidden : ∃ entry ∈ memory.sites.entries, entry.2.hides (address + index)
      · obtain ⟨entry, member, hides⟩ := hidden
        obtain ⟨-, software, covers⟩ := hides_iff.mp hides
        rw [logical_of_hides placed member hides]
        rcases read_covered transfers placed bounded inside member software covers with
          ⟨shown, -⟩ | ⟨raw, missed⟩
        · exact shown
        · have kept := clear entry member software _ (Window.mem_mk.mpr (by omega)) covers
          exact raw.trans (kept.resolve_left missed).symm
      · have uncovered : ∀ entry ∈ memory.sites.entries, ¬ entry.2.hides (address + index) :=
          fun entry member hides => hidden ⟨entry, member, hides⟩
        rw [logical_of_clear uncovered]
        exact read_untouched placed bounded inside fun entry member software covers =>
          absurd (hides_iff.mpr ⟨enabled entry member software, software, covers⟩) (uncovered entry member)
    · rw [List.getElem?_eq_none (by rw [length_readMemoryFromInferior]; omega),
        List.getElem?_eq_none (by rw [← readable]; omega)]

theorem writeMemory_straight (succeed : ∀ address size, 0 < size → 0 < transfers.writes address size)
    {bytes : List UInt8} (nonempty : bytes ≠ []) (bounded : address + bytes.length < 2 ^ 64)
    (straight : ¬ memory.sites.BeginsIn address bytes.length) :
    memory.writeMemory transfers address bytes =
      some (bytes.length, ⟨memory.inferior.store address bytes, memory.sites⟩) := by
  have nothing := (findInRange_none (List.length_pos_iff.mpr nonempty)).mpr straight
  simp only [writeMemory, if_neg nonempty, Nat.mod_eq_of_lt bounded, nothing, Nat.sub_zero, Nat.add_zero,
    List.drop_zero, writeMemoryPrivate_eq succeed memory.inferior address (le_refl bytes.length)]

theorem writeMemory_count (keyed : memory.sites.Keyed) {bytes : List UInt8} (nonempty : bytes ≠ [])
    (bounded : address + bytes.length < 2 ^ 64) (begins : memory.sites.BeginsIn address bytes.length) {count : Nat}
    {next : ProcessMemory} (wrote : memory.writeMemory transfers address bytes = some (count, next)) : count = 0 := by
  have positive := List.length_pos_iff.mpr nonempty
  unfold writeMemory at wrote
  rw [if_neg nonempty, Nat.mod_eq_of_lt bounded] at wrote
  cases finds : memory.sites.findInRange address (address + bytes.length) with
  | none => exact absurd begins ((findInRange_none positive).mp finds)
  | some found =>
    obtain ⟨entry, member, first⟩ := begins
    rw [Window.mem_mk] at first
    have listed := ((mem_findInRange keyed positive finds).2 entry member).mpr (.inl (by omega))
    rw [finds] at wrote
    cases found with
    | nil => cases listed
    | cons site rest =>
      dsimp only at wrote
      split at wrote
      · cases wrote
      · split_ifs at wrote
        · cases wrote
          rfl
        · cases wrote
          rfl

/-- What breakpoints are to hide: a read shows the program's memory, and a write writes all its bytes to the
program's memory, as a later read shows, and leaves the traps where they are. -/
structure Invisible (memory : ProcessMemory) (transfers : Transfers) (address : Nat) (bytes : List UInt8)
    (readAddress readSize : Nat) : Prop where
  reads : memory.readMemoryFromInferior transfers readAddress readSize =
    memory.logical.readMemoryFromInferior readAddress readSize
  writes : ∃ next, memory.writeMemory transfers address bytes = some (bytes.length, next) ∧
    (∀ entry ∈ memory.sites.entries, entry.2.isSoftware → ∀ index < entry.2.byteSize,
      next.inferior (entry.2.loadAddress + index) = entry.2.trapOpcode.bytes[index]?) ∧
    next.readMemoryFromInferior transfers readAddress readSize =
      (memory.logical.store address bytes).readMemoryFromInferior readAddress readSize

/-- No listed site begins where bytes are written; where a software site reaches into the range from below,
the bytes written are those of its trap, and so are the ones it hides if they are read later. -/
structure WriteClear (memory : ProcessMemory) (address : Nat) (bytes : List UInt8) (readAddress readSize : Nat) :
    Prop where
  straight : ¬ memory.sites.BeginsIn address bytes.length
  same : ∀ entry ∈ memory.sites.entries, entry.2.isSoftware →
    ∀ place ∈ (⟨address, bytes.length⟩ : Window), place ∈ entry.2.range →
      bytes[place - address]? = memory.inferior place ∧
      (place ∈ (⟨readAddress, readSize⟩ : Window) →
        entry.2.savedOpcode.bytes[place - entry.2.loadAddress]? = memory.inferior place)

theorem readable_store {inferior : Inferior} {address : Nat} {bytes : List UInt8}
    (mapped : ∀ place ∈ (⟨address, bytes.length⟩ : Window), (inferior place).isSome) (readAddress readSize : Nat) :
    readable (inferior.store address bytes) readAddress readSize = readable inferior readAddress readSize := by
  apply readable_congr
  intro index below
  generalize (readAddress + index) % 2 ^ 64 = place
  by_cases inside : place ∈ (⟨address, bytes.length⟩ : Window)
  · rw [inferior.store_inside inside, mapped place inside]
    rw [Window.mem_mk] at inside
    rw [List.getElem?_eq_getElem (by omega), Option.isSome_some]
  · rw [inferior.store_outside inside]

theorem traps_store (enabled : memory.AllEnabled) (trapped : memory.Trapped) {bytes : List UInt8}
    (same : ∀ entry ∈ memory.sites.entries, entry.2.isSoftware →
      ∀ place ∈ (⟨address, bytes.length⟩ : Window), place ∈ entry.2.range →
        bytes[place - address]? = memory.inferior place) :
    ∀ entry ∈ memory.sites.entries, entry.2.isSoftware → ∀ index < entry.2.byteSize,
      memory.inferior.store address bytes (entry.2.loadAddress + index) = entry.2.trapOpcode.bytes[index]? := by
  intro entry member software index below
  have covers : entry.2.loadAddress + index ∈ entry.2.range := Window.mem_mk.mpr (by omega)
  rw [← trapped entry member software (enabled entry member software) index below]
  by_cases inside : entry.2.loadAddress + index ∈ (⟨address, bytes.length⟩ : Window)
  · exact (memory.inferior.store_inside inside).trans (same entry member software _ inside covers)
  · exact memory.inferior.store_outside inside

theorem readable_logical_store (placed : memory.sites.Placed) (trapped : memory.Trapped) {bytes : List UInt8}
    (mapped : ∀ place ∈ (⟨address, bytes.length⟩ : Window), (memory.inferior place).isSome)
    (readAddress readSize : Nat) :
    readable (memory.logical.store address bytes) readAddress readSize =
      readable memory.inferior readAddress readSize := by
  have logicalMapped : ∀ place ∈ (⟨address, bytes.length⟩ : Window), (memory.logical place).isSome :=
    fun place inside => (isSome_logical placed trapped place).trans (mapped place inside)
  exact (readable_store logicalMapped readAddress readSize).trans (readable_logical placed trapped _ _)

section

variable (placed : memory.sites.Placed) (enabled : memory.AllEnabled) (trapped : memory.Trapped) {bytes : List UInt8}
  (mapped : ∀ place ∈ (⟨address, bytes.length⟩ : Window), (memory.inferior place).isSome)
  {readAddress readSize : Nat} (readBounded : readAddress + readSize < 2 ^ 64)

include placed trapped mapped readBounded

theorem getElem?_read_store {index : Nat} (inside : index < readable memory.inferior readAddress readSize) :
    ((memory.logical.store address bytes).readMemoryFromInferior readAddress readSize)[index]? =
      memory.logical.store address bytes (readAddress + index) := by
  have length := readable_logical_store placed trapped mapped readAddress readSize
  have most := readable_le memory.inferior readAddress readSize
  rw [getElem?_readable (by omega), Nat.mod_eq_of_lt (by omega)]

omit trapped in
theorem read_store_covered {index : Nat} (inside : index < readable memory.inferior readAddress readSize)
    {entry : Nat × BreakpointSite} (member : entry ∈ memory.sites.entries) (software : entry.2.isSoftware)
    (covers : readAddress + index ∈ entry.2.range) :
    (readMemoryFromInferior ⟨memory.inferior.store address bytes, memory.sites⟩ transfers readAddress
        readSize)[index]? = entry.2.savedOpcode.bytes[readAddress + index - entry.2.loadAddress]? ∧
        memory.sites.Reaches readAddress (readable memory.inferior readAddress readSize) entry.2 ∨
      (readMemoryFromInferior ⟨memory.inferior.store address bytes, memory.sites⟩ transfers readAddress
        readSize)[index]? = memory.inferior.store address bytes (readAddress + index) ∧
        ¬ memory.sites.Reaches readAddress (readable memory.inferior readAddress readSize) entry.2 := by
  have placedAfter : (⟨memory.inferior.store address bytes, memory.sites⟩ : ProcessMemory).sites.Placed := placed
  have length := readable_store mapped readAddress readSize
  exact length ▸ read_covered transfers placedAfter readBounded (length.symm ▸ inside) member software covers

include enabled

theorem writeClear_of_shown (clear : memory.ReadsClear readAddress (readable memory.inferior readAddress readSize))
    (straight : ¬ memory.sites.BeginsIn address bytes.length)
    (traps : ∀ entry ∈ memory.sites.entries, entry.2.isSoftware → ∀ index < entry.2.byteSize,
      memory.inferior.store address bytes (entry.2.loadAddress + index) = entry.2.trapOpcode.bytes[index]?)
    (shown : readMemoryFromInferior ⟨memory.inferior.store address bytes, memory.sites⟩ transfers readAddress readSize =
      (memory.logical.store address bytes).readMemoryFromInferior readAddress readSize) :
    memory.WriteClear address bytes readAddress (readable memory.inferior readAddress readSize) := by
  refine ⟨straight, fun entry member software place inside covers => ?_⟩
  have hides : entry.2.hides place := hides_iff.mpr ⟨enabled entry member software, software, covers⟩
  have kept : bytes[place - address]? = memory.inferior place := by
    have bounds := covers
    rw [range, Window.mem_mk] at bounds
    have trap := traps entry member software (place - entry.2.loadAddress) (by omega)
    rw [Nat.add_sub_cancel' bounds.1] at trap
    exact ((memory.inferior.store_inside inside).symm.trans trap).trans (trapped.at_place member hides).symm
  refine ⟨kept, fun inRead => ?_⟩
  rw [Window.mem_mk] at inRead
  have index : place - readAddress < readable memory.inferior readAddress readSize := by omega
  rw [← Nat.add_sub_cancel' inRead.1] at covers
  rcases read_store_covered placed mapped readBounded index member software covers with ⟨saved, -⟩ | ⟨-, missed⟩
  · rw [shown, getElem?_read_store placed trapped mapped readBounded index, Nat.add_sub_cancel' inRead.1,
      memory.logical.store_inside inside, kept] at saved
    exact saved.symm
  · rw [Nat.add_sub_cancel' inRead.1] at covers
    exact (clear entry member software place (Window.mem_mk.mpr (by omega)) covers).resolve_left missed

theorem read_store (clear : memory.ReadsClear readAddress (readable memory.inferior readAddress readSize))
    (write : memory.WriteClear address bytes readAddress (readable memory.inferior readAddress readSize)) :
    readMemoryFromInferior ⟨memory.inferior.store address bytes, memory.sites⟩ transfers readAddress readSize =
      (memory.logical.store address bytes).readMemoryFromInferior readAddress readSize := by
  have placedAfter : (⟨memory.inferior.store address bytes, memory.sites⟩ : ProcessMemory).sites.Placed := placed
  have length := readable_store mapped readAddress readSize
  have logicalLength := readable_logical_store placed trapped mapped readAddress readSize
  apply List.ext_getElem?
  intro index
  by_cases inside : index < readable memory.inferior readAddress readSize
  · rw [getElem?_read_store placed trapped mapped readBounded inside]
    by_cases covered : ∃ entry ∈ memory.sites.entries, entry.2.hides (readAddress + index)
    · obtain ⟨entry, member, hides⟩ := covered
      obtain ⟨-, software, covers⟩ := hides_iff.mp hides
      have inRead : readAddress + index ∈
          (⟨readAddress, readable memory.inferior readAddress readSize⟩ : Window) := Window.mem_mk.mpr (by omega)
      have after := @read_store_covered memory transfers address placed bytes mapped readAddress readSize readBounded
        index inside entry member software covers
      by_cases written : readAddress + index ∈ (⟨address, bytes.length⟩ : Window)
      · obtain ⟨kept, saved⟩ := write.same entry member software _ written covers
        rw [memory.logical.store_inside written]
        rcases after with ⟨shown, -⟩ | ⟨raw, -⟩
        · rw [shown, saved inRead, kept]
        · rw [raw]
          exact memory.inferior.store_inside written
      · rw [memory.logical.store_outside written, logical_of_hides placed member hides]
        rcases after with ⟨shown, -⟩ | ⟨raw, missed⟩
        · exact shown
        · rw [raw, (clear entry member software _ inRead covers).resolve_left missed]
          exact memory.inferior.store_outside written
    · have uncovered : ∀ entry ∈ memory.sites.entries, ¬ entry.2.hides (readAddress + index) :=
        fun entry member hides => covered ⟨entry, member, hides⟩
      rw [read_untouched placedAfter readBounded
        (length.symm ▸ inside) fun entry member software covers =>
          absurd (hides_iff.mpr ⟨enabled entry member software, software, covers⟩) (uncovered entry member)]
      exact Library.Memory.write_congr address _ (logical_of_clear uncovered).symm
  · rw [List.getElem?_eq_none (by
        rw [length_readMemoryFromInferior]
        exact Nat.le_of_not_lt fun below => inside (length ▸ below)),
      List.getElem?_eq_none (by rw [← readable]; omega)]

end

/-- Breakpoints are invisible to a read, and to a write and a later read, exactly when the read finds the sites
that hide something, no site begins where bytes are written, and none is written over. -/
theorem breakpoints_invisible_iff {memory : ProcessMemory} (placed : memory.sites.Placed)
    (enabled : memory.AllEnabled) (trapped : memory.Trapped) {transfers : Transfers}
    (succeed : ∀ address size, 0 < size → 0 < transfers.writes address size) {address : Nat} {bytes : List UInt8}
    (nonempty : bytes ≠ []) (bounded : address + bytes.length < 2 ^ 64)
    (mapped : ∀ place ∈ (⟨address, bytes.length⟩ : Window), (memory.inferior place).isSome)
    {readAddress readSize : Nat} (readBounded : readAddress + readSize < 2 ^ 64) :
    Invisible memory transfers address bytes readAddress readSize ↔
      memory.ReadsClear readAddress (readable memory.inferior readAddress readSize) ∧
        memory.WriteClear address bytes readAddress (readable memory.inferior readAddress readSize) := by
  have reads := reads_logical_iff transfers placed enabled trapped readBounded
  constructor
  · rintro ⟨readsLogical, next, wrote, traps, shown⟩
    have straight : ¬ memory.sites.BeginsIn address bytes.length := fun begins =>
      nonempty (List.length_eq_zero_iff.mp (writeMemory_count placed.keyed nonempty bounded begins wrote))
    rw [writeMemory_straight succeed nonempty bounded straight] at wrote
    cases wrote
    have clear := reads.mp readsLogical
    exact ⟨clear, writeClear_of_shown placed enabled trapped mapped readBounded clear straight traps shown⟩
  · rintro ⟨clear, write⟩
    refine ⟨reads.mpr clear, _, writeMemory_straight succeed nonempty bounded write.straight, ?_, ?_⟩
    · exact traps_store enabled trapped fun entry member software place inside covers =>
        (write.same entry member software place inside covers).1
    · exact read_store placed enabled trapped mapped readBounded clear write

end

def wholeTransfers : Transfers where
  reads _ size := size
  writes _ size := size
  reads_le _ _ := le_refl _
  reads_pos _ _ nonempty := nonempty
  writes_le _ _ := le_refl _

def siteAt0x1000 (saved trap : List UInt8) : BreakpointSite :=
  { new 0x1000 with
    byteSize := trap.length
    savedOpcode := OpcodeBytes.zero.copyIn 0 saved
    trapOpcode := OpcodeBytes.zero.copyIn 0 trap
    enabled := true }

def oneTrap (saved trap : List UInt8) : ProcessMemory :=
  ⟨Inferior.store (fun _ => some 0) 0x1000 trap, Library.OrderedMap.empty.insert 0x1000 (siteAt0x1000 saved trap)⟩

section
variable {saved trap : List UInt8} {entry : Nat × BreakpointSite}

theorem mem_oneTrap : entry ∈ (oneTrap saved trap).sites.entries ↔ entry = (0x1000, siteAt0x1000 saved trap) :=
  List.mem_singleton

theorem oneTrap_placed (small : trap.length ≤ 8) : (oneTrap saved trap).sites.Placed where
  keyed entry member := by rw [mem_oneTrap.mp member]; rfl
  small entry member := by rw [mem_oneTrap.mp member]; exact small
  fits entry member := by
    rw [mem_oneTrap.mp member]
    simp only [siteAt0x1000, new]
    omega
  apart entry member other listed _ _ different :=
    absurd ((mem_oneTrap.mp member).trans (mem_oneTrap.mp listed).symm) different

theorem oneTrap_trapped (small : trap.length ≤ 8) : (oneTrap saved trap).Trapped := by
  intro entry member _ _ index below
  rw [mem_oneTrap.mp member] at below ⊢
  have inside : index ∈ (⟨0, trap.length⟩ : Window) := Window.mem_mk.mpr ⟨Nat.zero_le _, by rwa [Nat.zero_add]⟩
  have stored : 0x1000 + index ∈ (⟨0x1000, trap.length⟩ : Window) :=
    Window.mem_mk.mpr ⟨Nat.le_add_right _ _, Nat.add_lt_add_left below _⟩
  calc Inferior.store (fun _ => some 0) 0x1000 trap (0x1000 + index)
      = trap[0x1000 + index - 0x1000]? := Inferior.store_inside _ stored
    _ = trap[index - 0]? := by rw [Nat.add_sub_cancel_left, Nat.sub_zero]
    _ = (siteAt0x1000 saved trap).trapOpcode.bytes[index]? :=
        (OpcodeBytes.zero.getElem?_copyIn_inside inside (by rwa [zero_add])).symm

theorem oneTrap_enabled : (oneTrap saved trap).AllEnabled := by
  intro entry member _
  rw [mem_oneTrap.mp member]
  rfl

end

/-- A site of one byte, a read over it and a write elsewhere. -/
theorem breakpoints_invisible_iff_elsewhere : Invisible (oneTrap [0x55] [0xcc]) wholeTransfers 0x2000 [1, 2] 0xffe 4 ↔
      (oneTrap [0x55] [0xcc]).ReadsClear 0xffe (readable (oneTrap [0x55] [0xcc]).inferior 0xffe 4) ∧
        (oneTrap [0x55] [0xcc]).WriteClear 0x2000 [1, 2] 0xffe
          (readable (oneTrap [0x55] [0xcc]).inferior 0xffe 4) :=
  breakpoints_invisible_iff (oneTrap_placed (by decide)) oneTrap_enabled (oneTrap_trapped (by decide))
    (fun _ _ positive => positive) (by decide) (by decide)
    (fun place inside => by
      rw [Window.mem_mk] at inside
      show (Inferior.store (fun _ => some 0) 0x1000 [0xcc] place).isSome
      rw [Inferior.store_outside _ (by rw [Window.mem_mk]; simp only [List.length_singleton]; omega)]
      rfl)
    (by decide)

/-- A write over a trap returns zero, and the end of a trap of four bytes is shown as it is. -/
theorem breakpoints_not_always_invisible : let int3 := oneTrap [0x55] [0xcc]
    let brk := oneTrap [0x1f, 0x20, 0x03, 0xd5] [0x00, 0x00, 0x20, 0xd4]
    (int3.sites.Placed ∧ int3.AllEnabled ∧ int3.Trapped ∧ ¬ Invisible int3 wholeTransfers 0x1000 [1] 0x2000 1) ∧
      brk.sites.Placed ∧ brk.AllEnabled ∧ brk.Trapped ∧ ¬ Invisible brk wholeTransfers 0x2000 [1] 0x1002 2 := by
  refine ⟨⟨oneTrap_placed (by decide), oneTrap_enabled, oneTrap_trapped (by decide), fun invisible => ?_⟩,
    oneTrap_placed (by decide), oneTrap_enabled, oneTrap_trapped (by decide), fun invisible => ?_⟩
  · obtain ⟨next, wrote, -⟩ := invisible.writes
    have count : ((oneTrap [0x55] [0xcc]).writeMemory wholeTransfers 0x1000 [1]).map (·.1) = some 0 := by decide
    rw [wrote] at count
    cases Option.some.inj count
  · exact absurd invisible.reads (by decide)

end ProcessMemory

end Lldb
