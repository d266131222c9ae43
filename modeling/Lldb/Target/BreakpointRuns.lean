import Lldb.Target.BreakpointWrites

/-! Runs of creating, enabling and disabling software breakpoints and of writing memory.

The platform gives each address its trap opcode, the same one each time. A site stays in the list
when it is disabled.
-/

set_option autoImplicit false

namespace Lldb

open Library (Window)

namespace ProcessMemory

inductive Operation where
  | createBreakpointSite (address : Nat)
  | enableSoftwareBreakpoint (address : Nat)
  | disableSoftwareBreakpoint (address : Nat)
  | writeMemory (address : Nat) (bytes : List UInt8)

/-- `CreateBreakpointSite` lists a new site once it is enabled. -/
def createBreakpointSite (memory : ProcessMemory) (transfers : Transfers) (trapOpcode : Nat → List UInt8)
    (address : Nat) : ProcessMemory :=
  if address = invalidAddress then memory
  else
    match memory.sites.find? address with
    | some _ => memory
    | none =>
        let (inferior, site) :=
          ProcessMemory.enableSoftwareBreakpoint transfers (trapOpcode address) memory.inferior (.new address)
        if site.enabled then memory.withSite inferior site else ⟨inferior, memory.sites⟩

/-- `none` where `WriteMemory` goes on with an intersection that was never set. -/
def perform (memory : ProcessMemory) (transfers : Transfers) (trapOpcode : Nat → List UInt8) :
    Operation → Option ProcessMemory
  | .createBreakpointSite address => some (memory.createBreakpointSite transfers trapOpcode address)
  | .enableSoftwareBreakpoint address =>
      match memory.sites.find? address with
      | none => some memory
      | some site =>
          let (inferior, site) :=
            ProcessMemory.enableSoftwareBreakpoint transfers (trapOpcode address) memory.inferior site
          some (memory.withSite inferior site)
  | .disableSoftwareBreakpoint address =>
      match memory.sites.find? address with
      | none => some memory
      | some site =>
          let (inferior, site) := ProcessMemory.disableSoftwareBreakpoint transfers memory.inferior site
          some (memory.withSite inferior site)
  | .writeMemory address bytes => (memory.writeMemory transfers address bytes).map (·.2)

/-- Memory operations succeed; a new site has a trap that fits it and the address space, and shares no byte
with the sites listed. -/
structure Assumed (memory : ProcessMemory) (transfers : Transfers) (trapOpcode : Nat → List UInt8)
    (operation : Operation) : Prop where
  whole : transfers.Whole
  site : ∀ address, operation = .createBreakpointSite address →
    0 < (trapOpcode address).length ∧ (trapOpcode address).length ≤ 8 ∧ address + (trapOpcode address).length ≤ 2 ^ 64 ∧
      ∀ entry ∈ memory.sites.entries, entry.1 ≠ address →
        Window.Apart ⟨address, (trapOpcode address).length⟩ entry.2.range

def KeepsWrites (memory : ProcessMemory) : Operation → Prop
  | .writeMemory address bytes => WriteFound memory.sites address bytes.length
  | _ => True

def expects (expected : Inferior) : Operation → Inferior
  | .writeMemory address bytes => expected.store address bytes
  | _ => expected

/-- The memory of the process, and the initial memory updated by all writes so far. -/
structure World where
  memory : ProcessMemory
  expected : Inferior

def World.new (inferior : Inferior) : World := ⟨⟨inferior, Library.OrderedMap.empty⟩, inferior⟩

def World.Performs (trapOpcode : Nat → List UInt8) (operation : Operation) (world next : World) : Prop :=
  ∃ transfers, world.memory.Assumed transfers trapOpcode operation ∧
    world.memory.perform transfers trapOpcode operation = some next.memory ∧
    next.expected = expects world.expected operation

def World.Step (trapOpcode : Nat → List UInt8) (world next : World) : Prop :=
  ∃ operation, world.memory.KeepsWrites operation ∧ World.Performs trapOpcode operation world next

section
variable {trapOpcode : Nat → List UInt8}

/-- One operation: it can be performed, and the program's memory changes by what is written, if anything. -/
theorem Consistent.perform {memory : ProcessMemory} (consistent : memory.Consistent trapOpcode)
    {transfers : Transfers} {operation : Operation} (assumed : memory.Assumed transfers trapOpcode operation)
    (keeps : memory.KeepsWrites operation) :
    ∃ next, memory.perform transfers trapOpcode operation = some next ∧ next.Consistent trapOpcode ∧
      next.logical = expects memory.logical operation := by
  obtain ⟨whole, newSite⟩ := assumed
  cases operation with
  | createBreakpointSite address =>
    refine ⟨_, rfl, ?_⟩
    unfold ProcessMemory.createBreakpointSite
    split_ifs with invalid
    · exact ⟨consistent, rfl⟩
    · cases found : memory.sites.find? address with
      | some site => exact ⟨consistent, rfl⟩
      | none =>
        obtain ⟨nonempty, small, fits, apart⟩ := newSite address rfl
        have unlisted : ∀ entry ∈ memory.sites.entries, entry.1 = address → entry.2.enabled = false := by
          rintro entry member rfl
          have listed := (memory.sites.find?_eq_some_iff entry.1 entry.2).mpr member
          cases found.symm.trans listed
        have disabled : (BreakpointSite.new address).enabled = false := rfl
        obtain ⟨inferior, site, made, enabled, after, logical⟩ :=
          consistent.enable whole disabled rfl invalid nonempty small fits apart unlisted
        have made : ProcessMemory.enableSoftwareBreakpoint transfers (trapOpcode address) memory.inferior
            (.new address) = (inferior, site) := made
        simp only [made, enabled]
        exact ⟨after, logical⟩
  | enableSoftwareBreakpoint address =>
    cases found : memory.sites.find? address with
    | none => exact ⟨memory, by simp [ProcessMemory.perform, found], consistent, rfl⟩
    | some site =>
      have member := (memory.sites.find?_eq_some_iff address site).mp found
      have key : address = site.loadAddress := consistent.placed.keyed _ member
      subst key
      obtain ⟨same, unchanged⟩ := consistent.refresh member
      simp only [ProcessMemory.perform, found]
      refine ⟨_, rfl, ?_⟩
      cases enabled : site.enabled with
      | true =>
        have kept : ProcessMemory.enableSoftwareBreakpoint transfers (trapOpcode site.loadAddress) memory.inferior
            site = (memory.inferior, site) := by rw [ProcessMemory.enableSoftwareBreakpoint, if_pos enabled]
        rw [kept]
        exact ⟨same, unchanged⟩
      | false =>
        by_cases invalid : site.loadAddress = invalidAddress
        · have kept : ProcessMemory.enableSoftwareBreakpoint transfers (trapOpcode site.loadAddress)
              memory.inferior site = (memory.inferior, site) := by
            rw [ProcessMemory.enableSoftwareBreakpoint, if_neg (by simp [enabled]), if_pos invalid]
          rw [kept]
          exact ⟨same, unchanged⟩
        · have software := consistent.software _ member
          have size : site.byteSize = (trapOpcode site.loadAddress).length := consistent.sized _ member
          have soft : site.isHardware = false := by
            rw [BreakpointSite.isSoftware, Bool.and_eq_true, Bool.not_eq_true'] at software
            exact software.2
          obtain ⟨inferior, after, made, -, result, logical⟩ := consistent.enable whole enabled soft invalid
            (size ▸ consistent.nonempty _ member) (size ▸ consistent.placed.small _ member)
            (size ▸ consistent.placed.fits _ member)
            (fun other listed beside => size ▸ consistent.placed.apart _ member other listed software
              (consistent.software other listed) fun same => beside (same ▸ rfl))
            (fun other listed same => by rw [memory.sites.eq_of_key_eq listed member same]; exact enabled)
          rw [made]
          exact ⟨result, logical⟩
  | disableSoftwareBreakpoint address =>
    cases found : memory.sites.find? address with
    | none => exact ⟨memory, by simp [ProcessMemory.perform, found], consistent, rfl⟩
    | some site =>
      have member := (memory.sites.find?_eq_some_iff address site).mp found
      have key : address = site.loadAddress := consistent.placed.keyed _ member
      subst key
      simp only [ProcessMemory.perform, found]
      refine ⟨_, rfl, ?_⟩
      cases enabled : site.enabled with
      | true =>
        obtain ⟨inferior, after, made, result, logical⟩ := consistent.disable whole member enabled
        rw [made]
        exact ⟨result, logical⟩
      | false =>
        have kept : ProcessMemory.disableSoftwareBreakpoint transfers memory.inferior site =
            (memory.inferior, site) := by simp [ProcessMemory.disableSoftwareBreakpoint, enabled]
        rw [kept]
        exact consistent.refresh member
  | writeMemory address bytes =>
    obtain ⟨count, next, wrote, after, logical⟩ := consistent.writeMemory whole keeps
    exact ⟨next, by simp [ProcessMemory.perform, wrote], after, logical⟩

theorem consistent_new {inferior : Inferior} (mapped : ∀ place < 2 ^ 64, (inferior place).isSome) :
    Consistent trapOpcode ⟨inferior, Library.OrderedMap.empty⟩ :=
  ⟨⟨nofun, nofun, nofun, nofun⟩, nofun, nofun, nofun, nofun, nofun, mapped⟩

theorem run_consistent {inferior : Inferior} (mapped : ∀ place < 2 ^ 64, (inferior place).isSome) {last : World}
    (run : Relation.ReflTransGen (World.Step trapOpcode) (World.new inferior) last) :
    last.memory.Consistent trapOpcode ∧ last.memory.logical = last.expected := by
  induction run with
  | refl => exact ⟨consistent_new mapped, rfl⟩
  | tail _ step ih =>
    obtain ⟨operation, keeps, transfers, assumed, performed, expected⟩ := step
    obtain ⟨next, same, consistent, logical⟩ := ih.1.perform assumed keeps
    cases same.symm.trans performed
    exact ⟨consistent, by rw [logical, ih.2, expected]⟩

def ReadFound (memory : ProcessMemory) (address size : Nat) : Prop :=
  ∀ entry ∈ memory.sites.entries, entry.2.enabled → ∀ place ∈ (⟨address, size⟩ : Window), place ∈ entry.2.range →
    memory.sites.Reaches address size entry.2

/-- A read that finds the enabled sites shows the program's memory, whichever disabled ones it finds. -/
theorem Consistent.read {memory : ProcessMemory} (consistent : memory.Consistent trapOpcode)
    (transfers : Transfers) {address size : Nat} (bounded : address + size < 2 ^ 64)
    (found : memory.ReadFound address size) :
    memory.readMemoryFromInferior transfers address size = memory.logical.readMemoryFromInferior address size := by
  have whole : readable memory.inferior address size = size := Inferior.length_read_mapped consistent.mapped _ _
  have length := readable_logical consistent.placed consistent.trapped address size
  apply List.ext_getElem?
  intro index
  by_cases inside : index < readable memory.inferior address size
  · rw [getElem?_logical_read consistent.placed consistent.trapped bounded inside]
    by_cases covered : ∃ entry ∈ memory.sites.entries, address + index ∈ entry.2.range
    · obtain ⟨entry, member, covers⟩ := covered
      have software := consistent.software entry member
      have shown := read_covered transfers consistent.placed bounded inside member software covers
      cases enabled : entry.2.enabled with
      | true =>
        have reaches := found entry member enabled _ (Window.mem_mk.mpr (by omega)) covers
        rw [logical_of_hides consistent.placed member (hides_iff.mpr ⟨enabled, software, covers⟩)]
        rcases shown with ⟨saved, -⟩ | ⟨-, missed⟩
        · exact saved
        · exact absurd (whole.symm ▸ reaches) missed
      | false =>
        have clear : ∀ other ∈ memory.sites.entries, ¬ other.2.hides (address + index) := by
          intro other listed hides
          obtain ⟨on, -, also⟩ := hides_iff.mp hides
          have same : entry = other := by
            by_contra different
            exact consistent.placed.apart entry member other listed software (consistent.software other listed)
              different _ covers also
          rw [same] at enabled
          exact Bool.false_ne_true (enabled.symm.trans on)
        rw [logical_of_clear clear]
        rcases shown with ⟨saved, -⟩ | ⟨raw, -⟩
        · exact saved.trans (consistent.synced entry member enabled _ covers).symm
        · exact raw
    · have uncovered : ∀ entry ∈ memory.sites.entries, address + index ∉ entry.2.range :=
        fun entry member covers => covered ⟨entry, member, covers⟩
      rw [logical_of_clear fun entry member hides => uncovered entry member (hides_iff.mp hides).2.2]
      exact read_untouched consistent.placed bounded inside
        fun entry member _ covers => absurd covers (uncovered entry member)
  · rw [List.getElem?_eq_none (by rw [length_readMemoryFromInferior]; omega),
      List.getElem?_eq_none (by rw [← readable]; omega)]

end

theorem wholeTransfers_whole : wholeTransfers.Whole := ⟨fun _ _ => rfl, fun _ _ => rfl⟩

def int3 (_ : Nat) : List UInt8 := [0xcc]

def zeros : Inferior := fun _ => some 0

def World.after (world : World) (operation : Operation) : World :=
  ⟨(world.memory.perform wholeTransfers int3 operation).getD world.memory, expects world.expected operation⟩

theorem World.after_performs {world : World} {operation : Operation}
    (performed : (world.memory.perform wholeTransfers int3 operation).isSome)
    (site : ∀ address, operation = .createBreakpointSite address → address + 1 ≤ 2 ^ 64 ∧
      ∀ entry ∈ world.memory.sites.entries, entry.1 ≠ address → Window.Apart ⟨address, 1⟩ entry.2.range) :
    World.Performs int3 operation world (world.after operation) := by
  refine ⟨wholeTransfers, ⟨wholeTransfers_whole, fun address creates => ?_⟩, ?_, rfl⟩
  · obtain ⟨fits, apart⟩ := site address creates
    exact ⟨one_pos, show 1 ≤ 8 by decide, fits, apart⟩
  · obtain ⟨next, same⟩ := Option.isSome_iff_exists.mp performed
    rw [World.after, same]
    rfl

def withBreakpoint : World := (World.new zeros).after (.createBreakpointSite 0x1000)

theorem withBreakpoint_performs : World.Performs int3 (.createBreakpointSite 0x1000) (World.new zeros) withBreakpoint :=
  World.after_performs rfl fun address creates => by
    cases creates
    exact ⟨by decide, nofun⟩

end ProcessMemory

end Lldb
