import Lldb.Target.SectionLoadList

/-! The two maps of a `SectionLoadList` over any sequence of loads and unloads. -/

set_option autoImplicit false

namespace Lldb.SectionLoadList

open Library (OrderedMap)

inductive Call where
  | setSectionLoadAddress (sect : Section) (loadAddr : Nat)
  | setSectionUnloaded (sect : Section)
  | setSectionUnloadedAt (sect : Section) (loadAddr : Nat)

def after (list : SectionLoadList) : Call → SectionLoadList
  | .setSectionLoadAddress sect loadAddr => (list.setSectionLoadAddress sect loadAddr).2
  | .setSectionUnloaded sect => (list.setSectionUnloaded sect).2
  | .setSectionUnloadedAt sect loadAddr => (list.setSectionUnloadedAt sect loadAddr).2

def afterAll (list : SectionLoadList) (calls : List Call) : SectionLoadList := calls.foldl after list

def Consistent (list : SectionLoadList) : Prop :=
  ∀ loadAddr sect, list.addrToSect.find? loadAddr = some sect → list.sectToAddr.find? sect.pointer = some loadAddr

/-- An address is resolved against the load address of its top-level section. -/
def Resolves (list : SectionLoadList) : Prop :=
  ∀ loadAddr allowSectionEnd address, list.resolveLoadAddress loadAddr allowSectionEnd = some address →
    ∃ base top start, list.addrToSect.find? base = some top ∧ list.getSectionLoadAddress top = base ∧
      top.Lies start address.sect ∧ base + start + address.offset = loadAddr

def Harmless (list : SectionLoadList) : Call → Prop
  | .setSectionLoadAddress _ _ => True
  | .setSectionUnloaded sect => ∀ address other, list.addrToSect.find? address = some other →
      other.pointer ≠ sect.pointer → list.sectToAddr.find? other.pointer = some address →
      (list.after (.setSectionUnloaded sect)).addrToSect.find? address = some other
  | .setSectionUnloadedAt sect loadAddr => ∀ address other, list.addrToSect.find? address = some other →
      other.pointer ≠ sect.pointer → list.sectToAddr.find? other.pointer = some address →
      (list.after (.setSectionUnloadedAt sect loadAddr)).addrToSect.find? address = some other

def Owns (list : SectionLoadList) (sect : Section) (address : Nat) : Prop :=
  ∃ holder, list.addrToSect.find? address = some holder ∧ holder.pointer = sect.pointer

def Sole (list : SectionLoadList) (sect : Section) (address : Nat) : Prop :=
  ∀ holder, list.addrToSect.find? address = some holder → holder.pointer = sect.pointer

/-- A section that is moved has lost its old address to another section, and what is unloaded is a
section together with the address that is its own. -/
def Suits (list : SectionLoadList) : Call → Prop
  | .setSectionLoadAddress sect loadAddr => sect.hasModule = true → sect.byteSize ≠ 0 →
      ∀ old, list.sectToAddr.find? sect.pointer = some old → old ≠ loadAddr → ¬ list.Owns sect old
  | .setSectionUnloaded sect => ∀ old, list.sectToAddr.find? sect.pointer = some old → list.Sole sect old
  | .setSectionUnloadedAt sect loadAddr => list.Sole sect loadAddr ∧
      ∀ old, list.sectToAddr.find? sect.pointer = some old → list.Owns sect old → old = loadAddr

theorem Consistent.resolves {list : SectionLoadList} (consistent : list.Consistent) : list.Resolves := by
  intro loadAddr allowSectionEnd address resolved
  unfold resolveLoadAddress at resolved
  split at resolved
  · cases resolved
  · rename_i base top found
    split_ifs at resolved with inside
    cases resolved
    have listed := (list.addrToSect.find?_eq_some_iff base top).mpr (mem_of_topLevelEntry found)
    obtain ⟨start, lies, sum⟩ := top.resolveContainedAddress_lies allowSectionEnd (loadAddr - base)
    refine ⟨base, top, start, listed, ?_, lies, by omega⟩
    simp [getSectionLoadAddress, consistent base top listed]

theorem find?_of_erase {map : OrderedMap Nat Section} {erased address : Nat} {sect : Section}
    (found : (map.erase erased).find? address = some sect) : address ≠ erased ∧ map.find? address = some sect := by
  have other : address ≠ erased := by
    rintro rfl
    rw [map.find?_erase_self] at found
    cases found
  rw [map.find?_erase_of_ne other] at found
  exact ⟨other, found⟩

section

variable {list : SectionLoadList} (consistent : list.Consistent) (sect : Section) (loadAddr : Nat)

include consistent

theorem Consistent.load : (list.after (.setSectionLoadAddress sect loadAddr)).Consistent ↔
    list.Suits (.setSectionLoadAddress sect loadAddr) := by
  unfold Suits after setSectionLoadAddress
  by_cases alive : sect.hasModule = true
  · by_cases empty : sect.byteSize = 0
    · simp only [if_pos alive, if_pos empty]
      exact iff_of_true consistent fun _ some_ => absurd empty some_
    · by_cases same : list.sectToAddr.find? sect.pointer = some loadAddr
      · simp only [if_pos alive, if_neg empty, if_pos same]
        refine iff_of_true consistent fun _ _ old found other => ?_
        exact absurd (Option.some.inj (found.symm.trans same)) other
      · simp only [if_pos alive, if_neg empty, if_neg same]
        constructor
        · rintro next - - old found other ⟨holder, held, pointer⟩
          have moved := next old holder ((list.addrToSect.find?_insert_of_ne sect other).trans held)
          rw [pointer, list.sectToAddr.find?_insert_self] at moved
          exact other (Option.some.inj moved).symm
        · intro suits address holder held
          by_cases here : address = loadAddr
          · subst here
            rw [list.addrToSect.find?_insert_self] at held
            cases held
            exact list.sectToAddr.find?_insert_self _ _
          · rw [list.addrToSect.find?_insert_of_ne sect here] at held
            have old := consistent address holder held
            have ne : holder.pointer ≠ sect.pointer := by
              intro pointer
              exact suits alive empty address (pointer ▸ old) here ⟨holder, held, pointer⟩
            exact (list.sectToAddr.find?_insert_of_ne loadAddr ne).trans old
  · simp only [if_neg alive]
    exact iff_of_true consistent fun here => absurd here alive

theorem Consistent.unload :
    (list.after (.setSectionUnloaded sect)).Consistent ∧ list.Harmless (.setSectionUnloaded sect) ↔
      list.Suits (.setSectionUnloaded sect) := by
  cases found : list.sectToAddr.find? sect.pointer with
  | none =>
    have same : list.setSectionUnloaded sect = (0, list) := by rw [setSectionUnloaded, found]
    simp only [Suits, Harmless, after, same, found]
    exact iff_of_true ⟨consistent, fun address other held _ _ => held⟩ nofun
  | some loaded =>
    have next : list.setSectionUnloaded sect =
        (1, ⟨list.addrToSect.erase loaded, list.sectToAddr.erase sect.pointer⟩) := by
      rw [setSectionUnloaded, found]
    simp only [Suits, Harmless, after, next, found]
    constructor
    · rintro ⟨-, harmless⟩ old same holder held
      cases same
      by_contra other
      have kept := harmless loaded holder held other (consistent loaded holder held)
      exact (find?_of_erase kept).1 rfl
    · intro suits
      have sole := suits loaded rfl
      refine ⟨fun address holder held => ?_, fun address other held ne _ => ?_⟩
      · obtain ⟨other, before⟩ := find?_of_erase held
        have old := consistent address holder before
        have ne : holder.pointer ≠ sect.pointer := by
          intro pointer
          rw [pointer, found] at old
          exact other (Option.some.inj old).symm
        exact (list.sectToAddr.find?_erase_of_ne ne).trans old
      · have elsewhere : address ≠ loaded := by
          rintro rfl
          exact ne (sole other held)
        exact (list.addrToSect.find?_erase_of_ne elsewhere).trans held

theorem Consistent.unloadAt : (list.after (.setSectionUnloadedAt sect loadAddr)).Consistent ∧
        list.Harmless (.setSectionUnloadedAt sect loadAddr) ↔
      list.Suits (.setSectionUnloadedAt sect loadAddr) := by
  unfold Suits Harmless after setSectionUnloadedAt
  constructor
  · rintro ⟨next, harmless⟩
    refine ⟨fun holder held => ?_, fun old found owns => ?_⟩
    · by_contra other
      have kept := harmless loadAddr holder held other (consistent loadAddr holder held)
      exact (find?_of_erase kept).1 rfl
    · by_contra other
      obtain ⟨holder, held, pointer⟩ := owns
      have lost := next old holder ((list.addrToSect.find?_erase_of_ne other).trans held)
      rw [pointer, list.sectToAddr.find?_erase_self] at lost
      cases lost
  · rintro ⟨sole, own⟩
    refine ⟨fun address holder held => ?_, fun address other held ne _ => ?_⟩
    · obtain ⟨other, before⟩ := find?_of_erase held
      have old := consistent address holder before
      have ne : holder.pointer ≠ sect.pointer := by
        intro pointer
        exact other (own address (pointer ▸ old) ⟨holder, before, pointer⟩)
      exact (list.sectToAddr.find?_erase_of_ne ne).trans old
    · have elsewhere : address ≠ loadAddr := by
        rintro rfl
        exact ne (sole other held)
      exact (list.addrToSect.find?_erase_of_ne elsewhere).trans held

/-- From a consistent state, a call keeps the maps consistent and harms no other section just if it
suits the state. -/
theorem Consistent.after_iff (call : Call) : (list.after call).Consistent ∧ list.Harmless call ↔ list.Suits call := by
  cases call with
  | setSectionLoadAddress sect loadAddr => exact (and_iff_left trivial).trans (consistent.load sect loadAddr)
  | setSectionUnloaded sect => exact consistent.unload sect
  | setSectionUnloadedAt sect loadAddr => exact consistent.unloadAt sect loadAddr

end

theorem empty_consistent : Consistent empty := nofun

def Throughout (holds : SectionLoadList → Call → Prop) (list : SectionLoadList) : List Call → Prop
  | [] => True
  | call :: rest => holds list call ∧ Throughout holds (list.after call) rest

/-- The maps are consistent and resolve addresses after the call, and the call is harmless. -/
def Kept (list : SectionLoadList) (call : Call) : Prop :=
  (list.after call).Consistent ∧ (list.after call).Resolves ∧ list.Harmless call

theorem Consistent.throughout_iff {list : SectionLoadList} (consistent : list.Consistent) (calls : List Call) :
    list.Throughout Kept calls ↔ list.Throughout Suits calls := by
  induction calls generalizing list with
  | nil => exact Iff.rfl
  | cons call rest ih =>
    have step := consistent.after_iff call
    constructor
    · rintro ⟨⟨next, -, harmless⟩, later⟩
      exact ⟨step.mp ⟨next, harmless⟩, (ih next).mp later⟩
    · rintro ⟨suits, later⟩
      obtain ⟨next, harmless⟩ := step.mpr suits
      exact ⟨⟨next, next.resolves, harmless⟩, (ih next).mpr later⟩

/-- From the empty list on, the maps stay consistent and no section loses its address to another one's
unloading just if every call suits the state it finds. -/
theorem throughout_kept_iff (calls : List Call) : empty.Throughout Kept calls ↔ empty.Throughout Suits calls :=
  empty_consistent.throughout_iff calls

def page (pointer : Nat) : Section := .mk pointer true 0 0x1000 []

/-- Of two sections at one address the first one is unloaded, and the other one is not found any more. -/
theorem shared_not_kept : ¬ empty.Throughout Kept
    [.setSectionLoadAddress (page 1) 0x4000, .setSectionLoadAddress (page 2) 0x4000, .setSectionUnloaded (page 1)] := by
  rintro ⟨-, -, ⟨-, -, harmless⟩, -⟩
  have kept := harmless 0x4000 (page 2) rfl (by decide) rfl
  cases kept

end Lldb.SectionLoadList
