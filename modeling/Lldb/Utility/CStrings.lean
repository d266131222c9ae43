import Lldb.Library.Traced
import Lldb.Utility.DataExtractor

/-! `GetCStr` with the bytes that it looks at: data lies in memory between two pointers, and the scan for the
terminator ends at the second one.
-/

set_option autoImplicit false

namespace Lldb

open Library List

structure DataInMemory where
  memory : Nat → UInt8
  start : Nat
  stop : Nat
  ordered : start ≤ stop

namespace DataInMemory

variable (data : DataInMemory)

def byteSize : Nat := data.stop - data.start

def bytes : List UInt8 := (range data.byteSize).map fun index => data.memory (data.start + index)

def validOffsetForDataOfSize (offset length : Nat) : Bool := length ≤ data.byteSize - offset

def peekData (offset length : Nat) : Option Nat :=
  if data.validOffsetForDataOfSize offset length then some (data.start + offset) else none

def load (address : Nat) : Traced Nat UInt8 := .record address (data.memory address)

/-- `while (cstr_end < end && *cstr_end) ++cstr_end`; `fuel` is how far the end is. -/
def scan (cstrEnd : Nat) : Nat → Traced Nat Nat
  | 0 => pure cstrEnd
  | fuel + 1 => do
    if cstrEnd < data.stop then
      let char ← data.load cstrEnd
      if char ≠ 0 then scan (cstrEnd + 1) fuel else pure cstrEnd
    else pure cstrEnd

def getCStr (offset : Nat) : Traced Nat (Option Nat × Nat) :=
  match data.peekData offset 1 with
  | none => pure (none, offset)
  | some cstr => do
    let cstrEnd ← data.scan cstr (data.stop - cstr)
    let char ← data.load cstrEnd
    if char = 0 then pure (some cstr, offset + (cstrEnd - cstr + 1)) else pure (none, offset)

def Terminates (offset length : Nat) : Prop :=
  offset + length < data.byteSize ∧ data.memory (data.start + offset + length) = 0 ∧
    ∀ index < length, data.memory (data.start + offset + index) ≠ 0

/-- No byte outside of the data is read, and the string ends at the first terminator inside of the data. -/
structure Confined (offset : Nat) : Prop where
  reads : ∀ address ∈ (data.getCStr offset).events, data.start ≤ address ∧ address < data.stop
  found : ∀ length, data.Terminates offset length →
    (data.getCStr offset).value = (some (data.start + offset), offset + length + 1)
  missing : (∀ length, ¬ data.Terminates offset length) → (data.getCStr offset).value = (none, offset)

variable {data}

theorem scan_stop {length cstr : Nat} (ahead : cstr + length ≤ data.stop)
    (plain : ∀ index < length, data.memory (cstr + index) ≠ 0)
    (stops : cstr + length = data.stop ∨ data.memory (cstr + length) = 0) {fuel : Nat}
    (enough : data.stop - cstr ≤ fuel) :
    (data.scan cstr fuel).value = cstr + length ∧
      ∀ address ∈ (data.scan cstr fuel).events, cstr ≤ address ∧ address < data.stop := by
  -- On how many bytes there are before the one that ends the scan.
  induction length generalizing cstr fuel with
  | zero =>
    cases fuel with
    | zero => exact ⟨rfl, fun _ member => absurd member not_mem_nil⟩
    | succ fuel =>
      unfold scan
      by_cases inside : cstr < data.stop
      · have zero : data.memory cstr = 0 := stops.resolve_left (by omega)
        rw [if_pos inside]
        simp only [load, zero]
        refine ⟨rfl, fun address member => ?_⟩
        have here : address = cstr := mem_singleton.mp member
        omega
      · rw [if_neg inside]
        exact ⟨rfl, fun _ member => absurd member not_mem_nil⟩
  | succ length ih =>
    cases fuel with
    | zero => omega
    | succ fuel =>
      have here : data.memory cstr ≠ 0 := plain 0 (Nat.succ_pos length)
      have later : ∀ index < length, data.memory (cstr + 1 + index) ≠ 0 := by
        intro index below
        rw [show cstr + 1 + index = cstr + (index + 1) by omega]
        exact plain (index + 1) (by omega)
      have stops' : cstr + 1 + length = data.stop ∨ data.memory (cstr + 1 + length) = 0 := by
        rwa [show cstr + 1 + length = cstr + (length + 1) by omega]
      have rest := @ih (cstr + 1) (by omega) later stops' fuel (by omega)
      have step : data.scan cstr (fuel + 1) = (data.load cstr >>= fun _ => data.scan (cstr + 1) fuel) := by
        rw [scan, if_pos (by omega)]
        exact Traced.bind_congr (if_pos here)
      rw [step]
      refine ⟨by rw [Traced.value_bind]; omega, fun address member => ?_⟩
      rcases mem_append.mp member with first | second
      · have same : address = cstr := mem_singleton.mp first
        omega
      · have bounds := rest.2 address second
        omega

theorem getCStr_eq {offset length : Nat} (inside : offset < data.byteSize) (ahead : offset + length ≤ data.byteSize)
    (plain : ∀ index < length, data.memory (data.start + offset + index) ≠ 0)
    (stops : offset + length = data.byteSize ∨ data.memory (data.start + offset + length) = 0) :
    (data.getCStr offset).value = (if data.memory (data.start + offset + length) = 0 then
        (some (data.start + offset), offset + length + 1) else (none, offset)) ∧
      data.start + offset + length ∈ (data.getCStr offset).events ∧
      ∀ address ∈ (data.getCStr offset).events,
        data.start ≤ address ∧ (address < data.stop ∨ address = data.start + offset + length) := by
  have size : data.byteSize = data.stop - data.start := rfl
  have valid : data.validOffsetForDataOfSize offset 1 = true := decide_eq_true (by omega)
  have peek : data.peekData offset 1 = some (data.start + offset) := if_pos valid
  obtain ⟨stop, reads⟩ := @scan_stop data length (data.start + offset) (by omega) plain
    (stops.imp_left fun last => by omega) (data.stop - (data.start + offset)) (le_refl _)
  have whole : data.getCStr offset =
      (data.scan (data.start + offset) (data.stop - (data.start + offset)) >>= fun cstrEnd =>
        data.load cstrEnd >>= fun char =>
          if char = 0 then pure (some (data.start + offset), offset + (cstrEnd - (data.start + offset) + 1))
          else pure (none, offset)) := by
    rw [getCStr, peek]
  rw [whole]
  refine ⟨?_, ?_, fun address member => ?_⟩
  · rw [Traced.value_bind, stop]
    change (if data.memory (data.start + offset + length) = 0 then pure _
      else pure _ : Traced Nat (Option Nat × Nat)).value = _
    split
    · simp [← Nat.add_assoc]
    · rfl
  · refine mem_append_right _ (mem_append_left _ ?_)
    rw [stop]
    exact mem_singleton_self _
  · rcases mem_append.mp member with scanned | behind
    · have bounds := reads address scanned
      exact ⟨by omega, .inl bounds.2⟩
    · rw [stop] at behind
      rcases mem_append.mp behind with looked | nothing
      · have same : address = data.start + offset + length := mem_singleton.mp looked
        exact ⟨by omega, .inr same⟩
      · dsimp only at nothing
        split at nothing
        · exact absurd nothing not_mem_nil
        · exact absurd nothing not_mem_nil

theorem Terminates.unique {offset first second : Nat} (one : data.Terminates offset first)
    (other : data.Terminates offset second) : first = second := by
  rcases lt_trichotomy first second with below | same | above
  · exact absurd one.2.1 (other.2.2 first below)
  · exact same
  · exact absurd other.2.1 (one.2.2 second above)

theorem plain_of_unterminated {offset : Nat} (unterminated : ∀ length, ¬ data.Terminates offset length) {length : Nat}
    (inside : offset + length ≤ data.byteSize) : ∀ index < length, data.memory (data.start + offset + index) ≠ 0 := by
  induction length with
  | zero => exact fun _ below => absurd below (Nat.not_lt_zero _)
  | succ length ih =>
    have before := ih (by omega)
    intro index below zero
    rcases Nat.lt_succ_iff_lt_or_eq.mp below with earlier | rfl
    · exact before index earlier zero
    · exact unterminated index ⟨by omega, zero, before⟩

theorem getCStr_outside {offset : Nat} (outside : data.byteSize ≤ offset) :
    data.getCStr offset = pure (none, offset) := by
  have invalid : data.validOffsetForDataOfSize offset 1 = false := decide_eq_false (by omega)
  have peek : data.peekData offset 1 = none := by rw [peekData, invalid]; rfl
  rw [getCStr, peek]

theorem getCStr_confined_iff (data : DataInMemory) (offset : Nat) :
    data.Confined offset ↔ data.byteSize ≤ offset ∨ ∃ length, data.Terminates offset length := by
  have ordered := data.ordered
  have size : data.byteSize = data.stop - data.start := rfl
  by_cases inside : offset < data.byteSize
  · by_cases terminated : ∃ length, data.Terminates offset length
    · refine iff_of_true ?_ (.inr terminated)
      obtain ⟨length, terminates⟩ := terminated
      obtain ⟨value, -, reads⟩ := getCStr_eq inside terminates.1.le terminates.2.2 (.inr terminates.2.1)
      rw [if_pos terminates.2.1] at value
      refine ⟨fun address member => ?_, fun other found => ?_, fun missing => absurd terminates (missing length)⟩
      · have bounds := reads address member
        have last := terminates.1
        omega
      · rw [value, terminates.unique found]
    · refine iff_of_false (fun confined => ?_) ?_
      · -- The byte behind the data is looked at.
        have plain := @plain_of_unterminated data offset (not_exists.mp terminated) (data.byteSize - offset) (by omega)
        obtain ⟨-, looked, -⟩ :=
          @getCStr_eq data offset (data.byteSize - offset) inside (by omega) plain (.inl (by omega))
        have bounds := confined.reads _ looked
        omega
      · rintro (outside | found)
        · exact absurd inside (not_lt.mpr outside)
        · exact terminated found
  · have outside := Nat.le_of_not_lt inside
    refine iff_of_true ?_ (.inl outside)
    rw [← not_lt] at outside
    have nothing := getCStr_outside (Nat.le_of_not_lt inside)
    refine ⟨fun address member => ?_, fun length found => ?_, fun _ => by rw [nothing]; rfl⟩
    · rw [nothing] at member
      exact absurd member not_mem_nil
    · have last := found.1
      omega

/-- A string that nothing terminates, and what lies behind it. -/
theorem getCStr_not_confined : ¬ ∀ (data : DataInMemory) (offset : Nat), data.Confined offset := by
  intro always
  have reads := (always ⟨fun address => if address < 12 then 0x41 else 0, 10, 12, by decide⟩ 0).reads
  exact absurd (reads 12 (by decide)) (by decide)

/-- Where the scan ends in time, the pointers see what is seen of the list of bytes. -/
theorem getCStr_refines {offset : Nat} (ends : data.byteSize ≤ offset ∨ ∃ length, data.Terminates offset length)
    (order : ByteOrder) (addrSize : Nat) :
    (⟨data.bytes, order, addrSize⟩ : DataExtractor).getCStr offset = some ((data.getCStr offset).value.1.map fun cstr =>
        (range ((data.getCStr offset).value.2 - offset - 1)).map fun index => data.memory (cstr + index),
        (data.getCStr offset).value.2) := by
  have whole : data.bytes.length = data.byteSize := by rw [bytes, length_map, length_range]
  rcases ends with outside | ⟨length, terminates⟩
  · have invalid : ¬ (⟨data.bytes, order, addrSize⟩ : DataExtractor).validOffsetForDataOfSize offset 1 = true := by
      rw [DataExtractor.validOffsetForDataOfSize, decide_eq_true_eq, whole]
      omega
    rw [DataExtractor.getCStr, if_neg invalid, getCStr_outside outside]
    rfl
  · have before := terminates.1
    rw [(getCStr_eq (by omega) before.le terminates.2.2 (.inr terminates.2.1)).1, if_pos terminates.2.1]
    dsimp only
    rw [show offset + length + 1 - offset - 1 = length by omega]
    have string : ((range length).map fun index => data.memory (data.start + offset + index)).length = length := by
      simp
    have plain : 0 ∉ (range length).map fun index => data.memory (data.start + offset + index) := by
      intro member
      obtain ⟨index, below, zero⟩ := mem_map.mp member
      exact terminates.2.2 index (mem_range.mp below) zero
    have at_ : (⟨data.bytes, order, addrSize⟩ : DataExtractor).At offset
        (((range length).map fun index => data.memory (data.start + offset + index)) ++ [0]) := by
      rw [DataExtractor.At, prefix_iff_getElem?]
      intro index below
      rw [length_append, length_singleton] at below
      rw [getElem?_drop, bytes, getElem?_map, getElem?_range (by have := terminates.1; omega),
        Option.map_some, Option.some.injEq, getElem_append]
      split
      · simp [add_assoc]
      · have same : index = length := by omega
        rw [getElem_singleton, same, ← add_assoc]
        exact terminates.2.1
    have found := DataExtractor.getCStr_at plain at_
    rwa [string] at found

/-- A byte and its terminator. -/
theorem getCStr_refines_byte : (⟨[0x41, 0], .little, 8⟩ : DataExtractor).getCStr 0 = some (some [0x41], 2) :=
  @getCStr_refines ⟨fun address => if address = 0 then 0x41 else 0, 0, 2, by decide⟩ 0
    (.inr ⟨1, by decide, rfl, by decide⟩) .little 8

end DataInMemory

end Lldb
