import Lldb.Process.MinidumpReads

/-! Which numbers in a minidump keep the searches through its lists of memory ranges and regions in the file. -/

set_option autoImplicit false

namespace Lldb

open Library Traced

namespace Minidump

variable (buffer : DataBuffer)

@[simp] theorem value_field32 (pointer : Nat) :
    (field32 buffer pointer).value = number32 buffer pointer := rfl

@[simp] theorem value_field64 (pointer : Nat) :
    (field64 buffer pointer).value = number64 buffer pointer := rfl

@[simp] theorem value_readLocation (pointer : Nat) :
    (readLocation buffer pointer).value = locationAt buffer pointer := rfl

def Holds (start size addr : UInt64) : Prop := start ≤ addr ∧ addr < start + size

instance (start size addr : UInt64) : Decidable (Holds start size addr) := inferInstanceAs (Decidable (_ ∧ _))

/-- A range that is found is one of `R`. -/
def Found (R : MemoryRange → Prop) (found : Option MemoryRange) : Prop := ∀ range, found = some range → R range

@[simp] theorem found_none {R : MemoryRange → Prop} : Found R none := fun _ same => nomatch same

@[simp] theorem found_some {R : MemoryRange → Prop} {range : MemoryRange} : Found R (some range) ↔ R range := by
  simp [Found]

def MemoryRange.part (range : MemoryRange) (addr size : UInt64) : Window :=
  slice range.rangeRef (addr - range.start).toNat
    (min size.toNat (range.rangeRef.size - (addr - range.start).toNat))

def Left {β σ : Type} (Q : β → Prop) (ending : Traced.Turn β σ) : Prop := ∀ result, ending = .done result → Q result

@[simp] theorem left_done {β σ : Type} {Q : β → Prop} {result : β} :
    Left Q (.done result : Traced.Turn β σ) ↔ Q result := by
  simp [Left]

@[simp] theorem left_next {β σ : Type} {Q : β → Prop} {state : σ} : Left Q (.next state : Traced.Turn β σ) := by
  simp [Left]

namespace MinidumpParser

variable {Map : Type} (support : Support Map) (parser : MinidumpParser Map)

/-! The 32-bit memory list. -/

section MemoryList

variable (list : ObjectList) (addr : UInt64)

def rangeStart (index : Nat) : UInt64 := number64 parser.dataSp (list.at_ 16 index)

def rangeMemory (index : Nat) : LocationDescriptor := locationAt parser.dataSp (list.at_ 16 index + 8)

def EndsSearch (index : Nat) : Prop :=
  ¬(parser.rangeMemory list index).Accepted parser.dataSp ∨
    Holds (parser.rangeStart list index) (parser.rangeMemory list index).dataSize.toUInt64 addr

/-- The descriptors that are come to are in the file, and the range that is found is one of `R`. -/
def SearchSound (R : MemoryRange → Prop) : Prop :=
  ∀ index, index < list.count → (∀ before, before < index → ¬parser.EndsSearch list addr before) →
    list.at_ 16 index + 16 ≤ parser.dataSp.size ∧ ((parser.rangeMemory list index).Accepted parser.dataSp →
        Holds (parser.rangeStart list index) (parser.rangeMemory list index).dataSize.toUInt64 addr →
        R ⟨parser.rangeStart list index, (parser.rangeMemory list index).bytes⟩)

variable {parser list addr}

theorem value_memoryTurn (index : Nat) : (parser.memoryTurn list addr index ()).value =
    if ¬(parser.rangeMemory list index).Accepted parser.dataSp then .done none
    else if Holds (parser.rangeStart list index) (parser.rangeMemory list index).dataSize.toUInt64 addr then
      .done (some ⟨parser.rangeStart list index, (parser.rangeMemory list index).bytes⟩)
    else .next () := by
  unfold memoryTurn
  simp only [value_bind, LocationDescriptor.accepted_iff, slice_getData]
  change value (if ¬(parser.rangeMemory list index).Accepted parser.dataSp then _
    else if Holds (parser.rangeStart list index) (parser.rangeMemory list index).dataSize.toUInt64 addr then _
    else _) = _
  split_ifs <;> rfl

theorem follows_memoryTurn :
    Traced.Follows (parser.memoryTurn list addr) (fun _ => ()) (parser.EndsSearch list addr) where
  stops := by
    intro index ends
    rw [value_memoryTurn]
    rcases ends with behind | holds
    · exact ⟨none, if_pos behind⟩
    · by_cases accepted : (parser.rangeMemory list index).Accepted parser.dataSp
      · exact ⟨_, (if_neg (not_not.mpr accepted)).trans (if_pos holds)⟩
      · exact ⟨none, if_pos accepted⟩
  goesOn := by
    intro index goesOn
    obtain ⟨accepted, other⟩ := not_or.mp goesOn
    rw [value_memoryTurn, if_neg accepted, if_neg other]

theorem meets_memoryTurn {R : MemoryRange → Prop} {index : Nat} :
    (parser.memoryTurn list addr index ()).Meets (Access.InFile parser.dataSp) (Left (Found R)) ↔
      list.at_ 16 index + 16 ≤ parser.dataSp.size ∧ ((parser.rangeMemory list index).Accepted parser.dataSp →
          Holds (parser.rangeStart list index) (parser.rangeMemory list index).dataSize.toUInt64 addr →
          R ⟨parser.rangeStart list index, (parser.rangeMemory list index).bytes⟩) := by
  unfold memoryTurn
  simp only [meets_bind, meets_field64, meets_readLocation, meets_ite, meets_pure, left_done,
    left_next, found_none, found_some, slice_getData, LocationDescriptor.accepted_iff, not_not, implies_true, true_and,
    and_true]
  change list.at_ 16 index + 8 ≤ _ ∧ list.at_ 16 index + 8 + 8 ≤ _ ∧ _ ↔ _
  constructor
  · intro good
    exact ⟨good.2.1, good.2.2⟩
  · intro good
    have low := good.1
    exact ⟨by omega, low, good.2⟩

theorem meets_memoryLoop {R : MemoryRange → Prop} {Q : Prop} :
    (loop (parser.memoryTurn list addr) 0 list.count ()).Meets (Access.InFile parser.dataSp) (fun ending =>
      match ending with
      | .done range => Found R range
      | .next _ => Q) ↔
    parser.SearchSound list addr R ∧ ((∀ index, index < list.count → ¬parser.EndsSearch list addr index) → Q) := by
  rw [meets_loop follows_memoryTurn 0 list.count]
  simp only [zero_le, forall_true_left, zero_add]
  apply and_congr_left'
  apply forall_congr'
  intro index
  exact forall_congr' fun _ => forall_congr' fun _ => meets_memoryTurn

end MemoryList

/-! The 64-bit memory list. -/

section Memory64List

variable (list : ObjectList) (baseRva addr : UInt64)

def rangeSize64 (index : Nat) : UInt64 := number64 parser.dataSp (list.at_ 16 index + 8)

def rangeRva : Nat → UInt64
  | 0 => baseRva
  | index + 1 => rangeRva index + parser.rangeSize64 list index

def Accepted64 (index : Nat) : Prop :=
  (parser.rangeRva list baseRva index + parser.rangeSize64 list index).toNat ≤ parser.dataSp.size

instance (index : Nat) : Decidable (parser.Accepted64 list baseRva index) := inferInstanceAs (Decidable (_ ≤ _))

def EndsSearch64 (index : Nat) : Prop :=
  ¬parser.Accepted64 list baseRva index ∨ Holds (parser.rangeStart list index) (parser.rangeSize64 list index) addr

def Search64Sound (R : MemoryRange → Prop) : Prop :=
  ∀ index, index < visited list → (∀ before, before < index → ¬parser.EndsSearch64 list baseRva addr before) →
    list.at_ 16 index + 16 ≤ parser.dataSp.size ∧ (parser.Accepted64 list baseRva index →
        Holds (parser.rangeStart list index) (parser.rangeSize64 list index) addr →
        R ⟨parser.rangeStart list index,
          ⟨(parser.rangeRva list baseRva index).toNat, (parser.rangeSize64 list index).toNat⟩⟩)

variable {parser list baseRva addr}

theorem slice_getData64 (offset size : UInt64) :
    slice parser.getData offset.toNat size.toNat = ⟨offset.toNat, size.toNat⟩ := by
  have small := offset.toNat_lt
  simp [slice, getData, DataBuffer.file]

theorem value_memory64Turn (index : Nat) :
    (parser.memory64Turn list addr index (parser.rangeRva list baseRva index)).value =
      if ¬parser.Accepted64 list baseRva index then .done none
      else if Holds (parser.rangeStart list index) (parser.rangeSize64 list index) addr then
        .done (some ⟨parser.rangeStart list index,
          ⟨(parser.rangeRva list baseRva index).toNat, (parser.rangeSize64 list index).toNat⟩⟩)
      else .next (parser.rangeRva list baseRva (index + 1)) := by
  unfold memory64Turn
  simp only [value_bind, slice_getData64, ← not_le]
  change value (if ¬parser.Accepted64 list baseRva index then _
    else if Holds (parser.rangeStart list index) (parser.rangeSize64 list index) addr then _ else _) = _
  split_ifs <;> rfl

theorem follows_memory64Turn : Traced.Follows (parser.memory64Turn list addr) (parser.rangeRva list baseRva)
      (parser.EndsSearch64 list baseRva addr) where
  stops := by
    intro index ends
    rw [value_memory64Turn]
    rcases ends with behind | holds
    · exact ⟨none, if_pos behind⟩
    · by_cases accepted : parser.Accepted64 list baseRva index
      · exact ⟨_, (if_neg (not_not.mpr accepted)).trans (if_pos holds)⟩
      · exact ⟨none, if_pos accepted⟩
  goesOn := by
    intro index goesOn
    obtain ⟨accepted, other⟩ := not_or.mp goesOn
    rw [value_memory64Turn, if_neg accepted, if_neg other]

theorem meets_memory64Turn {R : MemoryRange → Prop} {index : Nat} :
    (parser.memory64Turn list addr index (parser.rangeRva list baseRva index)).Meets (Access.InFile parser.dataSp)
        (Left (Found R)) ↔
      list.at_ 16 index + 16 ≤ parser.dataSp.size ∧ (parser.Accepted64 list baseRva index →
          Holds (parser.rangeStart list index) (parser.rangeSize64 list index) addr →
          R ⟨parser.rangeStart list index,
            ⟨(parser.rangeRva list baseRva index).toNat, (parser.rangeSize64 list index).toNat⟩⟩) := by
  unfold memory64Turn
  simp only [meets_bind, meets_field64, meets_ite, meets_pure, left_done, left_next, found_none,
    found_some, slice_getData64, implies_true, true_and, and_true, not_lt]
  change list.at_ 16 index + 8 ≤ _ ∧ list.at_ 16 index + 8 + 8 ≤ _ ∧ (parser.Accepted64 list baseRva index → _) ↔ _
  constructor
  · intro good
    exact ⟨good.2.1, good.2.2⟩
  · intro good
    have low := good.1
    exact ⟨by omega, low, good.2⟩

theorem meets_memory64Loop {R : MemoryRange → Prop} :
    (loop (parser.memory64Turn list addr) 0 (visited list) baseRva).Meets (Access.InFile parser.dataSp)
      (fun ending =>
        match ending with
        | .done range => Found R range
        | .next _ => True) ↔
    parser.Search64Sound list baseRva addr R := by
  change (loop _ 0 _ (parser.rangeRva list baseRva 0)).Meets _ _ ↔ _
  rw [meets_loop follows_memory64Turn 0 (visited list)]
  simp only [zero_le, forall_true_left, zero_add, implies_true, and_true]
  apply forall_congr'
  intro index
  exact forall_congr' fun _ => forall_congr' fun _ => meets_memory64Turn

end Memory64List

/-! Both lists. -/

/-- The count and the place of the memory are in the file, and so is what is come to. -/
def Memory64ListSound (location : LocationDescriptor) (addr : UInt64) (R : MemoryRange → Prop) : Prop :=
  let count := number64 parser.dataSp location.rva.toNat
  8 ≤ location.dataSize.toNat → location.rva.toNat + 8 ≤ parser.dataSp.size ∧
    ((count * 16).toNat ≤ location.dataSize.toNat - 8 → 16 ≤ location.dataSize.toNat →
      location.rva.toNat + 16 ≤ parser.dataSp.size ∧
        (count.toNat ≠ 0 → parser.Search64Sound ⟨location.rva.toNat + 16, count.toNat⟩
          (number64 parser.dataSp (location.rva.toNat + 8)) addr R))

def Memory64Sound (addr : UInt64) (R : MemoryRange → Prop) : Prop :=
  ∀ location, parser.located support StreamType.memory64List = some location → parser.Memory64ListSound location addr R

def MemorySound (addr : UInt64) (R : MemoryRange → Prop) : Prop :=
  match parser.located support StreamType.memoryList with
  | none => parser.Memory64Sound support addr R
  | some location =>
      let list := listOf MinidumpMemoryDescriptor.sizeof parser.dataSp location
      if location.dataSize = 0 then parser.Memory64Sound support addr R
      else CountInFile parser.dataSp location ∧ (list.count ≠ 0 → parser.SearchSound list addr R ∧
        ((∀ index, index < list.count → ¬parser.EndsSearch list addr index) → parser.Memory64Sound support addr R))

variable {support parser}

theorem meets_parseMemory64List {location : LocationDescriptor} {Q : ObjectList × UInt64 → Prop}
    (nothing : Q (.none_, 0)) :
    (MinidumpMemoryDescriptor64.parseMemory64List parser.dataSp location.bytes).Meets (Access.InFile parser.dataSp) Q ↔
      (8 ≤ location.dataSize.toNat → location.rva.toNat + 8 ≤ parser.dataSp.size ∧
        ((number64 parser.dataSp location.rva.toNat * 16).toNat ≤ location.dataSize.toNat - 8 →
          16 ≤ location.dataSize.toNat → location.rva.toNat + 16 ≤ parser.dataSp.size ∧
            Q (⟨location.rva.toNat + 16, (number64 parser.dataSp location.rva.toNat).toNat⟩,
              number64 parser.dataSp (location.rva.toNat + 8)))) := by
  unfold MinidumpMemoryDescriptor64.parseMemory64List
  rw [consumeObject_location]
  by_cases short : location.dataSize.toNat < 8
  · rw [if_pos short]
    simp [nothing, not_le.mpr short]
  · rw [if_neg short]
    simp only [not_lt.mp short, forall_true_left, meets_bind, meets_field64, meets_ite,
      meets_pure, nothing, implies_true, true_and, not_lt]
    apply and_congr_right'
    apply forall_congr'
    intro fits
    by_cases empty : location.dataSize.toNat < 16
    · have consumed : consumeObject ⟨location.rva.toNat + 8, location.dataSize.toNat - 8⟩ 8 = none :=
        if_pos (show location.dataSize.toNat - 8 < 8 by omega)
      rw [consumed]
      simp [nothing, not_le.mpr empty]
    · have consumed : consumeObject ⟨location.rva.toNat + 8, location.dataSize.toNat - 8⟩ 8 =
          some (location.rva.toNat + 8, ⟨location.rva.toNat + 16, location.dataSize.toNat - 16⟩) := by
        have rvaSmall := location.rva.toNat_lt
        have sizeSmall := location.dataSize.toNat_lt
        rw [consumeObject, if_neg (show ¬location.dataSize.toNat - 8 < 8 by omega),
          dropFront_of_le (by dsimp only; omega) (by dsimp only; omega) (by dsimp only; omega)]
        rfl
      rw [consumed]
      simp [not_lt.mp empty]

variable {R R' : MemoryRange → Prop}

theorem meets_searchMemory64 {list : ObjectList} {baseRva addr : UInt64} :
    (parser.searchMemory64 list baseRva addr).Meets (Access.InFile parser.dataSp) (Found R) ↔
      (list.count ≠ 0 → parser.Search64Sound list baseRva addr R) := by
  unfold searchMemory64
  by_cases empty : list.count = 0
  · rw [if_pos empty, meets_pure]
    simp [empty]
  · rw [if_neg empty, meets_bind, ← meets_memory64Loop]
    simp only [ne_eq, empty, not_false_eq_true, forall_true_left]
    apply meets_congr
    intro ending
    cases ending with
    | done range => exact meets_pure
    | next _ => exact meets_pure.trans (iff_of_true found_none trivial)

theorem meets_findMemoryRange64 {addr : UInt64} :
    (parser.findMemoryRange64 support addr).Meets (Access.InFile parser.dataSp) (Found R) ↔
      parser.Memory64Sound support addr R := by
  unfold findMemoryRange64 Memory64Sound
  rw [getStream_eq]
  cases parser.located support StreamType.memory64List with
  | none =>
      simp only [reduceCtorEq, false_implies, implies_true, iff_true]
      exact meets_pure.mpr found_none
  | some location =>
      simp only [Option.some.injEq, forall_eq']
      unfold Memory64ListSound
      change (if location.dataSize.toNat = 0 then _ else
        MinidumpMemoryDescriptor64.parseMemory64List parser.dataSp location.bytes >>= _).Meets _ _ ↔ _
      by_cases empty : location.dataSize.toNat = 0
      · rw [if_pos empty, empty]
        simp
      · have nothing : (parser.searchMemory64 .none_ 0 addr).Meets (Access.InFile parser.dataSp) (Found R) :=
          meets_searchMemory64.mpr fun some_ => absurd rfl some_
        rw [if_neg empty, meets_bind, meets_parseMemory64List nothing]
        simp [meets_searchMemory64]

theorem meets_findMemoryRange {addr : UInt64} :
    (parser.findMemoryRange support addr).Meets (Access.InFile parser.dataSp) (Found R) ↔
      parser.MemorySound support addr R := by
  unfold findMemoryRange MemorySound
  rw [getStream_eq]
  cases parser.located support StreamType.memoryList with
  | none => exact meets_findMemoryRange64
  | some location =>
      have none_ : location.dataSize.toNat = 0 ↔ location.dataSize = 0 := by
        rw [← UInt32.toNat_inj]
        rfl
      change (if location.dataSize.toNat = 0 then _ else
        parseList MinidumpMemoryDescriptor.sizeof parser.dataSp location.bytes >>= _).Meets _ _ ↔
        if location.dataSize = 0 then _ else _
      by_cases empty : location.dataSize = 0
      · rw [if_pos empty, if_pos (none_.mpr empty), meets_findMemoryRange64]
      · rw [if_neg empty, if_neg (empty ∘ none_.mp), meets_bind, meets_parseList]
        apply and_congr_right'
        generalize listOf MinidumpMemoryDescriptor.sizeof parser.dataSp location = list
        by_cases short : list.count = 0
        · rw [if_pos short, meets_pure]
          simp [short]
        · rw [if_neg short, meets_bind, ← meets_memoryLoop]
          simp only [ne_eq, short, not_false_eq_true, forall_true_left]
          apply meets_congr
          intro ending
          cases ending with
          | done range => exact meets_pure
          | next _ => exact meets_findMemoryRange64

theorem searchSound_congr {list : ObjectList} {addr : UInt64}
    (same : ∀ range, range.start ≤ addr → (R range ↔ R' range)) :
    parser.SearchSound list addr R ↔ parser.SearchSound list addr R' := by
  apply forall_congr'
  intro index
  apply forall_congr'
  intro _
  apply forall_congr'
  intro _
  apply and_congr_right'
  exact forall_congr' fun _ => forall_congr' fun holds => same _ holds.1

theorem search64Sound_congr {list : ObjectList} {baseRva addr : UInt64}
    (same : ∀ range, range.start ≤ addr → (R range ↔ R' range)) :
    parser.Search64Sound list baseRva addr R ↔ parser.Search64Sound list baseRva addr R' := by
  apply forall_congr'
  intro index
  apply forall_congr'
  intro _
  apply forall_congr'
  intro _
  apply and_congr_right'
  exact forall_congr' fun _ => forall_congr' fun holds => same _ holds.1

theorem memorySound_congr {addr : UInt64} (same : ∀ range, range.start ≤ addr → (R range ↔ R' range)) :
    parser.MemorySound support addr R ↔ parser.MemorySound support addr R' := by
  have second : parser.Memory64Sound support addr R ↔ parser.Memory64Sound support addr R' := by
    unfold Memory64Sound Memory64ListSound
    simp only [search64Sound_congr same]
  unfold MemorySound
  simp [searchSound_congr same, second]

theorem meets_getMemory {addr size : UInt64} : (parser.getMemory support addr size).Meets (Access.InFile parser.dataSp)
        (fun view => view.Within parser.dataSp.file) ↔
      parser.MemorySound support addr fun range => (range.part addr size).Within parser.dataSp.file := by
  have nothing : noBytes.Within parser.dataSp.file := within_file.mpr (Or.inl rfl)
  have taken : parser.MemorySound support addr (fun range => (range.part addr size).Within parser.dataSp.file) ↔
      parser.MemorySound support addr fun range =>
        range.start ≤ addr → (range.part addr size).Within parser.dataSp.file :=
    memorySound_congr fun range low => ⟨fun inside _ => inside, fun inside => inside low⟩
  rw [taken, ← meets_findMemoryRange]
  unfold getMemory
  rw [meets_bind]
  apply meets_congr
  intro found
  cases found with
  | none => exact meets_pure.trans (iff_of_true nothing found_none)
  | some range =>
      rw [found_some]
      change Traced.Meets (if addr < range.start ∨ (addr - range.start).toNat ≥ range.rangeRef.size then _ else
        pure (range.part addr size)) _ _ ↔ _
      by_cases below : addr < range.start
      · rw [if_pos (Or.inl below), meets_pure]
        exact iff_of_true nothing fun low => absurd below (UInt64.not_lt.mpr low)
      · have low : range.start ≤ addr := UInt64.not_lt.mp below
        simp only [low, forall_true_left]
        by_cases behind : (addr - range.start).toNat ≥ range.rangeRef.size
        · have empty : (range.part addr size).Within parser.dataSp.file := by
            refine within_file.mpr (Or.inl ?_)
            simp [Nat.sub_eq_zero_of_le behind]
          rw [if_pos (Or.inr behind), meets_pure]
          exact iff_of_true nothing empty
        · rw [if_neg (not_or.mpr ⟨below, behind⟩), meets_pure]

/-! The list of regions. -/

section Regions

variable (parser) (list : InfoList) (loadAddr : UInt64)

def regionHead (index : Nat) : UInt64 := number64 parser.dataSp (list.at_ index)

def RegionHolds (index : Nat) : Prop :=
  Holds (parser.regionHead list index) (number64 parser.dataSp (list.at_ index + 24)) loadAddr

instance (index : Nat) : Decidable (parser.RegionHolds list loadAddr index) :=
  inferInstanceAs (Decidable (Holds _ _ _))

def nextEntry : Nat → Option Nat
  | 0 => none
  | index + 1 =>
      if parser.regionHead list index > loadAddr then
        match nextEntry index with
        | none => some (list.at_ index)
        | some next => some (if parser.regionHead list index < number64 parser.dataSp next then list.at_ index else next)
      else nextEntry index

/-- The numbers of the entries that are come to are in the file: base and size, and for the entry that holds the
address its state and protection. -/
def RegionsInFile : Prop :=
  ∀ index, index < list.numOfEntries.toNat → (∀ before, before < index → ¬parser.RegionHolds list loadAddr before) →
    list.at_ index + (if parser.RegionHolds list loadAddr index then 40 else 32) ≤ parser.dataSp.size

variable {parser list loadAddr}

variable {index : Nat}

theorem nextEntry_mem {next : Nat} (found : parser.nextEntry list loadAddr index = some next) :
    ∃ before, before < index ∧ next = list.at_ before := by
  induction index with
  | zero => exact absurd found (by simp [nextEntry])
  | succ index ih =>
      unfold nextEntry at found
      split at found
      · cases former : parser.nextEntry list loadAddr index with
        | none =>
            rw [former] at found
            exact ⟨index, index.lt_succ_self, (Option.some.inj found).symm⟩
        | some other =>
            rw [former] at found
            have same := Option.some.inj found
            split at same
            · exact ⟨index, index.lt_succ_self, same.symm⟩
            · obtain ⟨before, low, at_⟩ := ih (former.trans (congrArg some same))
              exact ⟨before, by omega, at_⟩
      · obtain ⟨before, low, at_⟩ := ih found
        exact ⟨before, by omega, at_⟩

theorem value_nearerEntry {entry : Nat} {head : UInt64} {next : Option Nat} :
    (parser.nearerEntry entry head next).value = match next with
      | none => some entry
      | some next => some (if head < number64 parser.dataSp next then entry else next) := by
  cases next with
  | none => rfl
  | some next => rfl

theorem value_regionTurn (index : Nat) :
    (parser.regionTurn list loadAddr index (parser.nextEntry list loadAddr index)).value =
      if parser.RegionHolds list loadAddr index then
        .done (parser.regionInfo (list.at_ index) loadAddr (parser.regionHead list index)
          (parser.regionHead list index + number64 parser.dataSp (list.at_ index + 24))).value
      else .next (parser.nextEntry list loadAddr (index + 1)) := by
  unfold regionTurn
  simp only [value_bind]
  change value (if parser.RegionHolds list loadAddr index then _
    else if parser.regionHead list index > loadAddr then _ else _) = _
  rw [nextEntry]
  split_ifs
  · rfl
  · rw [← value_nearerEntry]
    rfl
  · rfl

theorem follows_regionTurn : Traced.Follows (parser.regionTurn list loadAddr) (parser.nextEntry list loadAddr)
    (parser.RegionHolds list loadAddr) where
  stops := by
    intro index holds
    rw [value_regionTurn, if_pos holds]
    exact ⟨_, rfl⟩
  goesOn := by
    intro index other
    rw [value_regionTurn, if_neg other]

theorem reads_nearerEntry {entry : Nat} {head : UInt64} {next : Option Nat} :
    (parser.nearerEntry entry head next).Meets (Access.InFile parser.dataSp) (fun _ => True) ↔
      ∀ other, next = some other → other + 8 ≤ parser.dataSp.size := by
  cases next with
  | none =>
      simp only [reduceCtorEq, false_implies, implies_true, iff_true]
      exact meets_pure.mpr trivial
  | some next =>
      simp [nearerEntry]

theorem reads_regionTurn :
    (parser.regionTurn list loadAddr index (parser.nextEntry list loadAddr index)).Meets (Access.InFile parser.dataSp)
        (fun _ => True) ↔
      list.at_ index + (if parser.RegionHolds list loadAddr index then 40 else 32) ≤ parser.dataSp.size ∧
        (¬parser.RegionHolds list loadAddr index → parser.regionHead list index > loadAddr →
          ∀ next, parser.nextEntry list loadAddr index = some next → next + 8 ≤ parser.dataSp.size) := by
  have inside : list.at_ index + 8 ≤ parser.dataSp.size ∧ list.at_ index + 24 + 8 ≤ parser.dataSp.size ↔
      list.at_ index + 32 ≤ parser.dataSp.size := by
    omega
  unfold regionTurn
  simp only [meets_bind, meets_field64]
  change _ ∧ _ ∧ Traced.Meets (if parser.RegionHolds list loadAddr index then _
    else if parser.regionHead list index > loadAddr then _ else _) _ _ ↔ _
  rw [← and_assoc, inside]
  by_cases holds : parser.RegionHolds list loadAddr index
  · rw [if_pos holds, if_pos holds]
    simp only [regionInfo, meets_bind, meets_field32, meets_pure, holds, not_true_eq_false, false_implies, and_true]
    omega
  · rw [if_neg holds, if_neg holds]
    apply and_congr_right'
    simp only [holds, not_false_eq_true, forall_true_left]
    by_cases behind : parser.regionHead list index > loadAddr
    · rw [if_pos behind]
      simp only [behind, forall_true_left, meets_bind, meets_pure]
      exact reads_nearerEntry
    · rw [if_neg behind, meets_pure]
      simp [behind]

theorem RegionsInFile.nextEntry_inFile (inFile : parser.RegionsInFile list loadAddr) {next : Nat}
    (bound : index ≤ list.numOfEntries.toNat)
    (others : ∀ before, before < index → ¬parser.RegionHolds list loadAddr before)
    (found : parser.nextEntry list loadAddr index = some next) : next + 8 ≤ parser.dataSp.size := by
  obtain ⟨before, low, rfl⟩ := nextEntry_mem found
  have entry := inFile before (by omega) fun earlier below => others earlier (by omega)
  rw [if_neg (others before low)] at entry
  omega

theorem reads_searchRegions : (parser.searchRegions list loadAddr).Meets (Access.InFile parser.dataSp) (fun _ => True) ↔
      parser.RegionsInFile list loadAddr := by
  unfold searchRegions
  rw [meets_bind]
  change (loop _ 0 _ (parser.nextEntry list loadAddr 0)).Meets _ _ ↔ _
  rw [meets_loop follows_regionTurn 0 list.numOfEntries.toNat]
  simp only [zero_le, forall_true_left, zero_add, meets_pure, implies_true, reads_regionTurn]
  constructor
  · intro good index bound others
    exact (good.1 index bound others).1
  · intro inFile
    refine ⟨fun index bound others => ⟨inFile index bound others, fun _ _ next found => ?_⟩, fun others => ?_⟩
    · exact inFile.nextEntry_inFile (by omega) others found
    · unfold regionGap
      cases found : parser.nextEntry list loadAddr list.numOfEntries.toNat with
      | none => exact meets_pure.mpr trivial
      | some next =>
          have base := inFile.nextEntry_inFile le_rfl others found
          rw [meets_bind, meets_field64]
          exact ⟨base, meets_pure.mpr trivial⟩

end Regions

section RegionList

variable (parser) (location : LocationDescriptor)

def sizeOfHeader : UInt32 := number32 parser.dataSp location.rva.toNat

def infoList : InfoList :=
  ⟨location.rva.toNat + (parser.sizeOfHeader location).toNat, number32 parser.dataSp (location.rva.toNat + 4),
    number64 parser.dataSp (location.rva.toNat + 8)⟩

/-- The product of the size and the number of the entries, and the size of what is behind the header, are
64-bit numbers: that of the latter is huge if the header ends behind the stream. -/
def InfoListAccepted : Prop :=
  ((parser.infoList location).sizeOfEntry.toUInt64 * (parser.infoList location).numOfEntries).toNat ≤
    (location.dataSize.toNat - 16 + 2 ^ 64 - ((parser.sizeOfHeader location).toNat - 16)) % 2 ^ 64

/-- The numbers of the header that are looked at, and those of the entries that are come to, are in the file. -/
def RegionListSound (loadAddr : UInt64) : Prop :=
  16 ≤ location.dataSize.toNat → location.rva.toNat + 4 ≤ parser.dataSp.size ∧
    (16 ≤ (parser.sizeOfHeader location).toNat → location.rva.toNat + 8 ≤ parser.dataSp.size ∧
      (48 ≤ (parser.infoList location).sizeOfEntry.toNat → location.rva.toNat + 16 ≤ parser.dataSp.size ∧
        (parser.InfoListAccepted location → (parser.infoList location).numOfEntries ≠ 0 →
          parser.RegionsInFile (parser.infoList location) loadAddr)))

variable (support)

def RegionSound (loadAddr : UInt64) : Prop :=
  ∀ location, parser.located support StreamType.memoryInfoList = some location →
    parser.RegionListSound location loadAddr

variable {support parser location}

theorem meets_parseMemoryInfoList {Q : InfoList → Prop} (nothing : Q .none_) :
    (MinidumpMemoryInfo.parseMemoryInfoList parser.dataSp location.bytes).Meets (Access.InFile parser.dataSp) Q ↔
      (16 ≤ location.dataSize.toNat → location.rva.toNat + 4 ≤ parser.dataSp.size ∧
        (16 ≤ (parser.sizeOfHeader location).toNat → location.rva.toNat + 8 ≤ parser.dataSp.size ∧
          (48 ≤ (parser.infoList location).sizeOfEntry.toNat → location.rva.toNat + 16 ≤ parser.dataSp.size ∧
            (parser.InfoListAccepted location → Q (parser.infoList location))))) := by
  have rvaSmall := location.rva.toNat_lt
  have headerSmall := (parser.sizeOfHeader location).toNat_lt
  unfold MinidumpMemoryInfo.parseMemoryInfoList
  rw [consumeObject_location]
  unfold MinidumpMemoryInfoListHeader.sizeof MinidumpMemoryInfo.sizeof
  by_cases short : location.dataSize.toNat < 16
  · rw [if_pos short]
    simp [nothing, not_le.mpr short]
  · rw [if_neg short]
    simp only [not_lt.mp short, forall_true_left, meets_bind, meets_field32]
    apply and_congr_right'
    change Traced.Meets (if (parser.sizeOfHeader location).toNat < 16 then _ else _) _ _ ↔ _
    by_cases shortHeader : (parser.sizeOfHeader location).toNat < 16
    · rw [if_pos shortHeader, meets_pure]
      simp [nothing, not_le.mpr shortHeader]
    · rw [if_neg shortHeader]
      simp only [not_lt.mp shortHeader, forall_true_left, meets_bind, meets_field32]
      change _ + 8 ≤ _ ∧ Traced.Meets (if (parser.infoList location).sizeOfEntry.toNat < 48 then _ else _) _ _ ↔ _
      by_cases shortEntry : (parser.infoList location).sizeOfEntry.toNat < 48
      · rw [if_pos shortEntry, meets_pure]
        simp [nothing, not_le.mpr shortEntry]
      · have rest : dropFront ⟨location.rva.toNat + 16, location.dataSize.toNat - 16⟩
            ((number32 parser.dataSp location.rva.toNat).toNat - 16) = ⟨(parser.infoList location).data,
              (location.dataSize.toNat - 16 + 2 ^ 64 - ((parser.sizeOfHeader location).toNat - 16)) % 2 ^ 64⟩ := by
          change (⟨(location.rva.toNat + 16 + ((parser.sizeOfHeader location).toNat - 16)) % 2 ^ 64, _⟩ : Window) =
            ⟨location.rva.toNat + (parser.sizeOfHeader location).toNat, _⟩
          congr 1
          omega
        simp only [meets_bind, meets_field64, rest, meets_ite,
          meets_pure, nothing, implies_true, true_and, not_lt]
        exact Iff.rfl

theorem reads_getMemoryRegionInfo {loadAddr : UInt64} :
    (parser.getMemoryRegionInfo support loadAddr).Meets (Access.InFile parser.dataSp) (fun _ => True) ↔
      parser.RegionSound support loadAddr := by
  unfold getMemoryRegionInfo RegionSound
  rw [getStream_eq]
  cases parser.located support StreamType.memoryInfoList with
  | none =>
      simp only [reduceCtorEq, false_implies, implies_true, iff_true]
      exact meets_pure.mpr trivial
  | some location =>
      simp only [Option.some.injEq, forall_eq']
      unfold RegionListSound
      change Traced.Meets (if location.dataSize.toNat = 0 then _ else
        MinidumpMemoryInfo.parseMemoryInfoList parser.dataSp location.bytes >>= _) _ _ ↔ _
      by_cases empty : location.dataSize.toNat = 0
      · rw [if_pos empty, meets_pure]
        simp [empty]
      · rw [if_neg empty, meets_bind, meets_parseMemoryInfoList (by
          exact meets_pure.mpr trivial)]
        simp [meets_ite, reads_searchRegions]

end RegionList

end MinidumpParser

end Minidump

end Lldb
