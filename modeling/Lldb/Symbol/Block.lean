import Lldb.Core.RangeVector
import Lldb.Library.LowerBound
import Mathlib.Data.List.Sort

/-! The blocks of a function, and how `SymbolFileDWARF::ParseFunctionBlocks` builds them from the
debugging information entries.

Ranges are offsets from the function's low address; both fields have 32 bits. While blocks are
built, the ranges of a block and of those around it are a list, the innermost first.
-/

set_option autoImplicit false

namespace Lldb

inductive Tag where
  | subprogram
  | inlinedSubroutine
  | lexicalBlock
  | other
  deriving DecidableEq, Repr

/-- An entry with the addresses that `GetDIENamesAndRanges` gives. -/
inductive Die where
  | mk (tag : Tag) (ranges : List Range) (children : List Die)

/-- `Block`: its ranges and its children. -/
inductive Block where
  | mk (entries : List Range) (children : List Block)

namespace Block

def rangeEnd (range : Range) : Nat := (range.base + range.size) % 2 ^ 32

def rangeContains (range : Range) (offset : Nat) : Bool := range.base ≤ offset && offset < rangeEnd range

def containsEndInclusive (range : Range) (offset : Nat) : Bool := range.base ≤ offset && offset ≤ rangeEnd range

def containsRange (range other : Range) : Bool :=
  rangeContains range other.base && containsEndInclusive range (rangeEnd other)

def doesAdjoinOrIntersect (left right : Range) : Bool := left.base ≤ rangeEnd right && rangeEnd left ≥ right.base

def setRangeEnd (range : Range) (stop : Nat) : Range := { range with size := if stop > range.base then stop - range.base else 0 }

/-- `Sort`, by `operator<` and stable. -/
def sort (entries : List Range) : List Range := entries.insertionSort fun left right => ¬ right.lt left

/-- The entries from the last one of `minimal_ranges` on; a range is compared with the one before it. -/
def combineFrom (back prev : Range) : List Range → List Range
  | [] => [back]
  | pos :: rest =>
    if doesAdjoinOrIntersect prev pos then
      combineFrom (setRangeEnd back (max (rangeEnd prev) (rangeEnd pos))) pos rest
    else back :: combineFrom pos pos rest

/-- The loop that finds out whether anything can be combined has no effect of its own. -/
def combineConsecutiveRanges : List Range → List Range
  | [] => []
  | first :: rest => combineFrom first first rest

def finalizeRanges (entries : List Range) : List Range := combineConsecutiveRanges (sort entries)

/-- The entry at the position of `std::lower_bound` by base, or the one before it. -/
def findEntry (entries : List Range) (base : Nat) (test : Range → Bool) : Option Range :=
  let position := Library.lowerBound (fun index => entries[index]?.any (·.base < base)) entries.length
  match entries[position]?.filter test with
  | some entry => some entry
  | none => if position = 0 then none else entries[position - 1]?.filter test

def findEntryThatContains (entries : List Range) (offset : Nat) : Option Range :=
  findEntry entries (offset % 2 ^ 32) (rangeContains · (offset % 2 ^ 32))

def findEntryThatContainsRange (entries : List Range) (range : Range) : Option Range :=
  findEntry entries range.base (containsRange · range)

/-- `Contains`, which takes a 64-bit offset. -/
def contains (entries : List Range) (offset : Nat) : Bool := (findEntryThatContains entries offset).isSome

/-- `AddRange` on the ranges of a block and of those around it. -/
def addRange : List (List Range) → Range → List (List Range)
  | [], _ => []
  | [entries], range => [entries ++ [range]]
  | entries :: parent :: outer, range =>
    (entries ++ [range]) ::
      if (findEntryThatContainsRange parent range).isSome then parent :: outer else addRange (parent :: outer) range

def finalize : List (List Range) → List (List Range)
  | [] => []
  | entries :: outer => finalizeRanges entries :: outer

/-- The ranges of an entry that are added, as offsets; an error is reported for the others. -/
def offsets (lowPc : Nat) (ranges : List Range) : List Range :=
  (ranges.filter fun range => range.base ≥ lowPc).map fun range => ⟨(range.base - lowPc) % 2 ^ 32, range.size % 2 ^ 32⟩

mutual

def parseBlocks (lowPc : Nat) (outer : List (List Range)) : List Die → List (List Range) × List Block
  | [] => (outer, [])
  | die :: siblings =>
    match parseBlock lowPc outer die with
    | (outer, none) => parseBlocks lowPc outer siblings
    | (outer, some block) =>
      let (outer, blocks) := parseBlocks lowPc outer siblings
      (outer, block :: blocks)

def parseBlock (lowPc : Nat) (outer : List (List Range)) : Die → List (List Range) × Option Block
  | .mk .subprogram _ _ | .mk .other _ _ => (outer, none)
  | .mk .inlinedSubroutine ranges children | .mk .lexicalBlock ranges children =>
    if ranges = [] then (outer, some (.mk [] []))
    else
      let added := finalize ((offsets lowPc ranges).foldl addRange ([] :: outer))
      let (all, blocks) := parseBlocks lowPc added children
      (all.tail, some (.mk (all.headD []) blocks))

end

/-- `GetMinRangeBase(0)`. -/
def getMinRangeBase (ranges : List Range) : Nat := (ranges.head?.map Range.base).getD 0

/-- The block of a function after depth zero. The inlined instance of a function is a block in it. -/
def parseFunctionBlocks : Die → Block
  | .mk .subprogram ranges children =>
    if ranges = [] then .mk [] []
    else
      let lowPc := getMinRangeBase ranges
      let (all, blocks) := parseBlocks lowPc (finalize ((offsets lowPc ranges).foldl addRange [[]])) children
      .mk (all.headD []) blocks
  | .mk .other _ _ => .mk [] []
  | .mk .lexicalBlock ranges children =>
    let (all, block) := parseBlock invalidAddress [[]] (.mk .lexicalBlock ranges children)
    .mk (all.headD []) block.toList
  | .mk .inlinedSubroutine ranges children =>
    let (all, block) := parseBlock (getMinRangeBase ranges) [[]] (.mk .inlinedSubroutine ranges children)
    .mk (all.headD []) block.toList

end Block

end Lldb

/-! The ranges of one block: when the binary search finds every range that contains an offset, and
what sorting, combining and appending do to it.
-/

namespace Lldb.Block

open Library (Window)
open Option List

def stop (range : Range) : Nat := range.base + range.size

def Fits (entries : List Range) : Prop := ∀ range ∈ entries, stop range < 2 ^ 32

variable {range : Range} {entries : List Range}

theorem rangeEnd_eq (fits : stop range < 2 ^ 32) : rangeEnd range = stop range := Nat.mod_eq_of_lt fits

/-- What may stand before what: bases and ends rise, and an empty range hides no other. -/
def Before (left right : Range) : Prop :=
  left.base ≤ right.base ∧ stop left ≤ stop right ∧ (left.base = right.base → left.size = 0 → right.size = 0)

abbrev Ordered (entries : List Range) : Prop := entries.Pairwise Before

def covered (entries : List Range) : Set Nat := { offset | ∃ range ∈ entries, offset ∈ range.window }

theorem rangeContains_iff (fits : stop range < 2 ^ 32) {offset : Nat} :
    rangeContains range offset = true ↔ offset ∈ range.window := by
  rw [rangeContains, rangeEnd_eq fits, Bool.and_eq_true, decide_eq_true_eq, decide_eq_true_eq]
  rfl

theorem containsRange_iff {other : Range} (fits : stop range < 2 ^ 32) (otherFits : stop other < 2 ^ 32) :
    containsRange range other = true ↔ other.base ∈ range.window ∧ stop other ≤ stop range := by
  rw [containsRange, Bool.and_eq_true, rangeContains_iff fits, containsEndInclusive, rangeEnd_eq fits,
    rangeEnd_eq otherFits, Bool.and_eq_true, decide_eq_true_eq, decide_eq_true_eq]
  have forward : other.base ≤ stop other := Nat.le_add_right _ _
  constructor
  · exact fun ⟨inside, _, small⟩ => ⟨inside, small⟩
  · exact fun ⟨inside, small⟩ => ⟨inside, inside.1.trans forward, small⟩

/-! The search. -/

theorem findEntry_mem {base : Nat} {test : Range → Bool}
    (found : findEntry entries base test = some range) : range ∈ entries ∧ test range = true := by
  unfold findEntry at found
  simp only at found
  split at found
  · cases found
    obtain ⟨there, holds⟩ := filter_eq_some_iff.mp ‹_›
    exact ⟨mem_of_getElem? there, holds⟩
  · split at found
    · cases found
    · obtain ⟨there, holds⟩ := filter_eq_some_iff.mp found
      exact ⟨mem_of_getElem? there, holds⟩

theorem position_spec (ordered : Ordered entries) (base : Nat) :
    let position := Library.lowerBound (fun index => entries[index]?.any (·.base < base)) entries.length
    position ≤ entries.length ∧
      ∀ index range, entries[index]? = some range → (range.base < base ↔ index < position) := by
  have down : ∀ earlier position, earlier ≤ position → position < entries.length →
      entries[position]?.any (·.base < base) = true → entries[earlier]?.any (·.base < base) = true := by
    intro earlier position reached small holds
    have before : earlier < entries.length := by omega
    rw [getElem?_eq_getElem small, any_some, decide_eq_true_eq] at holds
    rw [getElem?_eq_getElem before, any_some, decide_eq_true_eq]
    rcases eq_or_lt_of_le reached with rfl | less
    · exact holds
    · exact (pairwise_iff_getElem.mp ordered earlier position before small less).1.trans_lt holds
  obtain ⟨inside, splits⟩ := Library.lowerBound_spec down
  refine ⟨inside, fun index range there => ?_⟩
  have tested := splits index (List.getElem?_eq_some_iff.mp there).1
  rw [there, any_some, decide_eq_true_eq] at tested
  exact tested

/-- What a range before the position and one behind it have in common with the entries looked at. -/
theorem findEntry_isSome (ordered : Ordered entries) {base : Nat} {test : Range → Bool} (there : range ∈ entries)
    (left : range.base < base → ∀ other ∈ entries, stop range ≤ stop other → other.base < base → test other = true)
    (right : base ≤ range.base → ∀ other ∈ entries, base ≤ other.base → Before other range ∨ other = range → test other = true) :
    (findEntry entries base test).isSome = true := by
  obtain ⟨inside, splits⟩ := position_spec ordered base
  obtain ⟨index, found⟩ := mem_iff_getElem?.mp there
  have bound := (List.getElem?_eq_some_iff.mp found).1
  unfold findEntry
  simp only at inside splits ⊢
  generalize Library.lowerBound (fun index => entries[index]?.any (·.base < base)) entries.length = position at inside splits ⊢
  by_cases early : range.base < base
  · have before := (splits index range found).mp early
    have last : position - 1 < entries.length := by omega
    have small := (splits (position - 1) _ (getElem?_eq_getElem last)).mpr (by omega)
    have passes : test entries[position - 1] = true := by
      apply left early _ (getElem_mem last) ?_ small
      rcases eq_or_lt_of_le (show index ≤ position - 1 by omega) with rfl | less
      · rw [getElem?_eq_getElem bound, some_inj] at found
        rw [found]
      · rw [getElem?_eq_getElem bound, some_inj] at found
        subst found
        exact (pairwise_iff_getElem.mp ordered index (position - 1) bound last less).2.1
    cases entries[position]?.filter test with
    | some entry => rfl
    | none =>
      rw [if_neg (by omega), getElem?_eq_getElem last, filter_some_pos passes]
      rfl
  · have behind : position ≤ index := by
      by_contra before
      exact early ((splits index range found).mpr (by omega))
    have here : position < entries.length := by omega
    have large : base ≤ (entries[position]).base := by
      by_contra small
      have := (splits position _ (getElem?_eq_getElem here)).mp (by omega)
      omega
    have passes : test entries[position] = true := by
      apply right (by omega) _ (getElem_mem here) large
      rw [getElem?_eq_getElem bound, some_inj] at found
      subst found
      rcases eq_or_lt_of_le behind with same | less
      · right
        simp [same]
      · left
        exact pairwise_iff_getElem.mp ordered position index here bound less
    rw [getElem?_eq_getElem here, filter_some_pos passes]
    rfl

theorem contains_iff (ordered : Ordered entries) (fits : Fits entries) {offset : Nat}
    (small : offset < 2 ^ 32) : contains entries offset = true ↔ offset ∈ covered entries := by
  unfold contains findEntryThatContains
  rw [Nat.mod_eq_of_lt small]
  constructor
  · intro some_
    obtain ⟨range, found⟩ := isSome_iff_exists.mp some_
    obtain ⟨there, holds⟩ := findEntry_mem found
    exact ⟨range, there, (rangeContains_iff (fits range there)).mp holds⟩
  · rintro ⟨range, there, inside⟩
    rw [Range.window, Window.mem_mk] at inside
    apply findEntry_isSome ordered there
    · intro _ other member far near
      rw [rangeContains_iff (fits other member), Range.window, Window.mem_mk]
      unfold stop at far
      omega
    · intro late other member reached before
      rw [rangeContains_iff (fits other member), Range.window, Window.mem_mk]
      rcases before with ⟨bases, -, empty⟩ | rfl
      · omega
      · exact inside

theorem within_of_contains (fits : Fits entries) (rangeFits : stop range < 2 ^ 32)
    (found : (findEntryThatContainsRange entries range).isSome = true) :
    ∃ entry ∈ entries, range.base ∈ entry.window ∧ stop range ≤ stop entry := by
  obtain ⟨entry, found⟩ := isSome_iff_exists.mp found
  obtain ⟨there, holds⟩ := findEntry_mem found
  exact ⟨entry, there, (containsRange_iff (fits entry there) rangeFits).mp holds⟩

theorem stop_le_of_not_contains (ordered : Ordered entries) (fits : Fits entries)
    (rangeFits : stop range < 2 ^ 32) (missing : ¬ (findEntryThatContainsRange entries range).isSome = true)
    {entry : Range} (there : entry ∈ entries) (before : entry.base < range.base) : stop entry ≤ stop range := by
  by_contra longer
  apply missing
  apply findEntry_isSome ordered there
  · intro _ other member far near
    rw [containsRange_iff (fits other member) rangeFits, Range.window, Window.mem_mk]
    unfold stop at far longer ⊢
    omega
  · intro late
    omega

/-- What a range must be to be appended: not less than the last one, and not where that one is empty. -/
def Follows (entries : List Range) (range : Range) : Prop :=
  ∀ last ∈ entries.getLast?, range.lt last = false ∧ (last.base = range.base → last.size = 0 → range.size = 0)

instance (entries : List Range) (range : Range) : Decidable (Follows entries range) := by
  unfold Follows
  infer_instance

theorem lt_eq_false {left right : Range} :
    left.lt right = false ↔ right.base < left.base ∨ right.base = left.base ∧ right.size ≤ left.size := by
  unfold Range.lt
  split
  · rw [decide_eq_false_iff_not]
    omega
  · rw [decide_eq_false_iff_not]
    omega

theorem ordered_append (ordered : Ordered entries) (fits : Fits entries)
    (rangeFits : stop range < 2 ^ 32) (missing : ¬ (findEntryThatContainsRange entries range).isSome = true)
    (follows : Follows entries range) : Ordered (entries ++ [range]) := by
  rcases eq_nil_or_concat entries with rfl | ⟨front, last, rfl⟩
  · exact pairwise_singleton _ _
  · rw [concat_eq_append] at *
    obtain ⟨ends, empty⟩ := follows last (by rw [getLast?_concat]; rfl)
    have behind : Before last range := by
      rcases lt_eq_false.mp ends with less | ⟨same, sizes⟩
      · have stops := stop_le_of_not_contains ordered fits rangeFits missing
          (mem_append_right _ mem_cons_self) less
        exact ⟨less.le, stops, fun same => absurd same (by omega)⟩
      · refine ⟨same.le, ?_, empty⟩
        unfold stop
        omega
    rw [Ordered, pairwise_append]
    refine ⟨ordered, pairwise_singleton _ _, ?_⟩
    intro entry there other member
    rw [mem_singleton] at member
    subst member
    rcases mem_append.mp there with inFront | isLast
    · obtain ⟨bases, stops, hides⟩ := (pairwise_append.mp ordered).2.2 entry inFront last mem_cons_self
      exact ⟨bases.trans behind.1, stops.trans behind.2.1, fun same zero =>
        empty (by have := behind.1; omega) (hides (by have := behind.1; omega) zero)⟩
    · rw [mem_singleton] at isLast
      subst isLast
      exact behind

theorem covered_append (entries : List Range) (range : Range) :
    covered (entries ++ [range]) = covered entries ∪ { offset | offset ∈ range.window } := by
  ext offset
  simp [covered]

/-! Sorting and combining. -/

/-- Each range begins behind all before it, or not behind the one directly before it, where one of
these two reaches as far as all before: `reach` is the end of those before, `prev` the last of them.
-/
def Tidy (reach : Nat) (prev : Range) : List Range → Prop
  | [] => True
  | pos :: rest =>
    (reach < pos.base ∨ pos.base ≤ stop prev ∧ reach ≤ max (stop prev) (stop pos)) ∧ Tidy (max reach (stop pos)) pos rest

instance decidableTidy (reach : Nat) (prev : Range) : (rest : List Range) → Decidable (Tidy reach prev rest)
  | [] => .isTrue trivial
  | pos :: rest =>
    have := decidableTidy (max reach (stop pos)) pos rest
    inferInstanceAs (Decidable (_ ∧ _))

def TidyAll : List Range → Prop
  | [] => True
  | first :: rest => Tidy (stop first) first rest

instance (entries : List Range) : Decidable (TidyAll entries) := by
  cases entries <;> unfold TidyAll <;> infer_instance

theorem stop_setRangeEnd {finish : Nat} (later : range.base ≤ finish) : stop (setRangeEnd range finish) = finish := by
  unfold stop setRangeEnd
  split
  · simp only
    omega
  · simp only
    omega

theorem covered_cons (range : Range) (entries : List Range) :
    covered (range :: entries) = { offset | offset ∈ range.window } ∪ covered entries := by
  ext offset
  simp [covered]

theorem combineFrom_spec {back prev : Range} {rest : List Range} (fits : Fits (prev :: rest)) (backFits : stop back < 2 ^ 32)
    (sorted : (prev :: rest).Pairwise (·.base ≤ ·.base)) (starts : back.base ≤ prev.base) (reaches : stop prev ≤ stop back)
    (tidy : Tidy (stop back) prev rest) :
    covered (combineFrom back prev rest) = covered (back :: rest) ∧ Fits (combineFrom back prev rest) ∧
      Ordered (combineFrom back prev rest) ∧ ∀ entry ∈ combineFrom back prev rest, back.base ≤ entry.base := by
  induction rest generalizing back prev with
  | nil =>
    refine ⟨rfl, ?_, pairwise_singleton _ _, ?_⟩
    · intro entry there
      rw [mem_singleton.mp there]
      exact backFits
    · intro entry there
      rw [mem_singleton.mp there]
  | cons pos rest ih =>
    obtain ⟨here, later⟩ := tidy
    have prevFits := fits prev mem_cons_self
    have posFits := fits pos (mem_cons_of_mem _ mem_cons_self)
    have restFits : Fits (pos :: rest) := fun entry there => fits entry (mem_cons_of_mem _ there)
    have restSorted := (pairwise_cons.mp sorted).2
    have bases : prev.base ≤ pos.base := (pairwise_cons.mp sorted).1 pos mem_cons_self
    have forward : pos.base ≤ stop pos := Nat.le_add_right _ _
    have backForward : back.base ≤ stop back := Nat.le_add_right _ _
    have adjoins : doesAdjoinOrIntersect prev pos = true ↔ pos.base ≤ stop prev := by
      rw [doesAdjoinOrIntersect, rangeEnd_eq prevFits, rangeEnd_eq posFits, Bool.and_eq_true, decide_eq_true_eq,
        decide_eq_true_eq]
      omega
    rw [combineFrom, rangeEnd_eq prevFits, rangeEnd_eq posFits]
    rcases here with behind | ⟨near, most⟩
    · -- a range behind all before it begins an entry of its own
      have apart : ¬ doesAdjoinOrIntersect prev pos = true := by
        rw [adjoins]
        omega
      rw [if_neg apart]
      have tail : Tidy (stop pos) pos rest := by rwa [max_eq_right (by omega)] at later
      obtain ⟨covers, allFit, ordered, starts'⟩ := ih restFits posFits restSorted le_rfl le_rfl tail
      refine ⟨?_, ?_, ?_, ?_⟩
      · simp [covered_cons, covers]
      · exact forall_mem_cons.mpr ⟨backFits, allFit⟩
      · refine pairwise_cons.mpr ⟨fun entry there => ?_, ordered⟩
        have bound := starts' entry there
        refine ⟨by omega, ?_, fun same => absurd same (by omega)⟩
        unfold stop at behind ⊢
        omega
      · refine forall_mem_cons.mpr ⟨le_rfl, fun entry there => ?_⟩
        have bound := starts' entry there
        omega
    · rw [if_pos (adjoins.mpr near)]
      have joined : stop (setRangeEnd back (max (stop prev) (stop pos))) = max (stop back) (stop pos) := by
        rw [stop_setRangeEnd (by omega)]
        omega
      have joinedFits : stop (setRangeEnd back (max (stop prev) (stop pos))) < 2 ^ 32 := by
        rw [joined]
        omega
      rw [← joined] at later
      obtain ⟨covers, allFit, ordered, starts'⟩ :=
        ih restFits joinedFits restSorted (starts.trans bases) (by rw [joined]; exact le_max_right _ _) later
      refine ⟨?_, allFit, ordered, starts'⟩
      rw [covers, covered_cons, covered_cons, covered_cons, ← Set.union_assoc]
      congr 1
      ext offset
      have base : (setRangeEnd back (max (stop prev) (stop pos))).base = back.base := rfl
      simp only [Set.mem_ofPred_eq, Set.mem_union, Range.window, Window.mem_mk]
      change (back.base ≤ offset ∧ offset < stop (setRangeEnd back (max (stop prev) (stop pos)))) ↔
        (back.base ≤ offset ∧ offset < stop back) ∨ pos.base ≤ offset ∧ offset < stop pos
      rw [joined]
      omega

instance : Std.Total fun left right : Range => ¬ right.lt left := ⟨fun left right => by
  simp only [Bool.not_eq_true, lt_eq_false]
  omega⟩

instance : IsTrans Range fun left right : Range => ¬ right.lt left := ⟨fun first second third => by
  simp only [Bool.not_eq_true, lt_eq_false]
  omega⟩

theorem covered_congr {others : List Range} (same : ∀ range, range ∈ entries ↔ range ∈ others) :
    covered entries = covered others := by
  ext offset
  simp [covered, same]

theorem finalizeRanges_spec {ranges : List Range} (fits : Fits ranges) (tidy : TidyAll (sort ranges)) :
    covered (finalizeRanges ranges) = covered ranges ∧ Fits (finalizeRanges ranges) ∧ Ordered (finalizeRanges ranges) := by
  have perm : (sort ranges).Perm ranges := perm_insertionSort _ ranges
  have sorted : (sort ranges).Pairwise (·.base ≤ ·.base) := by
    refine (pairwise_insertionSort (fun left right : Range => ¬ right.lt left) ranges).imp fun {left right} order => ?_
    simp only [Bool.not_eq_true, lt_eq_false] at order
    omega
  have sortedFits : Fits (sort ranges) := fun range there => fits range (perm.mem_iff.mp there)
  rw [← covered_congr fun range => perm.mem_iff, finalizeRanges]
  cases sorts : sort ranges with
  | nil => exact ⟨rfl, nofun, List.Pairwise.nil⟩
  | cons first rest =>
    rw [sorts] at tidy sorted sortedFits
    obtain ⟨covers, allFit, ordered, -⟩ :=
      combineFrom_spec sortedFits (sortedFits first mem_cons_self) sorted le_rfl le_rfl tidy
    exact ⟨covers, allFit, ordered⟩

end Lldb.Block
