import Lldb.Core.CombinedRanges
import Lldb.Core.RangeDataArray
import Mathlib.Data.List.Chain

/-! Vectors of ranges with data, and `CombineConsecutiveEntriesWithEqualData`.

Entries that follow one another with the same data are a run. What becomes of a run is told by its first and its
last entry.
-/

set_option autoImplicit false

namespace Lldb

open List

/-- Sizes have `width` bits. -/
structure RangeDataVector (width : Nat) (T : Type) where
  entries : List (RangeData T)
  deriving DecidableEq, Repr

namespace RangeDataVector

variable {width : Nat} {T : Type}

def sort (less : T → T → Bool) (vector : RangeDataVector width T) : RangeDataVector width T :=
  ⟨(RangeDataArray.sort less ⟨vector.entries⟩).entries⟩

/-- The entries that begin below the address; of those directly before the others that have it, the first one. -/
def findEntryThatContains (vector : RangeDataVector width T) (address : Nat) : Option (RangeData T) :=
  let lower := vector.entries.takeWhile fun entry => entry.range.base < address
  let upper := vector.entries.dropWhile fun entry => entry.range.base < address
  match (lower.reverse.takeWhile (·.range.contains address)).getLast? with
  | some entry => some entry
  | none => upper.head?.filter (·.range.contains address)

def setRangeEnd (width : Nat) (entry : RangeData T) (rangeEnd : Nat) : RangeData T :=
  { entry with range := entry.range.setRangeEnd width rangeEnd }

theorem setRangeEnd_setRangeEnd (width : Nat) (entry : RangeData T) (before rangeEnd : Nat) :
    setRangeEnd width (setRangeEnd width entry before) rangeEnd = setRangeEnd width entry rangeEnd := by
  have base : (entry.range.setRangeEnd width before).base = entry.range.base := by
    unfold Range.setRangeEnd
    split <;> rfl
  unfold setRangeEnd
  rw [Range.setRangeEnd, base]
  rfl

variable [DecidableEq T]

def canCombine : List (RangeData T) → Bool
  | prev :: pos :: rest => decide (prev.data = pos.data) || canCombine (pos :: rest)
  | [_] | [] => false

/-- The entry before in the old list decides; the end is set in the last entry of the new one. -/
def minimalRanges (width : Nat) (minimal : List (RangeData T)) (prev : Option (RangeData T)) :
    List (RangeData T) → List (RangeData T)
  | [] => minimal
  | pos :: rest =>
    match prev.filter (·.data = pos.data), minimal.getLast? with
    | some _, some back =>
      minimalRanges width (minimal.dropLast ++ [setRangeEnd width back pos.range.rangeEnd]) (some pos) rest
    | _, _ => minimalRanges width (minimal ++ [pos]) (some pos) rest

def combineConsecutiveEntriesWithEqualData (vector : RangeDataVector width T) : RangeDataVector width T :=
  ⟨if canCombine vector.entries then minimalRanges width [] none vector.entries else vector.entries⟩

/-! Runs. -/

structure Run (T : Type) where
  first : RangeData T
  rest : List (RangeData T)

namespace Run

def entries (run : Run T) : List (RangeData T) := run.first :: run.rest

/-- Where a run ends: at the end of its last entry, with the size cut to its bits where there are several. -/
def reach (width : Nat) (run : Run T) : Nat :=
  match run.rest.getLast? with
  | none => run.first.range.rangeEnd
  | some last => run.first.range.base + (last.range.rangeEnd - run.first.range.base) % 2 ^ width

def merged (width : Nat) (run : Run T) : RangeData T :=
  match run.rest.getLast? with
  | none => run.first
  | some last => setRangeEnd width run.first last.range.rangeEnd

omit [DecidableEq T] in
theorem base_merged (run : Run T) : (run.merged width).range.base = run.first.range.base := by
  unfold merged
  split
  · rfl
  · unfold setRangeEnd Range.setRangeEnd
    split <;> rfl

omit [DecidableEq T] in
theorem data_merged (run : Run T) : (run.merged width).data = run.first.data := by
  unfold merged
  split <;> rfl

omit [DecidableEq T] in
theorem contains_merged (run : Run T) (address : Nat) :
    (run.merged width).range.contains address ↔ run.first.range.base ≤ address ∧ address < run.reach width := by
  unfold merged reach
  cases run.rest.getLast? with
  | none => exact Range.contains_iff
  | some last =>
    have bound : last.range.rangeEnd < 2 ^ 64 := Nat.mod_lt _ (Nat.two_pow_pos 64)
    dsimp only
    generalize last.range.rangeEnd = stop at bound ⊢
    have less := Nat.mod_le (stop - run.first.range.base) (2 ^ width)
    rw [Range.contains_iff]
    unfold setRangeEnd Range.setRangeEnd Range.rangeEnd
    split_ifs with above
    · dsimp only
      rw [Nat.mod_eq_of_lt (by omega)]
    · dsimp only
      omega

end Run

def runs : List (RangeData T) → List (Run T)
  | [] => []
  | first :: rest =>
      ⟨first, rest.takeWhile (·.data = first.data)⟩ :: runs (rest.dropWhile (·.data = first.data))
termination_by entries => entries.length
decreasing_by
  have less := (dropWhile_sublist (l := rest) (p := fun entry => decide (entry.data = first.data))).length_le
  rw [length_cons]
  omega

theorem flatMap_runs (entries : List (RangeData T)) : (runs entries).flatMap Run.entries = entries := by
  induction entries using runs.induct with
  | case1 =>
    rw [runs]
    rfl
  | case2 first rest ih =>
    simp [runs, ih, Run.entries]

theorem isChain_runs (entries : List (RangeData T)) :
    (runs entries).IsChain (fun run next => next.first.data ≠ run.first.data) ∧
      ∀ run ∈ runs entries, ∀ entry ∈ run.entries, entry.data = run.first.data := by
  induction entries using runs.induct with
  | case1 =>
    rw [runs]
    exact ⟨.nil, nofun⟩
  | case2 first rest ih =>
    rw [runs, isChain_cons, forall_mem_cons]
    refine ⟨⟨fun next head => ?_, ih.1⟩, ?_, ih.2⟩
    · cases behind : rest.dropWhile (·.data = first.data) with
      | nil =>
        rw [behind, runs] at head
        cases head
      | cons other more =>
        rw [behind, runs] at head
        cases head
        have stops := head?_dropWhile_not (fun entry : RangeData T => decide (entry.data = first.data)) rest
        rw [behind] at stops
        simpa using stops
    · intro entry member
      rcases mem_cons.mp member with rfl | later
      · rfl
      · have inside : entry ∈ rest.takeWhile (·.data = first.data) := later
        have holds := mem_takeWhile_imp inside
        exact of_decide_eq_true holds

def combineFrom (width : Nat) (back prev : RangeData T) : List (RangeData T) → List (RangeData T)
  | [] => [back]
  | pos :: rest =>
    if prev.data = pos.data then combineFrom width (setRangeEnd width back pos.range.rangeEnd) pos rest
    else back :: combineFrom width pos pos rest

theorem minimalRanges_eq (width : Nat) (front : List (RangeData T)) (back prev : RangeData T)
    (rest : List (RangeData T)) :
    minimalRanges width (front ++ [back]) (some prev) rest = front ++ combineFrom width back prev rest := by
  induction rest generalizing front back prev with
  | nil => rfl
  | cons pos rest ih =>
    rw [minimalRanges, combineFrom, getLast?_concat]
    by_cases same : prev.data = pos.data
    · rw [if_pos same, Option.filter_some, if_pos (decide_eq_true same), dropLast_concat]
      exact ih _ _ _
    · rw [if_neg same, Option.filter_some, if_neg (by simpa using same)]
      rw [ih, append_assoc, singleton_append]

theorem combineFrom_of_not (width : Nat) {prev : RangeData T} {rest : List (RangeData T)}
    (different : canCombine (prev :: rest) = false) : combineFrom width prev prev rest = prev :: rest := by
  induction rest generalizing prev with
  | nil => rfl
  | cons pos rest ih =>
    rw [canCombine, Bool.or_eq_false_iff, decide_eq_false_iff_not] at different
    rw [combineFrom, if_neg different.1, ih different.2]

theorem combineFrom_run (width : Nat) (first : RangeData T) (front rest : List (RangeData T))
    (same : ∀ entry ∈ front, entry.data = first.data) :
    combineFrom width (Run.merged width ⟨first, front⟩) (front.getLast?.getD first) rest =
      Run.merged width ⟨first, front ++ rest.takeWhile (·.data = first.data)⟩ ::
        match rest.dropWhile (·.data = first.data) with
        | [] => []
        | next :: more => combineFrom width next next more := by
  have last : (front.getLast?.getD first).data = first.data := by
    cases found : front.getLast? with
    | none => rfl
    | some entry => exact same entry (mem_of_getLast? found)
  induction rest generalizing front with
  | nil =>
    rw [takeWhile_nil, append_nil]
    rfl
  | cons pos rest ih =>
    rw [combineFrom, last]
    by_cases equal : pos.data = first.data
    · rw [if_pos equal.symm, takeWhile_cons_of_pos (by simpa using equal), dropWhile_cons_of_pos (by simpa using equal)]
      have step := ih (front ++ [pos]) (by
        rw [forall_mem_append]
        exact ⟨same, forall_mem_singleton.mpr equal⟩) (by rw [getLast?_concat]; exact equal)
      rw [append_assoc, getLast?_concat] at step
      refine Eq.trans (congrArg (fun back => combineFrom width back pos rest) ?_) step
      unfold Run.merged
      rw [getLast?_concat]
      cases front.getLast? with
      | none => rfl
      | some entry => exact setRangeEnd_setRangeEnd width first entry.range.rangeEnd pos.range.rangeEnd
    · rw [if_neg fun same => equal same.symm, takeWhile_cons_of_neg (by simpa using equal),
        dropWhile_cons_of_neg (by simpa using equal), append_nil]

theorem combine_eq (vector : RangeDataVector width T) :
    vector.combineConsecutiveEntriesWithEqualData.entries = (runs vector.entries).map (Run.merged width) := by
  have loop (first : RangeData T) (rest : List (RangeData T)) : combineFrom width first first rest =
      (runs (first :: rest)).map (Run.merged width) := by
    induction length : rest.length using Nat.strong_induction_on generalizing first rest with
    | _ length_ ih =>
      have whole := combineFrom_run width first [] rest nofun
      refine Eq.trans whole ?_
      rw [runs]
      cases behind : rest.dropWhile (·.data = first.data) with
      | nil =>
        rw [runs]
        rfl
      | cons next more =>
        have less := (dropWhile_sublist (l := rest) (p := fun entry => decide (entry.data = first.data))).length_le
        rw [behind, length_cons] at less
        exact congrArg _ (ih more.length (by omega) next more rfl)
  unfold combineConsecutiveEntriesWithEqualData
  cases listed : vector.entries with
  | nil =>
    rw [runs]
    rfl
  | cons first rest =>
    rw [← loop]
    split_ifs with can
    · exact minimalRanges_eq width [] first first rest
    · exact (combineFrom_of_not width (Bool.eq_false_iff.mpr can)).symm

/-! Lookups. -/

variable {entry : RangeData T} {address : Nat} {vector : RangeDataVector width T} {run : Run T}

omit [DecidableEq T] in
/-- An entry between those that begin below an address and do not have it and those that begin at it or above. -/
theorem findEntryThatContains_at {front back : List (RangeData T)}
    (before : ∀ other ∈ front, other.range.base < address ∧ ¬ other.range.contains address)
    (behind : ∀ other ∈ back, address ≤ other.range.base) :
    (⟨front ++ entry :: back⟩ : RangeDataVector width T).findEntryThatContains address =
      if entry.range.contains address then some entry
      else if entry.range.base < address then back.head?.filter (·.range.contains address) else none := by
  have low : ∀ other ∈ front, decide (other.range.base < address) = true :=
    fun other member => decide_eq_true (before other member).1
  have none_ : front.reverse.takeWhile (·.range.contains address) = [] := by
    cases reversed : front.reverse with
    | nil => rfl
    | cons other more =>
      have member : other ∈ front := mem_reverse.mp (reversed ▸ mem_cons_self)
      exact takeWhile_cons_of_neg (before other member).2
  unfold findEntryThatContains
  dsimp only
  rw [takeWhile_append_of_pos low, dropWhile_append_of_pos low]
  by_cases below : entry.range.base < address
  · have stops : back.takeWhile (fun other => decide (other.range.base < address)) = [] ∧
        back.dropWhile (fun other => decide (other.range.base < address)) = back := by
      cases back with
      | nil => exact ⟨rfl, rfl⟩
      | cons other more =>
        have high : ¬ decide (other.range.base < address) = true := by
          rw [decide_eq_true_eq, not_lt]
          exact behind other mem_cons_self
        rw [takeWhile_cons, if_neg high, dropWhile_cons, if_neg high]
        exact ⟨rfl, rfl⟩
    rw [takeWhile_cons, if_pos (decide_eq_true below), dropWhile_cons, if_pos (decide_eq_true below), stops.1,
      stops.2, reverse_append, reverse_singleton, singleton_append, if_pos below]
    by_cases inside : entry.range.contains address = true
    · simp [takeWhile_cons, if_pos inside, none_]
    · simp [takeWhile_cons, if_neg inside]
  · have high : ¬ decide (entry.range.base < address) = true := by rwa [decide_eq_true_eq]
    rw [takeWhile_cons, if_neg high, dropWhile_cons, if_neg high, append_nil, none_, if_neg below]
    change (some entry).filter (·.range.contains address) = _
    rw [Option.filter_some]

def Disjoint (entries : List (RangeData T)) : Prop :=
  entries.Pairwise fun left right => ∀ address, ¬ (left.range.contains address ∧ right.range.contains address)

def Ascending (entries : List (RangeData T)) : Prop :=
  entries.Pairwise fun left right => left.range.base ≤ right.range.base

omit [DecidableEq T] in
/-- The entries that begin below an address come first. -/
theorem Ascending.split {entries : List (RangeData T)} (ascending : Ascending entries) (address : Nat) :
    (∀ other ∈ entries.takeWhile (fun entry => decide (entry.range.base < address)), other.range.base < address) ∧
      ∀ other ∈ entries.dropWhile (fun entry => decide (entry.range.base < address)), address ≤ other.range.base := by
  have above : Ascending (entries.dropWhile fun entry => decide (entry.range.base < address)) :=
    ascending.sublist (dropWhile_sublist _)
  have stops := head?_dropWhile_not (fun entry : RangeData T => decide (entry.range.base < address)) entries
  refine ⟨fun other member => of_decide_eq_true (mem_takeWhile_imp member :), ?_⟩
  cases upper : entries.dropWhile (fun entry => decide (entry.range.base < address)) with
  | nil => nofun
  | cons first rest =>
    rw [upper] at above stops
    have start : address ≤ first.range.base := by simpa using stops
    exact forall_mem_cons.mpr ⟨start, fun other member => start.trans ((pairwise_cons.mp above).1 other member)⟩

omit [DecidableEq T] in
theorem eq_of_findEntryThatContains (ascending : Ascending vector.entries) (disjoint : Disjoint vector.entries)
    (found : vector.findEntryThatContains address = some entry) :
    entry.range.contains address ∧ ∃ front back, vector.entries = front ++ entry :: back ∧
      (∀ other ∈ front, other.range.base < address) ∧ ∀ other ∈ back, address ≤ other.range.base := by
  have whole := takeWhile_append_dropWhile (p := fun entry => decide (entry.range.base < address))
    (l := vector.entries)
  unfold findEntryThatContains at found
  dsimp only at found
  obtain ⟨low, high⟩ := ascending.split address
  generalize vector.entries.takeWhile (fun entry => decide (entry.range.base < address)) = lower at *
  generalize vector.entries.dropWhile (fun entry => decide (entry.range.base < address)) = upper at *
  rw [← whole] at ascending disjoint
  cases reversed : lower.reverse with
  | nil =>
    obtain rfl : lower = [] := reverse_eq_nil_iff.mp reversed
    change upper.head?.filter _ = _ at found
    obtain ⟨head, inside⟩ := Option.filter_eq_some_iff.mp found
    obtain ⟨rest, rfl⟩ := head?_eq_some_iff.mp head
    exact ⟨inside, [], rest, whole.symm, nofun, fun other member => high other (.tail _ member)⟩
  | cons last more =>
    have split : lower = more.reverse ++ [last] := by
      rw [← reverse_reverse lower, reversed, reverse_cons]
    rw [reversed] at found
    by_cases inside : last.range.contains address = true
    · -- The entry before it does not have the address, too.
      have once : more.takeWhile (·.range.contains address) = [] := by
        cases more with
        | nil => rfl
        | cons other more =>
          apply takeWhile_cons_of_neg
          intro both
          rw [split, reverse_cons, append_assoc, append_assoc] at disjoint
          have pairs := (pairwise_append.mp disjoint).2.1
          exact (pairwise_cons.mp pairs).1 last (by simp) address ⟨both, inside⟩
      rw [takeWhile_cons, if_pos inside, once] at found
      obtain rfl : last = entry := by simpa using found
      refine ⟨inside, more.reverse, upper, ?_, fun other member => ?_, high⟩
      · simp [← whole, split]
      · exact low other (split ▸ mem_append_left _ member)
    · rw [takeWhile_cons, if_neg inside] at found
      obtain ⟨head, here⟩ := Option.filter_eq_some_iff.mp found
      obtain ⟨rest, rfl⟩ := head?_eq_some_iff.mp head
      exact ⟨here, lower, rest, whole.symm, low, fun other member => high other (.tail _ member)⟩

/-! What becomes of addresses and of lookups. -/

def Has (entries : List (RangeData T)) (address : Nat) : Prop := ∃ entry ∈ entries, entry.range.contains address

/-- An address of the entries stays one, and what is found for it stays found if no two entries share an address. -/
structure Keeps (before sorted after : RangeDataVector width T) : Prop where
  covered : ∀ address, Has before.entries address → Has after.entries address
  found : Disjoint before.entries → ∀ address entry, sorted.findEntryThatContains address = some entry →
    ∃ combined, after.findEntryThatContains address = some combined ∧ combined.data = entry.data

/-- An address of an entry at or behind the end of its run is one of another run; and where no two entries share an
address, none is that is looked up.
-/
structure Suits (vector : RangeDataVector width T) : Prop where
  reached : ∀ run ∈ runs vector.entries, ∀ entry ∈ run.entries, ∀ address, entry.range.contains address →
    run.reach width ≤ address →
      ∃ other ∈ runs vector.entries, other.first.range.base ≤ address ∧ address < other.reach width
  kept : Disjoint vector.entries → ∀ run ∈ runs vector.entries, ∀ entry ∈ run.entries, ∀ address,
    vector.findEntryThatContains address = some entry → address < run.reach width

theorem mem_runs {entries : List (RangeData T)} : entry ∈ entries ↔ ∃ run ∈ runs entries, entry ∈ run.entries := by
  rw [← mem_flatMap, flatMap_runs]

theorem first_le {entries : List (RangeData T)} (ascending : Ascending entries)
    (listed : run ∈ runs entries) (member : entry ∈ run.entries) :
    run.first.range.base ≤ entry.range.base := by
  obtain ⟨before, after, split⟩ := append_of_mem listed
  rw [← flatMap_runs entries, split, flatMap_append] at ascending
  have inRun := (pairwise_append.mp (pairwise_append.mp ascending).2.1).1
  rcases mem_cons.mp member with rfl | later
  · exact le_refl _
  · exact (pairwise_cons.mp inRun).1 entry later

theorem has_combine : Has vector.combineConsecutiveEntriesWithEqualData.entries address ↔
      ∃ run ∈ runs vector.entries, run.first.range.base ≤ address ∧ address < run.reach width := by
  rw [combine_eq]
  constructor
  · rintro ⟨_, listed, inside⟩
    obtain ⟨run, member, rfl⟩ := mem_map.mp listed
    exact ⟨run, member, (run.contains_merged address).mp inside⟩
  · rintro ⟨run, member, within⟩
    exact ⟨run.merged width, mem_map_of_mem member, (run.contains_merged address).mpr within⟩

omit [DecidableEq T] in
theorem Run.exists_reach (start : run.first.range.base ≤ address)
    (reached : address < run.reach width) : ∃ entry ∈ run.entries, address < entry.range.rangeEnd := by
  unfold reach at reached
  cases last : run.rest.getLast? with
  | none =>
    rw [last] at reached
    exact ⟨run.first, mem_cons_self, reached⟩
  | some entry =>
    rw [last] at reached
    have less := Nat.mod_le (entry.range.rangeEnd - run.first.range.base) (2 ^ width)
    dsimp only at reached
    exact ⟨entry, .tail _ (mem_of_getLast? last), by omega⟩

omit [DecidableEq T] in
theorem split_unique {front other back rest : List (RangeData T)}
    (disjoint : Disjoint (front ++ entry :: back)) (inside : entry.range.contains address)
    (same : front ++ entry :: back = other ++ entry :: rest) : front = other ∧ back = rest := by
  have twice (before middle after : List (RangeData T))
      (split : front ++ entry :: back = before ++ entry :: (middle ++ entry :: after)) : False := by
    rw [split] at disjoint
    have pairs := (pairwise_cons.mp (pairwise_append.mp disjoint).2.1).1
    exact pairs entry (by simp) address ⟨inside, inside⟩
  rcases append_eq_append_iff.mp same with ⟨more, rfl, tail⟩ | ⟨more, rfl, tail⟩
  · cases more with
    | nil => exact ⟨(append_nil _).symm, (cons.inj tail).2⟩
    | cons first more =>
      rw [cons_append, cons.injEq] at tail
      exact (twice front more rest (by rw [tail.2])).elim
  · cases more with
    | nil => exact ⟨append_nil _, (cons.inj tail).2.symm⟩
    | cons first more =>
      rw [cons_append, cons.injEq] at tail
      exact (twice other more back (by simp [← tail.1])).elim

/-- A lookup in the combined list: the run of what was found, if it reaches so far, and the one behind it otherwise. -/
theorem find_combine (ascending : Ascending vector.entries) (disjoint : Disjoint vector.entries)
    (found : vector.findEntryThatContains address = some entry) {before after : List (Run T)}
    (split : runs vector.entries = before ++ run :: after) (member : entry ∈ run.entries) :
    run.first.range.base ≤ address ∧ vector.combineConsecutiveEntriesWithEqualData.findEntryThatContains address =
        if (run.merged width).range.contains address then some (run.merged width)
        else if (run.merged width).range.base < address then
          (after.map (Run.merged width)).head?.filter (·.range.contains address)
        else none := by
  obtain ⟨inside, front, back, whole, low, high⟩ := eq_of_findEntryThatContains ascending disjoint found
  have start := first_le ascending (split ▸ mem_append_right _ mem_cons_self) member
  obtain ⟨here, there⟩ := Range.contains_iff.mp inside
  obtain ⟨early, late, parts⟩ := append_of_mem member
  have flat := flatMap_runs vector.entries
  rw [split, flatMap_append, flatMap_cons, parts, append_assoc, ← append_assoc, whole] at flat
  rw [whole] at ascending disjoint
  obtain ⟨fronts, backs⟩ := split_unique disjoint inside flat.symm
  refine ⟨Nat.le_trans start here, ?_⟩
  have combined : vector.combineConsecutiveEntriesWithEqualData =
      ⟨before.map (Run.merged width) ++ run.merged width :: after.map (Run.merged width)⟩ := by
    have entries := combine_eq vector
    rw [split, map_append] at entries
    exact congrArg RangeDataVector.mk entries
  rw [combined]
  apply findEntryThatContains_at
  · rw [forall_mem_map]
    intro other listed
    have inFront (piece : RangeData T) (inOther : piece ∈ other.entries) : piece ∈ front := by
      rw [fronts]
      exact mem_append_left _ (mem_flatMap.mpr ⟨other, listed, inOther⟩)
    rw [Run.base_merged, Run.contains_merged]
    refine ⟨low _ (inFront _ mem_cons_self), fun reached => ?_⟩
    obtain ⟨piece, inOther, far⟩ := Run.exists_reach reached.1 reached.2
    -- It would have the first address of the entry.
    have below := (pairwise_append.mp ascending).2.2 piece (inFront piece inOther) entry mem_cons_self
    have apart := (pairwise_append.mp disjoint).2.2 piece (inFront piece inOther) entry mem_cons_self
    exact apart entry.range.base ⟨Range.contains_iff.mpr ⟨below, by omega⟩, Range.contains_iff.mpr ⟨le_rfl, by omega⟩⟩
  · rw [forall_mem_map]
    intro other listed
    rw [Run.base_merged]
    apply high
    rw [backs]
    exact mem_append_right _ (mem_flatMap.mpr ⟨other, listed, mem_cons_self⟩)

theorem find_combine_iff (ascending : Ascending vector.entries) (disjoint : Disjoint vector.entries)
    (found : vector.findEntryThatContains address = some entry) (listed : run ∈ runs vector.entries)
    (member : entry ∈ run.entries) :
    (∃ combined, vector.combineConsecutiveEntriesWithEqualData.findEntryThatContains address = some combined ∧
      combined.data = entry.data) ↔ address < run.reach width := by
  obtain ⟨before, after, split⟩ := append_of_mem listed
  obtain ⟨start, lookup⟩ := find_combine ascending disjoint found split member
  obtain ⟨chain, same⟩ := isChain_runs vector.entries
  have data := same run listed entry member
  rw [lookup]
  by_cases reached : address < run.reach width
  · rw [if_pos ((run.contains_merged address).mpr ⟨start, reached⟩)]
    exact iff_of_true ⟨_, rfl, (run.data_merged).trans data.symm⟩ reached
  · rw [if_neg fun inside => reached ((run.contains_merged address).mp inside).2]
    refine iff_of_false ?_ reached
    rintro ⟨combined, other, equal⟩
    split_ifs at other with below
    obtain ⟨head, -⟩ := Option.filter_eq_some_iff.mp other
    obtain ⟨rest, mapped⟩ := head?_eq_some_iff.mp head
    obtain ⟨next, more, rfl, rfl, -⟩ := map_eq_cons_iff.mp mapped
    rw [split, isChain_split, isChain_cons_cons] at chain
    exact chain.2.1 ((next.data_merged).symm.trans (equal.trans data))

/-- Combining after the sort keeps addresses and lookups just if the last entry of each run of equal data reaches
far enough, or other runs do.
-/
theorem combineConsecutiveEntriesWithEqualData_iff {less : T → T → Bool} (weak : RangeDataArray.Weak less)
    (vector : RangeDataVector width T) :
    Keeps vector (vector.sort less) (vector.sort less).combineConsecutiveEntriesWithEqualData ↔
      Suits (vector.sort less) := by
  have ascending : Ascending (vector.sort less).entries := RangeDataArray.sort_sorted weak ⟨vector.entries⟩
  have perm : (vector.sort less).entries.Perm vector.entries := RangeDataArray.sort_perm less ⟨vector.entries⟩
  have disjoint : Disjoint (vector.sort less).entries ↔ Disjoint vector.entries :=
    perm.pairwise_iff fun apart address both => apart address both.symm
  generalize vector.sort less = sorted at ascending perm disjoint ⊢
  constructor
  · rintro ⟨covered, found⟩
    refine ⟨fun run listed entry member address inside _ => ?_, fun apart run listed entry member address looked => ?_⟩
    · exact has_combine.mp (covered address ⟨entry, perm.mem_iff.mp (mem_runs.mpr ⟨run, listed, member⟩), inside⟩)
    · exact (find_combine_iff ascending apart looked listed member).mp (found (disjoint.mp apart) address entry looked)
  · rintro ⟨reached, kept⟩
    refine ⟨fun address has => ?_, fun apart address entry looked => ?_⟩
    · obtain ⟨entry, member, inside⟩ := has
      obtain ⟨run, listed, inRun⟩ := mem_runs.mp (perm.mem_iff.mpr member)
      rw [has_combine]
      by_cases far : run.reach width ≤ address
      · exact reached run listed entry inRun address inside far
      · have start := first_le ascending listed inRun
        have here := (Range.contains_iff.mp inside).1
        exact ⟨run, listed, by omega, by omega⟩
    · have apartSorted := disjoint.mpr apart
      obtain ⟨inside, front, back, whole, -⟩ := eq_of_findEntryThatContains ascending apartSorted looked
      have member : entry ∈ sorted.entries := whole ▸ mem_append_right _ mem_cons_self
      obtain ⟨run, listed, inRun⟩ := mem_runs.mp member
      exact (find_combine_iff ascending apartSorted looked listed inRun).mpr
        (kept apartSorted run listed entry inRun address looked)

omit [DecidableEq T] in
theorem contains_of_findEntryThatContains
    (found : vector.findEntryThatContains address = some entry) : entry.range.contains address := by
  unfold findEntryThatContains at found
  dsimp only at found
  split at found
  case h_1 last lower =>
    obtain rfl := Option.some.inj found
    have holds := mem_takeWhile_imp (mem_of_getLast? lower)
    exact holds
  case h_2 => exact (Option.filter_eq_some_iff.mp found).2

theorem suits_of_reach
    (within : ∀ run ∈ runs vector.entries, ∀ entry ∈ run.entries, entry.range.rangeEnd ≤ run.reach width) :
    Suits vector := by
  constructor
  · intro run listed entry member address inside behind
    have below := (Range.contains_iff.mp inside).2
    have enough := within run listed entry member
    omega
  · intro _ run listed entry member address found
    have below := (Range.contains_iff.mp (contains_of_findEntryThatContains found)).2
    exact lt_of_lt_of_le below (within run listed entry member)

def units : RangeDataVector 64 Nat := ⟨[⟨⟨0, 16⟩, 1⟩, ⟨⟨16, 16⟩, 1⟩, ⟨⟨64, 8⟩, 2⟩]⟩

theorem combineConsecutiveEntriesWithEqualData_iff_units : Keeps units (units.sort fun left right => left < right)
      (units.sort fun left right => left < right).combineConsecutiveEntriesWithEqualData := by
  have weak : RangeDataArray.Weak fun left right : Nat => decide (left < right) := by
    constructor <;> simp only [decide_eq_true_eq, decide_eq_false_iff_not] <;> omega
  apply (combineConsecutiveEntriesWithEqualData_iff weak units).mpr
  apply suits_of_reach
  have sorted : units.sort (fun left right => left < right) = units :=
    congrArg RangeDataVector.mk (mergeSort_of_pairwise (by decide))
  rw [sorted]
  simp [runs, units, Run.entries, Run.reach, Range.rangeEnd]

def nested : RangeDataVector 64 Nat := ⟨[⟨⟨0, 100⟩, 1⟩, ⟨⟨10, 10⟩, 1⟩]⟩

theorem combined_entries_lost : ¬ ∀ vector : RangeDataVector 64 Nat,
    Keeps vector (vector.sort fun left right => left < right)
      (vector.sort fun left right => left < right).combineConsecutiveEntriesWithEqualData := by
  intro claim
  have covered := (claim nested).covered 50 ⟨⟨⟨0, 100⟩, 1⟩, mem_cons_self, by decide⟩
  have sorted : nested.sort (fun left right => left < right) = nested :=
    congrArg RangeDataVector.mk (mergeSort_of_pairwise (by decide))
  rw [sorted] at covered
  obtain ⟨entry, member, inside⟩ := covered
  rw [show nested.combineConsecutiveEntriesWithEqualData.entries = [⟨⟨0, 20⟩, 1⟩] by decide,
    mem_singleton] at member
  subst member
  exact absurd inside (by decide)

end RangeDataVector

end Lldb
