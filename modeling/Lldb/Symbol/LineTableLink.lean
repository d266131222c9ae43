import Lldb.Symbol.LineTable
import Mathlib.Data.List.Chain

/-! Linking a line table, one entry after the other: what is looked up, what is put into the table
and what is left of the sequence.
-/

set_option autoImplicit false

namespace Lldb

open FileRange Option List

/-- Ranges in the order of their bases, apart, none empty, and apart where they are moved to. -/
structure FileRangeMap where
  entries : List FileRange
  sorted : entries.Pairwise fun left right => left.rangeEnd ≤ right.base
  filled : ∀ range ∈ entries, 0 < range.size
  apart : entries.Pairwise fun left right => left.data + left.size ≤ right.data ∨ right.data + right.size ≤ left.data

namespace FileRange

theorem contains_iff {range : FileRange} {address : Nat} :
    range.contains address = true ↔ range.base ≤ address ∧ address < range.rangeEnd := by
  simp [contains]

end FileRange

theorem rel_or_rel {α : Type} {R : α → α → Prop} {items : List α} (pairwise : items.Pairwise R) {left right : α}
    (first : left ∈ items) (second : right ∈ items) (other : left ≠ right) : R left right ∨ R right left := by
  induction pairwise with
  | nil => cases first
  | cons above _ ih =>
    rcases mem_cons.mp first with rfl | inLeft
    · exact .inl (above right ((mem_cons.mp second).resolve_left (Ne.symm other)))
    · rcases mem_cons.mp second with rfl | inRight
      · exact .inr (above left inLeft)
      · exact ih inLeft inRight

namespace FileRangeMap

variable (map : FileRangeMap)

variable {address : Nat}

theorem eq_of_contains {left right : FileRange} (first : left ∈ map.entries) (second : right ∈ map.entries)
    (inLeft : left.contains address = true) (inRight : right.contains address = true) : left = right := by
  rw [contains_iff] at inLeft inRight
  by_contra other
  rcases rel_or_rel map.sorted first second other with before | before <;> omega

theorem eq_of_link {left right : FileRange} (first : left ∈ map.entries) (second : right ∈ map.entries) {other : Nat}
    (inLeft : left.contains address = true) (inRight : right.contains other = true)
    (same : left.link address = right.link other) : left = right ∧ address = other := by
  rw [contains_iff, rangeEnd] at inLeft inRight
  unfold link at same
  by_cases equal : left = right
  · subst equal
    exact ⟨rfl, by omega⟩
  · rcases rel_or_rel map.apart first second equal with before | before <;> omega

theorem find_of_contains {range : FileRange} (there : range ∈ map.entries)
    (inside : range.contains address = true) : LineTable.findEntryThatContains map.entries address = some range := by
  obtain ⟨index, found⟩ := mem_iff_getElem?.mp there
  have bound := (List.getElem?_eq_some_iff.mp found).1
  have contained := contains_iff.mp inside
  have before (earlier later : Nat) (first second : FileRange) (atFirst : map.entries[earlier]? = some first)
      (atSecond : map.entries[later]? = some second) (less : earlier < later) : first.rangeEnd ≤ second.base := by
    obtain ⟨small, rfl⟩ := List.getElem?_eq_some_iff.mp atFirst
    obtain ⟨large, rfl⟩ := List.getElem?_eq_some_iff.mp atSecond
    exact pairwise_iff_getElem.mp map.sorted earlier later small large less
  have position : Library.lowerBound (fun index => map.entries[index]?.any (·.base < address)) map.entries.length =
      if range.base < address then index + 1 else index := by
    apply Library.lowerBound_eq
    · split <;> omega
    · intro position small
      obtain ⟨entry, atPosition⟩ : ∃ entry, map.entries[position]? = some entry := ⟨_, getElem?_eq_getElem small⟩
      have filled := map.filled entry (mem_of_getElem? atPosition)
      rw [atPosition, any_some, decide_eq_true_eq]
      rcases lt_trichotomy position index with less | rfl | more
      · have ends := before position index entry range atPosition found less
        unfold rangeEnd at ends
        split <;> omega
      · cases found.symm.trans atPosition
        split <;> omega
      · have starts := before index position range entry found atPosition more
        split <;> omega
  have stays : LineTable.firstContaining map.entries address index = index := by
    cases index with
    | zero => rfl
    | succ previous =>
      obtain ⟨entry, atPrevious⟩ : ∃ entry, map.entries[previous]? = some entry :=
        ⟨_, getElem?_eq_getElem (by omega)⟩
      have ends := before previous (previous + 1) entry range atPrevious found (Nat.lt_succ_self _)
      rw [LineTable.firstContaining, atPrevious, any_some, if_neg]
      rw [contains_iff]
      omega
  unfold LineTable.findEntryThatContains
  simp only [position]
  split
  · rw [LineTable.firstContaining, if_pos (by rw [found]; exact inside), stays, found]
    exact filter_some_pos inside
  · rw [stays, found]
    exact filter_some_pos inside

theorem find_iff {range : FileRange} : LineTable.findEntryThatContains map.entries address = some range ↔
      range ∈ map.entries ∧ range.contains address = true := by
  constructor
  · intro found
    obtain ⟨there, holds⟩ := filter_eq_some_iff.mp found
    exact ⟨mem_of_getElem? there, holds⟩
  · rintro ⟨there, inside⟩
    exact map.find_of_contains there inside

end FileRangeMap

namespace LineTable

def Extent (entries : List Entry) (entry next : Entry) : Prop :=
  entry.isTerminalEntry = false ∧ ∃ front back, entries = front ++ entry :: next :: back

def moved (range : FileRange) (entry : Entry) : Entry := { entry with fileAddr := range.link entry.fileAddr }

/-- An entry that was linked: it ends where the original one ends or where the range does. -/
def Moved (ranges : List FileRange) (entries : List Entry) (entry next : Entry) : Prop :=
  ∃ original after range, Extent entries original after ∧ range ∈ ranges ∧ range.contains original.fileAddr = true ∧
    entry = moved range original ∧ next.fileAddr = range.link (min after.fileAddr range.rangeEnd)

structure Chained (ranges : List FileRange) (entries table : List Entry) : Prop where
  linked : table.IsChain fun entry next => entry.isTerminalEntry = true ∨ Moved ranges entries entry next
  ends : ∀ last ∈ table.getLast?, last.isTerminalEntry = true

theorem behindSequence_spec (entries : List Entry) {fuel pos : Nat} (enough : entries.length ≤ pos + fuel) :
    entries.length ≤ behindSequence entries fuel pos ∨
      entries[behindSequence entries fuel pos - 1]?.any (·.isTerminalEntry) = true := by
  induction fuel generalizing pos with
  | zero => exact .inl enough
  | succ fuel ih =>
    rw [behindSequence]
    split
    · exact ih (by omega)
    · rename_i stops
      rw [Bool.and_eq_true, not_and, Bool.not_eq_true', Bool.not_eq_false, decide_eq_true_eq] at stops
      by_cases inside : pos < entries.length
      · exact .inr (stops inside)
      · exact .inl (by omega)

theorem le_behindSequence (entries : List Entry) (fuel pos : Nat) : pos ≤ behindSequence entries fuel pos := by
  induction fuel generalizing pos with
  | zero => exact le_rfl
  | succ fuel ih =>
    rw [behindSequence]
    split
    · exact (Nat.le_succ pos).trans (ih (pos + 1))
    · exact le_rfl

theorem insertSequence_split {entries : List Entry} (ends : ∀ last ∈ entries.getLast?, last.isTerminalEntry = true)
    (sequence : List Entry) : ∃ front back, entries = front ++ back ∧
      insertSequence entries sequence = front ++ sequence ++ back ∧
      ∀ last ∈ front.getLast?, last.isTerminalEntry = true := by
  unfold insertSequence
  split
  · exact ⟨entries, [], (List.append_nil _).symm, by simp, ends⟩
  · exact ⟨entries, [], (List.append_nil _).symm, (List.append_nil _).symm, ends⟩
  · rename_i entry rest last ended
    split
    · exact ⟨entries, [], (List.append_nil _).symm, (List.append_nil _).symm, ends⟩
    · refine ⟨_, _, (take_append_drop _ _).symm, rfl, ?_⟩
      intro other member
      split at member
      · generalize place : behindSequence entries entries.length (upperBound entries entry) = pos at member
        have reached := behindSequence_spec entries
          (show entries.length ≤ upperBound entries entry + entries.length by omega)
        have forward := le_behindSequence entries entries.length (upperBound entries entry)
        rw [place] at reached forward
        rcases reached with all | stopped
        · rw [take_of_length_le all] at member
          exact ends other member
        · obtain ⟨found, there, terminal⟩ := (any_eq_true _ _).mp stopped
          rw [getLast?_take, if_neg (by omega), there] at member
          cases member
          exact terminal
      · rename_i zero
        rw [not_not] at zero
        rw [zero] at member
        cases member

theorem ends_append {front back : List Entry} (first : ∀ last ∈ front.getLast?, last.isTerminalEntry = true)
    (second : ∀ last ∈ back.getLast?, last.isTerminalEntry = true) :
    ∀ last ∈ (front ++ back).getLast?, last.isTerminalEntry = true := by
  intro last there
  rw [getLast?_append] at there
  cases ended : back.getLast? with
  | none =>
    rw [ended] at there
    exact first last there
  | some other =>
    rw [ended] at there
    exact second last (ended.trans there)

variable {ranges : List FileRange} {entries : List Entry}

theorem Chained.insert {table sequence : List Entry} (chained : Chained ranges entries table)
    (new : Chained ranges entries sequence) : Chained ranges entries (insertSequence table sequence) := by
  obtain ⟨front, back, rfl, inserted, boundary⟩ := insertSequence_split chained.ends sequence
  obtain ⟨inFront, inBack, -⟩ := isChain_append.mp chained.linked
  have backEnds : ∀ last ∈ back.getLast?, last.isTerminalEntry = true := by
    intro last there
    apply chained.ends
    simp [show back.getLast? = some last from there]
  have frontEnds := ends_append boundary new.ends
  rw [inserted]
  refine ⟨?_, ends_append frontEnds backEnds⟩
  rw [isChain_append, isChain_append]
  exact ⟨⟨inFront, new.linked, fun last there _ _ => .inl (boundary last there)⟩, inBack,
    fun last there _ _ => .inl (frontEnds last there)⟩

theorem Chained.empty : Chained ranges entries [] where
  linked := List.IsChain.nil
  ends _ none_ := by cases none_

/-! The loop. -/

variable {map : FileRangeMap}

def lookup (entry : Entry) : Nat := entry.fileAddr - if entry.isTerminalEntry then 1 else 0

/-- The sequence not yet in the table ends with the last entry, which was linked with its range. -/
structure Open (entries : List Entry) (linking : Linking) (last : Entry) (range : FileRange) : Prop where
  plain : last.isTerminalEntry = false
  inside : range.contains last.fileAddr = true
  found : linking.fileRangeEntry = some range
  marked : linking.prevEntryWasLinked = true
  rows : ∀ entry ∈ linking.sequence, entry.isTerminalEntry = false
  ends : linking.sequence.getLast? = some (moved range last)

structure Closed (linking : Linking) : Prop where
  unmarked : linking.prevEntryWasLinked = false
  empty : linking.sequence = []

structure Behind (map : FileRangeMap) (entries : List Entry) (linking : Linking) (previous : Option Entry) : Prop where
  looked : ∀ range ∈ linking.fileRangeEntry, range ∈ map.entries
  sequence : Closed linking ∨ ∃ last range, previous = some last ∧ Open entries linking last range

/-- The entry that ends a sequence before an entry that does not go on with it. -/
def terminator (range : FileRange) (last entry : Entry) : Entry :=
  { moved range last with fileAddr := range.link (min entry.fileAddr range.rangeEnd), isTerminalEntry := true }

/-- What is in the table and what is left of the sequence when an entry is linked. -/
inductive Cut (map : FileRangeMap) (entries : List Entry) (linking : Linking) (previous : Option Entry)
    (entry : Entry) :
    List Entry → List Entry → Prop where
  | idle : Closed linking → Cut map entries linking previous entry linking.entries linking.sequence
  | goesOn {last : Entry} {range other : FileRange} : previous = some last → Open entries linking last range →
      findEntryThatContains map.entries (lookup entry) = some other →
      range.link (min entry.fileAddr range.rangeEnd) = other.link entry.fileAddr →
      Cut map entries linking previous entry linking.entries linking.sequence
  | ended {last : Entry} {range : FileRange} : previous = some last → Open entries linking last range →
      (∀ other, findEntryThatContains map.entries (lookup entry) = some other →
        range.link (min entry.fileAddr range.rangeEnd) ≠ other.link entry.fileAddr) →
      Cut map entries linking previous entry
        (insertSequence linking.entries (linking.sequence ++ [terminator range last entry])) []

/-- The state after an entry, when the table and the sequence are as they have been cut. -/
def Links (map : FileRangeMap) (table rest : List Entry) (entry : Entry) (after : Linking) : Prop :=
  after.fileRangeEntry = findEntryThatContains map.entries (lookup entry) ∧
    match findEntryThatContains map.entries (lookup entry) with
    | none => rest = [] ∧ after.entries = table ∧ Closed after
    | some range =>
      if entry.isTerminalEntry then after.entries = insertSequence table (rest ++ [moved range entry]) ∧ Closed after
      else after.entries = table ∧ after.sequence = rest ++ [moved range entry] ∧ after.prevEntryWasLinked = true

variable {linking : Linking} {entry : Entry}

theorem finish_links (looked : linking.fileRangeEntry = findEntryThatContains map.entries (lookup entry))
    (rest : linking.fileRangeEntry = none → linking.sequence = []) :
    Links map linking.entries linking.sequence entry (linking.push entry).finish := by
  unfold Links
  rw [← looked]
  cases range : linking.fileRangeEntry with
  | none =>
    have empty := rest range
    have pushed : linking.push entry = linking := by
      unfold Linking.push
      rw [range]
    have plain : linking.finish = { linking with prevEntryWasLinked := linking.fileRangeEntry.isSome } := by
      unfold Linking.finish
      rw [if_neg (by rw [empty]; exact Bool.false_ne_true)]
    rw [pushed, plain]
    exact ⟨range, empty, rfl, ⟨by rw [range]; rfl, empty⟩⟩
  | some range' =>
    have pushed : linking.push entry = { linking with sequence := linking.sequence ++ [moved range' entry] } := by
      unfold Linking.push
      rw [range]
      rfl
    rw [pushed]
    unfold Linking.finish
    simp only [getLast?_concat, any_some]
    cases terminal : entry.isTerminalEntry with
    | true =>
      rw [if_pos (show (moved range' entry).isTerminalEntry = true from terminal)]
      exact ⟨range, rfl, ⟨rfl, rfl⟩⟩
    | false =>
      rw [if_neg (show ¬ (moved range' entry).isTerminalEntry = true from ne_true_of_eq_false terminal)]
      exact ⟨range, rfl, rfl, by rw [range]; rfl⟩

theorem step_same (same : linking.fileRangeEntry.any (·.contains (lookup entry)) = true) :
    linking.step map.entries entry = (linking.push entry).finish := by
  have looked : linking.lookUp map.entries (entry.fileAddr - if entry.isTerminalEntry then 1 else 0) =
      (linking, false) := by
    exact if_pos same
  unfold Linking.step
  rw [looked]
  obtain ⟨range, found, -⟩ := (any_eq_true _ _).mp same
  have goes : linking.endOfPrevious false entry = none := by
    unfold Linking.endOfPrevious
    rw [found]
    cases linking.prevFileRangeEntry <;> rfl
  simp [goes]

theorem step_other (other : ¬ linking.fileRangeEntry.any (·.contains (lookup entry)) = true) :
    linking.step map.entries entry = let looked : Linking := { linking with
        prevFileRangeEntry := linking.fileRangeEntry
        fileRangeEntry := findEntryThatContains map.entries (lookup entry) }
      ((match looked.endOfPrevious true entry with
        | none => looked
        | some address => looked.terminate address).push entry).finish := by
  have looked : linking.lookUp map.entries (entry.fileAddr - if entry.isTerminalEntry then 1 else 0) = ({ linking with
        prevFileRangeEntry := linking.fileRangeEntry
        fileRangeEntry := findEntryThatContains map.entries (lookup entry) }, true) := by
    exact if_neg other
  unfold Linking.step
  rewrite [looked]
  rfl

theorem step_cases {previous : Option Entry} (behind : Behind map entries linking previous) (entry : Entry) :
    ∃ table rest, Cut map entries linking previous entry table rest ∧
      Links map table rest entry (linking.step map.entries entry) := by
  by_cases same : linking.fileRangeEntry.any (·.contains (lookup entry)) = true
  · obtain ⟨range, found, inside⟩ := (any_eq_true _ _).mp same
    have looked : linking.fileRangeEntry = findEntryThatContains map.entries (lookup entry) := by
      rw [map.find_of_contains (behind.looked range found) inside, found]
    rw [step_same same]
    refine ⟨linking.entries, linking.sequence, ?_, finish_links looked fun none_ => by cases found.symm.trans none_⟩
    rcases behind.sequence with closed | ⟨last, range', known, opened⟩
    · exact .idle closed
    · cases opened.found.symm.trans found
      refine .goesOn known opened (looked.symm.trans found) ?_
      rw [contains_iff] at inside
      have bound : entry.fileAddr ≤ range.rangeEnd := by
        have := inside.2
        unfold lookup at this
        split at this <;> omega
      rw [min_eq_left bound]
  · rw [step_other same]
    simp only
    rcases behind.sequence with closed | ⟨last, range, known, opened⟩
    · have goes : Linking.endOfPrevious { linking with
          prevFileRangeEntry := linking.fileRangeEntry
          fileRangeEntry := findEntryThatContains map.entries (lookup entry) } true entry = none := by
        unfold Linking.endOfPrevious
        simp only [closed.unmarked]
        split <;> rfl
      rw [goes]
      exact ⟨linking.entries, linking.sequence, .idle closed, finish_links rfl fun _ => closed.empty⟩
    · have plain : linking.sequence.getLast?.any (fun last => !last.isTerminalEntry) = true := by
        rw [opened.ends, any_some, Bool.not_eq_true']
        exact opened.plain
      cases next : findEntryThatContains map.entries (lookup entry) with
      | none =>
        have goes : Linking.endOfPrevious { linking with
            prevFileRangeEntry := linking.fileRangeEntry
            fileRangeEntry := none } true entry = some (Linking.prevEnd entry.fileAddr range) := by
          unfold Linking.endOfPrevious
          simp [opened.found, opened.marked, plain]
        rw [goes]
        unfold Linking.terminate
        rw [opened.ends]
        refine ⟨_, _, .ended known opened (fun other found => ?_), finish_links next.symm fun _ => rfl⟩
        cases next.symm.trans found
      | some range' =>
        by_cases meets : range.link (min entry.fileAddr range.rangeEnd) = range'.link entry.fileAddr
        · have goes : Linking.endOfPrevious { linking with
              prevFileRangeEntry := linking.fileRangeEntry
              fileRangeEntry := some range' } true entry = none := by
            unfold Linking.endOfPrevious
            simp only [opened.found, Linking.prevEnd, meets]
            simp
          rw [goes]
          exact ⟨_, _, .goesOn known opened next meets, finish_links next.symm nofun⟩
        · have goes : Linking.endOfPrevious { linking with
              prevFileRangeEntry := linking.fileRangeEntry
              fileRangeEntry := some range' } true entry = some (Linking.prevEnd entry.fileAddr range) := by
            unfold Linking.endOfPrevious
            simp only [opened.found, opened.marked, Linking.prevEnd]
            simp [meets]
          rw [goes]
          unfold Linking.terminate
          rw [opened.ends]
          refine ⟨_, _, .ended known opened (fun other found => ?_), finish_links next.symm nofun⟩
          cases next.symm.trans found
          exact meets

end LineTable

end Lldb
