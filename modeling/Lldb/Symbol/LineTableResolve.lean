import Lldb.Symbol.LineTableOrder

/-! What an address resolves to in a linked table, and when it resolves like the original one.
-/

set_option autoImplicit false

namespace Lldb.LineTable

open FileRange Option List

variable {map : FileRangeMap} {entries : List Entry}

theorem firstAt_cases (table : List Entry) (address pos : Nat) : firstAt table address pos = pos ∨
      table[firstAt table address pos]?.any (fun entry => entry.fileAddr = address && !entry.isTerminalEntry) =
        true := by
  induction pos with
  | zero => exact .inl rfl
  | succ pos ih =>
    rw [firstAt]
    split
    · rename_i here
      rcases ih with same | there
      · right
        rw [same]
        exact here
      · exact .inr there
    · exact .inl rfl

theorem matched_sound {table : List Entry} {address place : Nat} {entry : Entry}
    (found : matched table address = some place)
    (got : table[place]? = some entry) :
    entry.fileAddr = address ∨
      entry.fileAddr < address ∧ ∃ next, table[place + 1]? = some next ∧ address < next.fileAddr := by
  obtain ⟨inside, before, behind⟩ :=
    Library.lowerBound_edges (fun index => table[index]?.any (·.fileAddr < address)) table.length
  obtain ⟨at_, there, chosen⟩ := bind_eq_some_iff.mp found
  unfold matchAt at chosen
  have reached : address ≤ at_.fileAddr := by
    rcases behind with end_ | fails
    · rw [getElem?_eq_none_iff.mpr (by omega)] at there
      cases there
    · rw [there, any_some, decide_eq_false_iff_not] at fails
      omega
  -- an entry that the way back from a position ends at has the address
  have atAddress (start : Nat) (other : Entry) (begins : table[start]? = some other) (same : other.fileAddr = address)
      (back : table[firstAt table address start]? = some entry) : entry.fileAddr = address := by
    rcases firstAt_cases table address start with stays | holds
    · rw [stays, begins] at back
      cases back
      exact same
    · rw [back, any_some, Bool.and_eq_true, decide_eq_true_eq] at holds
      exact holds.1
  split at chosen
  · rename_i positive
    split at chosen
    · cases chosen
      right
      have less := before.resolve_left positive
      rw [got, any_some, decide_eq_true_eq] at less
      exact ⟨less, at_, by rw [Nat.sub_add_cancel (by omega)]; exact there, by omega⟩
    · rename_i same
      rw [not_not] at same
      split at chosen
      · split at chosen
        · cases chosen
        · rename_i next following
          split at chosen
          · cases chosen
          · rename_i here
            cases chosen
            exact .inl (atAddress _ next following (not_not.mp here) got)
      · cases chosen
        exact .inl (atAddress _ at_ there same got)
  · split at chosen
    · cases chosen
    · cases chosen
      rw [there] at got
      cases got
      exact .inl (by omega)

theorem find_sound {table : List Entry} {address : Nat} {entry : Entry}
    (found : findLineEntryByAddress table address = some entry) :
    ∃ pos, table[pos]? = some entry ∧ entry.isTerminalEntry = false ∧ (entry.fileAddr = address ∨
        entry.fileAddr < address ∧ ∃ next, table[pos + 1]? = some next ∧ address < next.fileAddr) := by
  obtain ⟨place, chosen, found⟩ := bind_eq_some_iff.mp found
  obtain ⟨got, plain⟩ := filter_eq_some_iff.mp found
  rw [Bool.not_eq_true'] at plain
  exact ⟨place, got, plain, matched_sound chosen got⟩

theorem Sorted.precedes {table : List Entry} (sorted : Sorted table) {earlier later : Nat} {first second : Entry}
    (atFirst : table[earlier]? = some first) (atSecond : table[later]? = some second) (less : earlier < later) :
    Precedes first second := by
  obtain ⟨small, rfl⟩ := List.getElem?_eq_some_iff.mp atFirst
  obtain ⟨large, rfl⟩ := List.getElem?_eq_some_iff.mp atSecond
  exact pairwise_iff_getElem.mp sorted earlier later small large less

theorem Sorted.lowerBound_eq {table : List Entry} (sorted : Sorted table) {pos address : Nat} {entry : Entry}
    (there : table[pos]? = some entry) (reached : address ≤ entry.fileAddr)
    (low : ∀ index other, table[index]? = some other → index < pos → other.fileAddr < address) :
    Library.lowerBound (fun index => table[index]?.any (·.fileAddr < address)) table.length = pos := by
  apply Library.lowerBound_eq (List.getElem?_eq_some_iff.mp there).1.le
  intro index inside
  have here := getElem?_eq_getElem inside
  rw [here, any_some, decide_eq_true_eq]
  refine ⟨fun small => ?_, low index _ here⟩
  by_contra late
  rcases eq_or_lt_of_le (not_lt.mp late) with rfl | more
  · rw [there] at here
    cases here
    omega
  · rcases sorted.precedes there here more with rises | ⟨rises, -⟩ <;> omega

section

variable {table : List Entry} (sorted : Sorted table) {pos address : Nat} {entry : Entry}

include sorted

theorem Sorted.matched_shared (starts : ∀ first ∈ table.head?, first.isTerminalEntry = false)
    (there : table[pos]? = some entry) {previous : Entry} (positive : 0 < pos)
    (atPrevious : table[pos - 1]? = some previous) (equal : previous.fileAddr = entry.fileAddr) :
    matched table entry.fileAddr = some pos := by
  have terminal : previous.isTerminalEntry = true := by
    rcases sorted.precedes atPrevious there (by omega) with rises | ⟨-, terminal, -⟩
    · omega
    · exact terminal
  have notFirst : pos - 1 ≠ 0 := by
    intro zero
    rw [zero] at atPrevious
    have first := starts previous (by rw [head?_eq_getElem?]; exact atPrevious)
    rw [terminal] at first
    cases first
  have stays : firstAt table entry.fileAddr pos = pos := by
    obtain ⟨less, rfl⟩ : ∃ less, pos = less + 1 := ⟨pos - 1, by omega⟩
    rw [firstAt]
    rw [show table[less]? = some previous from atPrevious, any_some, terminal]
    simp
  have position := sorted.lowerBound_eq atPrevious equal.ge fun index other atOther early => by
    rcases sorted.precedes atOther atPrevious early with rises | ⟨-, -, kind⟩
    · omega
    · rw [terminal] at kind
      cases kind
  unfold matched
  dsimp only
  rw [position, atPrevious, bind_some, matchAt, if_pos notFirst, if_neg (not_not.mpr equal), if_pos terminal,
    Nat.sub_add_cancel positive, there]
  dsimp only
  simp [stays]

theorem Sorted.matched_first (there : table[pos]? = some entry) (plain : entry.isTerminalEntry = false)
    (alone : ∀ previous, 0 < pos → table[pos - 1]? = some previous → previous.fileAddr ≠ entry.fileAddr) :
    matched table entry.fileAddr = some pos := by
  have bound := (List.getElem?_eq_some_iff.mp there).1
  have stays : firstAt table entry.fileAddr pos = pos := by
    cases pos with
    | zero => rfl
    | succ less =>
      have atPrevious := getElem?_eq_getElem (show less < table.length by omega)
      rw [firstAt, if_neg]
      rw [atPrevious, any_some, Bool.and_eq_true, decide_eq_true_eq]
      exact fun holds => alone _ (Nat.succ_pos _) atPrevious holds.1
  have position := sorted.lowerBound_eq there le_rfl fun index other atOther early => by
    rcases sorted.precedes atOther there early with rises | ⟨equal, -, -⟩
    · exact rises
    · by_cases direct : index = pos - 1
      · subst direct
        exact absurd equal (alone other (by omega) atOther)
      · -- something between the two would have to be before a terminal entry with its address
        have atMiddle := getElem?_eq_getElem (show pos - 1 < table.length by omega)
        have first := sorted.precedes atOther atMiddle (by omega)
        have second := sorted.precedes atMiddle there (by omega)
        have apart := alone _ (by omega) atMiddle
        rcases first with rises | ⟨same, -⟩ <;> rcases second with more | ⟨more, -⟩ <;> omega
  unfold matched
  dsimp only
  rw [position, there, bind_some, matchAt]
  split
  · simp [plain, stays]
  · rw [if_neg (lt_irrefl _)]

theorem Sorted.matched_inside {next : Entry} (there : table[pos]? = some entry)
    (following : table[pos + 1]? = some next) (less : entry.fileAddr < address) (inside : address < next.fileAddr) :
    matched table address = some pos := by
  have position := sorted.lowerBound_eq following inside.le fun index other atOther early => by
    rcases Nat.eq_or_lt_of_le (Nat.lt_succ_iff.mp early) with rfl | earlier
    · rw [there] at atOther
      cases atOther
      exact less
    · rcases sorted.precedes atOther there earlier with rises | ⟨rises, -⟩ <;> omega
  unfold matched
  dsimp only
  rw [position, following, bind_some, matchAt, if_pos (Nat.succ_ne_zero _), if_pos (by omega), Nat.add_sub_cancel]

end

theorem Sorted.matched {table : List Entry} (sorted : Sorted table)
    (starts : ∀ first ∈ table.head?, first.isTerminalEntry = false)
    {pos address : Nat} {entry next : Entry} (there : table[pos]? = some entry)
    (following : table[pos + 1]? = some next)
    (plain : entry.isTerminalEntry = false) (reached : entry.fileAddr ≤ address) (inside : address < next.fileAddr) :
    matched table address = some pos := by
  rcases eq_or_lt_of_le reached with rfl | less
  · by_cases shared : ∃ previous, 0 < pos ∧ table[pos - 1]? = some previous ∧ previous.fileAddr = entry.fileAddr
    · obtain ⟨previous, positive, atPrevious, equal⟩ := shared
      exact sorted.matched_shared starts there positive atPrevious equal
    · exact sorted.matched_first there plain fun previous positive atPrevious equal =>
        shared ⟨previous, positive, atPrevious, equal⟩
  · exact sorted.matched_inside there following less inside

theorem Placed.find {bound : Nat} {table : List Entry} (placed : Placed map bound table) {pos address : Nat}
    {entry next : Entry}
    (there : table[pos]? = some entry) (following : table[pos + 1]? = some next) (plain : entry.isTerminalEntry = false)
    (reached : entry.fileAddr ≤ address) (inside : address < next.fileAddr) :
    findLineEntryByAddress table address = some entry := by
  refine bind_eq_some_iff.mpr ⟨pos, placed.sorted.matched placed.starts there following plain reached inside, ?_⟩
  rw [there]
  exact filter_some_pos (by rw [plain]; rfl)

/-! What is found in a linked table. -/

theorem Extent.mem {entry next : Entry} (extent : Extent entries entry next) : entry ∈ entries := by
  obtain ⟨-, front, back, rfl⟩ := extent
  exact mem_append_right _ mem_cons_self

theorem Extent.mem_next {entry next : Entry} (extent : Extent entries entry next) : next ∈ entries := by
  obtain ⟨-, front, back, rfl⟩ := extent
  exact mem_append_right _ (mem_cons_of_mem _ mem_cons_self)

variable (formed : WellFormed entries)
include formed

theorem WellFormed.rises {entry next : Entry} (extent : Extent entries entry next) :
    entry.fileAddr < next.fileAddr := by
  obtain ⟨plain, front, back, rfl⟩ := extent
  have order := (isChain_cons_cons.mp (isChain_append.mp formed.next).2.1).1
  rwa [plain] at order

theorem WellFormed.addresses : entries.Pairwise fun entry other => entry.fileAddr ≤ other.fileAddr := by
  refine isChain_iff_pairwise.mp (formed.next.imp fun _ _ order => ?_)
  split at order
  · exact order.1
  · exact order.le

theorem WellFormed.same {entry next other : Entry} (extent : Extent entries entry next)
    (there : other ∈ entries) {address : Nat} (inside : address < next.fileAddr) (begins : entry.fileAddr ≤ address)
    (reached : other.fileAddr ≤ address) : other.fileAddr ≤ entry.fileAddr := by
  obtain ⟨-, front, back, rfl⟩ := extent
  obtain ⟨-, inBack, across⟩ := pairwise_append.mp formed.addresses
  rcases mem_append.mp there with before | here
  · exact across other before entry mem_cons_self
  · rcases mem_cons.mp here with rfl | behind
    · exact le_rfl
    · rcases mem_cons.mp behind with rfl | later
      · omega
      · have order := (pairwise_cons.mp (pairwise_cons.mp inBack).2).1 other later
        omega

theorem linked_at {pos : Nat} {entry : Entry} (plain : entry.isTerminalEntry = false)
    (there : (linkLineTable map.entries entries)[pos]? = some entry) :
    ∃ next, (linkLineTable map.entries entries)[pos + 1]? = some next ∧ Moved map.entries entries entry next := by
  have chained : Chained map.entries entries (linkLineTable map.entries entries) := (sound_linkLineTable formed.ends).1
  generalize linkLineTable map.entries entries = table at there chained ⊢
  have inside := (List.getElem?_eq_some_iff.mp there).1
  have more : pos + 1 < table.length := by
    by_contra last
    have ended : table.getLast? = some entry := by
      rw [getLast?_eq_getElem?, show table.length - 1 = pos by omega]
      exact there
    have terminal := chained.ends entry ended
    rw [plain] at terminal
    cases terminal
  have joint := isChain_iff_getElem.mp chained.linked pos more
  obtain ⟨_, atPos⟩ := List.getElem?_eq_some_iff.mp there
  rw [atPos, plain] at joint
  exact ⟨table[pos + 1], getElem?_eq_getElem more, joint.resolve_left Bool.false_ne_true⟩

theorem find_linked {address : Nat} {entry : Entry}
    (found : findLineEntryByAddress (linkLineTable map.entries entries) address = some entry) :
    ∃ original after range source, Extent entries original after ∧ range ∈ map.entries ∧
      range.contains original.fileAddr = true ∧ range.contains source = true ∧ original.fileAddr ≤ source ∧
      source < after.fileAddr ∧ range.link source = address ∧ entry = moved range original := by
  obtain ⟨pos, there, plain, place⟩ := find_sound found
  obtain ⟨next, following, original, after, range, extent, member, contained, rfl, ends⟩ := linked_at formed plain there
  have rises := formed.rises extent
  have bounds := contains_iff.mp contained
  refine ⟨original, after, range, address - range.data + range.base, extent, member, contained, ?_⟩
  change range.link original.fileAddr = address ∨ range.link original.fileAddr < address ∧ _ at place
  rw [contains_iff]
  unfold link at place ends ⊢
  rcases place with same | ⟨less, other, isNext, small⟩
  · exact ⟨by omega, by omega, by omega, by omega, rfl⟩
  · cases following.symm.trans isNext
    exact ⟨by omega, by omega, by omega, by omega, rfl⟩

/-- A table that resolves like the original one: in the order of addresses, with an entry like the
original one at every address that is moved from one, and with nothing anywhere else.
-/
structure ResolvesLike (map : FileRangeMap) (entries table : List Entry) : Prop where
  sorted : table.Pairwise fun entry other => entry.fileAddr ≤ other.fileAddr
  ends : ∀ last ∈ table.getLast?, last.isTerminalEntry = true
  resolves : ∀ entry next, Extent entries entry next → ∀ range ∈ map.entries, ∀ address, range.contains address = true →
    entry.fileAddr ≤ address → address < next.fileAddr → ∃ found,
      findLineEntryByAddress table (range.link address) = some found ∧ found.fileIdx = entry.fileIdx ∧
        found.line = entry.line ∧ found.column = entry.column
  nothing : ∀ address, (∀ range ∈ map.entries, ∀ source, range.contains source = true → range.link source ≠ address) →
    findLineEntryByAddress table address = none

theorem nothing_elsewhere {address : Nat}
    (outside : ∀ range ∈ map.entries, ∀ source, range.contains source = true → range.link source ≠ address) :
    findLineEntryByAddress (linkLineTable map.entries entries) address = none := by
  cases found : findLineEntryByAddress (linkLineTable map.entries entries) address with
  | none => rfl
  | some entry =>
    obtain ⟨-, -, range, source, -, there, -, inside, -, -, moved, -⟩ := find_linked formed found
    exact absurd moved (outside range there source inside)

omit formed

theorem find_moved (begins : Begins map entries) (formed : WellFormed entries) {entry next : Entry}
    (extent : Extent entries entry next) {range : FileRange} (there : range ∈ map.entries) {address : Nat}
    (inside : range.contains address = true) (reached : entry.fileAddr ≤ address) (before : address < next.fileAddr) :
    findLineEntryByAddress (linkLineTable map.entries entries) (range.link address) = some (moved range entry) := by
  have bounds := contains_iff.mp inside
  have contained := begins entry next extent range there (by omega) (by omega)
  have looked : findEntryThatContains map.entries (lookup entry) = some range := by
    rw [lookup, if_neg (ne_true_of_eq_false extent.1)]
    exact map.find_of_contains there contained
  have member := mem_linkLineTable formed.ends extent.mem looked
  obtain ⟨bound, placed⟩ := placed_linkLineTable begins formed
  obtain ⟨pos, atPos⟩ := mem_iff_getElem?.mp member
  obtain ⟨following, atNext, original, after, range', extent', there', contained', same, ends⟩ :=
    linked_at formed (show (moved range entry).isTerminalEntry = false from extent.1) atPos
  obtain ⟨rfl, equal⟩ := map.eq_of_link there there' contained contained' (congrArg Entry.fileAddr same)
  have beyond : next.fileAddr ≤ after.fileAddr := by
    by_contra early
    have rises := formed.rises extent'
    have back := formed.same extent extent'.mem_next (not_le.mp early) (by omega) le_rfl
    omega
  refine placed.find atPos atNext extent.1 ?_ ?_
  · change range.link entry.fileAddr ≤ range.link address
    unfold link
    omega
  · rw [ends]
    unfold link
    omega

/-- A map links a table so that it resolves like the original one exactly when every entry that meets
a range begins in it.
-/
theorem linked_resolves_iff (map : FileRangeMap) (entries : List Entry) (formed : WellFormed entries) :
    ResolvesLike map entries (linkLineTable map.entries entries) ↔ Begins map entries := by
  constructor
  · intro like entry next extent range there low high
    by_contra outside
    have filled := map.filled range there
    have contained : range.contains range.base = true := by
      rw [contains_iff, rangeEnd]
      omega
    have before : entry.fileAddr < range.base := by
      rw [contains_iff] at outside
      omega
    obtain ⟨found, resolved, -⟩ := like.resolves entry next extent range there range.base contained before.le low
    obtain ⟨original, after, range', source, extent', there', inside, contains', reached, -, moved, -⟩ :=
      find_linked formed resolved
    obtain ⟨rfl, rfl⟩ := map.eq_of_link there' there contains' contained moved
    have back := formed.same extent extent'.mem low before.le reached
    have bounds := contains_iff.mp inside
    omega
  · intro begins
    obtain ⟨bound, placed⟩ := placed_linkLineTable begins formed
    refine ⟨placed.sorted.addresses, placed.ends, ?_, fun address outside => nothing_elsewhere formed outside⟩
    intro entry next extent range there address inside reached before
    exact ⟨_, find_moved begins formed extent there inside reached before, rfl, rfl, rfl⟩

/-- Two entries, the first of which reaches into a range that it does not begin in. -/
def sampleEntries : List Entry :=
  [⟨16, 1, 0, 1, true, false, false, false, false⟩, ⟨32, 2, 0, 1, true, false, false, false, false⟩,
    ⟨48, 2, 0, 1, true, false, false, false, true⟩]

def sampleMap : FileRangeMap where
  entries := [⟨20, 32, 1000⟩]
  sorted := pairwise_singleton _ _
  filled := by decide
  apart := pairwise_singleton _ _

theorem wellFormed_sample : WellFormed sampleEntries where
  starts := by decide
  next := by decide
  ends := by decide

theorem linked_resolves_iff_sample :
    ResolvesLike sampleMap sampleEntries (linkLineTable sampleMap.entries sampleEntries) ↔
      Begins sampleMap sampleEntries :=
  linked_resolves_iff sampleMap sampleEntries wellFormed_sample

/-- The address 20 of the first entry is moved to 1000, where nothing is found. -/
theorem linked_not_always_resolves :
    ¬ ResolvesLike sampleMap sampleEntries (linkLineTable sampleMap.entries sampleEntries) := by
  intro like
  have extent : Extent sampleEntries sampleEntries[0] sampleEntries[1] := ⟨rfl, [], _, rfl⟩
  obtain ⟨found, resolved, -⟩ :=
    like.resolves _ _ extent ⟨20, 32, 1000⟩ mem_cons_self 20 (by decide) (by decide) (by decide)
  have nothing : findLineEntryByAddress (linkLineTable sampleMap.entries sampleEntries) 1000 = none := by decide
  cases resolved.symm.trans nothing

end Lldb.LineTable
