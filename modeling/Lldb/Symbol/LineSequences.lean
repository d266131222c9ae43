import Lldb.Symbol.LineTableResolve
import Mathlib.Algebra.Order.Ring.Int
import Mathlib.Data.List.Perm.Basic

/-! Sequences of rows: how they are built and put into a table, in any order, and what the compile
unit finds there.
-/

set_option autoImplicit false

namespace Lldb.LineTable

/-- `AppendLineEntryToSequence`. An entry replaces the last one if the address is the same. -/
def appendLineEntryToSequence (sequence : List Entry) (entry : Entry) : List Entry :=
  match sequence.getLast? with
  | none => sequence ++ [entry]
  | some back =>
    if back.fileAddr = entry.fileAddr then
      sequence.dropLast ++ [{ entry with isPrologueEnd := entry.fileIdx = back.fileIdx }]
    else sequence ++ [entry]

/-- The rows of a sequence: some that are not terminal ones, and the terminal one. -/
structure Rows where
  first : Entry
  others : List Entry
  terminal : Entry
  plain : ∀ entry ∈ first :: others, entry.isTerminalEntry = false
  ends : terminal.isTerminalEntry = true
  rises : (first :: others ++ [terminal]).Pairwise fun entry next => entry.fileAddr ≤ next.fileAddr
  bounded : terminal.fileAddr < 2 ^ 64

namespace Rows

def toList (rows : Rows) : List Entry := rows.first :: rows.others ++ [rows.terminal]

def sequence (rows : Rows) : List Entry := rows.toList.foldl appendLineEntryToSequence []

def Contains (rows : Rows) (address : Nat) : Prop := rows.first.fileAddr ≤ address ∧ address < rows.terminal.fileAddr

end Rows

def insertSequences (sequences : List Rows) : List Entry :=
  sequences.foldl (fun entries rows => insertSequence entries rows.sequence) []

structure LineEntry (Address File : Type) where
  base : Address
  byteSize : Nat
  file : File
  originalFile : File
  line : Nat
  column : Nat
  isStartOfStatement : Bool
  isStartOfBasicBlock : Bool
  isPrologueEnd : Bool
  isEpilogueBegin : Bool
  isTerminalEntry : Bool
  deriving DecidableEq, Repr

/-- What a line table asks its compile unit for: the section and offset of an address, and files. -/
structure CompileUnit (Address File : Type) where
  resolveFileAddress : Nat → Option Address
  getFileSpecAtIndex : Nat → File

namespace CompileUnit

variable {Address File : Type}

variable (unit : CompileUnit Address File)

def lineEntry (base : Address) (byteSize : Nat) (entry : Entry) :
    LineEntry Address File where
  base := base
  byteSize := byteSize
  file := unit.getFileSpecAtIndex entry.fileIdx
  originalFile := unit.getFileSpecAtIndex entry.fileIdx
  line := entry.line
  column := entry.column
  isStartOfStatement := entry.isStartOfStatement
  isStartOfBasicBlock := entry.isStartOfBasicBlock
  isPrologueEnd := entry.isPrologueEnd
  isEpilogueBegin := entry.isEpilogueBegin
  isTerminalEntry := entry.isTerminalEntry

def byteSizeAt (entries : List Entry) (index : Nat) (entry : Entry) : Nat :=
  match entries[(index + 1) % 2 ^ 32]? with
  | none => 0
  | some next => if entry.isTerminalEntry then 0 else (next.fileAddr + 2 ^ 64 - entry.fileAddr) % 2 ^ 64

/-- `ConvertEntryAtIndexToLineEntry`. -/
def convertEntryAtIndexToLineEntry (entries : List Entry) (index : Nat) :
    Option (LineEntry Address File) :=
  entries[index]?.bind fun entry =>
    (unit.resolveFileAddress entry.fileAddr).map fun base => unit.lineEntry base (byteSizeAt entries index entry) entry

/-- `FindLineEntryByAddress` with an index to fill in, for an address of the module. -/
def findLineEntryByAddress (entries : List Entry) (address : Nat) :
    Option (LineEntry Address File × Nat) :=
  if address = 2 ^ 64 - 1 then none
  else
    (LineTable.matched entries address).bind fun pos =>
      if entries[pos]?.any fun entry => !entry.isTerminalEntry then
        (unit.convertEntryAtIndexToLineEntry entries (pos % 2 ^ 32)).map fun lineEntry => (lineEntry, pos % 2 ^ 32)
      else none

end CompileUnit

/-! A sequence as it has been built, and the order of a table of such sequences.
-/

open List Option

/-! What is built from rows. -/

def LastRow (rows : List Entry) (entry : Entry) : Prop :=
  ∃ front row back, rows = front ++ row :: back ∧ (∀ later ∈ back, row.fileAddr < later.fileAddr) ∧
    entry = { row with isPrologueEnd := entry.isPrologueEnd }

structure Built (rows sequence : List Entry) : Prop where
  rises : sequence.Pairwise fun entry next => entry.fileAddr < next.fileAddr
  starts : sequence.head?.map (·.fileAddr) = rows.head?.map (·.fileAddr)
  ends : sequence.getLast?.map (fun last => (last.fileAddr, last.isTerminalEntry)) =
    rows.getLast?.map fun last => (last.fileAddr, last.isTerminalEntry)
  rows : ∀ entry ∈ sequence, LastRow rows entry

variable {rows : List Entry} {entry row : Entry}

theorem LastRow.append (is : LastRow rows entry) (less : entry.fileAddr < row.fileAddr) :
    LastRow (rows ++ [row]) entry := by
  obtain ⟨front, own, back, rfl, behind, same⟩ := is
  have address : entry.fileAddr = own.fileAddr := by rw [same]
  refine ⟨front, own, back ++ [row], by simp, fun later there => ?_, same⟩
  rcases mem_append.mp there with before | isRow
  · exact behind later before
  · rw [mem_singleton.mp isRow]
    omega

theorem Built.keep {kept : List Entry} (same : entry = { row with isPrologueEnd := entry.isPrologueEnd })
    (rises : kept.Pairwise fun entry next => entry.fileAddr < next.fileAddr)
    (below : ∀ earlier ∈ kept, earlier.fileAddr < row.fileAddr) (last : ∀ earlier ∈ kept, LastRow rows earlier)
    (starts : (kept ++ [entry]).head?.map (·.fileAddr) = (rows ++ [row]).head?.map (·.fileAddr)) :
    Built (rows ++ [row]) (kept ++ [entry]) := by
  have address : entry.fileAddr = row.fileAddr := by rw [same]
  refine ⟨?_, starts, ?_, fun other there => ?_⟩
  · rw [pairwise_append]
    refine ⟨rises, pairwise_singleton _ _, fun earlier there other is => ?_⟩
    rw [mem_singleton.mp is, address]
    exact below earlier there
  · rw [getLast?_concat, getLast?_concat, map_some, map_some, same]
  · rcases mem_append.mp there with before | isEntry
    · exact (last other before).append (below other before)
    · rw [mem_singleton.mp isEntry]
      exact ⟨rows, row, [], rfl, nofun, same⟩

theorem Built.append {sequence : List Entry} (built : Built rows sequence)
    (reached : ∀ last ∈ rows.getLast?, last.fileAddr ≤ row.fileAddr) :
    Built (rows ++ [row]) (appendLineEntryToSequence sequence row) := by
  unfold appendLineEntryToSequence
  cases ended : sequence.getLast? with
  | none =>
    obtain rfl := getLast?_eq_none_iff.mp ended
    obtain rfl : rows = [] := head?_eq_none_iff.mp (map_eq_none_iff.mp built.starts.symm)
    exact Built.keep rfl .nil nofun nofun rfl
  | some back =>
    obtain ⟨front, rfl⟩ := getLast?_eq_some_iff.mp ended
    obtain ⟨last, final, sameEnd⟩ : ∃ last ∈ rows.getLast?, last.fileAddr = back.fileAddr := by
      have ends := built.ends
      rw [ended] at ends
      obtain ⟨last, final, same⟩ := map_eq_some_iff.mp ends.symm
      exact ⟨last, final, congrArg Prod.fst same⟩
    have above : back.fileAddr ≤ row.fileAddr := sameEnd ▸ reached last final
    have starts : (front ++ [back]).head?.map (·.fileAddr) = (rows ++ [row]).head?.map (·.fileAddr) := by
      rw [built.starts]
      cases rows with
      | nil => cases final
      | cons => rfl
    have low : ∀ entry ∈ front, entry.fileAddr < back.fileAddr := fun entry there =>
      (pairwise_append.mp built.rises).2.2 entry there back mem_cons_self
    dsimp only
    split
    · rename_i same
      rw [dropLast_concat]
      refine Built.keep rfl (pairwise_append.mp built.rises).1 (fun entry there => same ▸ low entry there)
        (fun entry there => built.rows entry (mem_append_left _ there)) ?_
      rw [← starts]
      cases front with
      | nil => exact congrArg some same.symm
      | cons => rfl
    · refine Built.keep rfl built.rises (fun entry there => ?_) built.rows ?_
      · rcases mem_append.mp there with before | isBack
        · have := low entry before
          omega
        · rw [mem_singleton.mp isBack]
          omega
      · rw [← starts]
        cases front <;> rfl

theorem built_foldl (rises : rows.Pairwise fun entry next => entry.fileAddr ≤ next.fileAddr) :
    Built rows (rows.foldl appendLineEntryToSequence []) := by
  induction rows using reverseRecOn with
  | nil => exact ⟨List.Pairwise.nil, rfl, rfl, nofun⟩
  | append_singleton rows row ih =>
    obtain ⟨before, -, across⟩ := pairwise_append.mp rises
    rw [foldl_append]
    exact (ih before).append fun last final => across last (mem_of_getLast? final) row mem_cons_self

/-! Sequences that have been built. -/

/-- A sequence of a range of addresses: it is terminated where the range ends. -/
structure Sequence where
  low : Nat
  high : Nat
  entries : List Entry
  less : low < high
  rises : entries.Pairwise fun entry next => entry.fileAddr < next.fileAddr
  starts : entries.head?.map (·.fileAddr) = some low
  ends : entries.getLast?.map (·.fileAddr) = some high
  terminal : ∀ entry ∈ entries, (entry.isTerminalEntry = true ↔ entry.fileAddr = high)

namespace Sequence

def Contains (sequence : Sequence) (address : Nat) : Prop := sequence.low ≤ address ∧ address < sequence.high

def Before (sequence other : Sequence) : Prop := sequence.high ≤ other.low

theorem before_or_after {sequence other : Sequence}
    (apart : ∀ address, ¬ (sequence.Contains address ∧ other.Contains address)) :
    sequence.Before other ∨ other.Before sequence := by
  have first := sequence.less
  have second := other.less
  by_contra neither
  rw [Before, Before] at neither
  exact apart (max sequence.low other.low) ⟨⟨by omega, by omega⟩, ⟨by omega, by omega⟩⟩

variable (sequence : Sequence)

theorem exists_first :
    ∃ first rest, sequence.entries = first :: rest ∧ first.fileAddr = sequence.low ∧ first.isTerminalEntry = false := by
  obtain ⟨first, is, address⟩ := map_eq_some_iff.mp sequence.starts
  obtain ⟨rest, split⟩ := head?_eq_some_iff.mp is
  refine ⟨first, rest, split, address, ?_⟩
  rw [← Bool.not_eq_true, sequence.terminal first (by rw [split]; exact mem_cons_self), address]
  exact ne_of_lt sequence.less

theorem exists_last :
    ∃ front last, sequence.entries = front ++ [last] ∧ last.fileAddr = sequence.high ∧ last.isTerminalEntry = true := by
  obtain ⟨last, is, address⟩ := map_eq_some_iff.mp sequence.ends
  obtain ⟨front, split⟩ := getLast?_eq_some_iff.mp is
  exact ⟨front, last, split, address, (sequence.terminal last (mem_of_getLast? is)).mpr address⟩

theorem addresses {entry : Entry} (there : entry ∈ sequence.entries) :
    sequence.low ≤ entry.fileAddr ∧ entry.fileAddr ≤ sequence.high := by
  constructor
  · obtain ⟨first, rest, split, address, -⟩ := sequence.exists_first
    have rises := sequence.rises
    rw [split] at rises there
    rcases mem_cons.mp there with rfl | later
    · omega
    · have := (pairwise_cons.mp rises).1 entry later
      omega
  · obtain ⟨front, last, split, address, -⟩ := sequence.exists_last
    have rises := sequence.rises
    rw [split] at rises there
    rcases mem_append.mp there with before | isLast
    · have := (pairwise_append.mp rises).2.2 entry before last mem_cons_self
      omega
    · rw [mem_singleton.mp isLast]
      omega

theorem exists_next {entry : Entry} (there : entry ∈ sequence.entries) (plain : entry.isTerminalEntry = false) :
    ∃ front next back, sequence.entries = front ++ entry :: next :: back ∧ entry.fileAddr < next.fileAddr := by
  obtain ⟨front, back, split⟩ := append_of_mem there
  cases back with
  | nil =>
    obtain ⟨before, last, split', -, terminal⟩ := sequence.exists_last
    rw [split'] at split
    obtain ⟨-, same⟩ := append_inj' split rfl
    cases same
    rw [plain] at terminal
    cases terminal
  | cons next back =>
    have rises := sequence.rises
    rw [split] at rises
    exact ⟨front, next, back, split, (pairwise_cons.mp (pairwise_append.mp rises).2.1).1 next mem_cons_self⟩

theorem Contains.exists_entry {sequence : Sequence} {address : Nat} (contains : sequence.Contains address) :
    ∃ front entry next back, sequence.entries = front ++ entry :: next :: back ∧ entry.fileAddr ≤ address ∧
      address < next.fileAddr ∧ entry.isTerminalEntry = false := by
  obtain ⟨first, rest, split, low, -⟩ := sequence.exists_first
  obtain ⟨before, last, split', high, -⟩ := sequence.exists_last
  have search : ∀ (front rest : List Entry) (entry : Entry), sequence.entries = front ++ entry :: rest →
    entry.fileAddr ≤ address →
      ∃ front entry next back, sequence.entries = front ++ entry :: next :: back ∧ entry.fileAddr ≤ address ∧
        address < next.fileAddr := by
    intro front rest
    induction rest generalizing front with
    | nil =>
      intro entry here reached
      rw [split'] at here
      obtain ⟨-, same⟩ := append_inj' here rfl
      cases same
      have := contains.2
      omega
    | cons next rest ih =>
      intro entry here reached
      by_cases behind : address < next.fileAddr
      · exact ⟨front, entry, next, rest, here, reached, behind⟩
      · exact ih (front ++ [entry]) next (by rw [here, append_assoc]; rfl) (by omega)
  have reached : first.fileAddr ≤ address := low ▸ contains.1
  obtain ⟨front, entry, next, back, here, below, above⟩ := search [] rest first split reached
  refine ⟨front, entry, next, back, here, below, above, ?_⟩
  have inside : next ∈ sequence.entries := by
    rw [here]
    exact mem_append_right _ (mem_cons_of_mem _ mem_cons_self)
  rw [← Bool.not_eq_true, sequence.terminal entry (by rw [here]; exact mem_append_right _ mem_cons_self)]
  have := (sequence.addresses inside).2
  omega

end Sequence

/-! Tables of sequences, one behind the other. -/

def tableOf (order : List Sequence) : List Entry := (order.map (·.entries)).flatten

theorem mem_tableOf {order : List Sequence} : entry ∈ tableOf order ↔ ∃ sequence ∈ order, entry ∈ sequence.entries := by
  rw [tableOf, mem_flatten]
  constructor
  · rintro ⟨entries, there, inside⟩
    obtain ⟨sequence, member, rfl⟩ := mem_map.mp there
    exact ⟨sequence, member, inside⟩
  · rintro ⟨sequence, member, inside⟩
    exact ⟨_, mem_map.mpr ⟨sequence, member, rfl⟩, inside⟩

theorem tableOf_append (front back : List Sequence) : tableOf (front ++ back) = tableOf front ++ tableOf back := by
  simp [tableOf]

theorem tableOf_cons (sequence : Sequence) (back : List Sequence) :
    tableOf (sequence :: back) = sequence.entries ++ tableOf back :=
  rfl

theorem sorted_tableOf {order : List Sequence} (ordered : order.Pairwise Sequence.Before) : Sorted (tableOf order) := by
  rw [tableOf, Sorted, pairwise_flatten, pairwise_map]
  constructor
  · intro entries there
    obtain ⟨sequence, -, rfl⟩ := mem_map.mp there
    exact sequence.rises.imp .inl
  · refine ordered.imp fun {sequence other} before entry there next member => ?_
    have high := (sequence.addresses there).2
    have low := (other.addresses member).1
    rw [Sequence.Before] at before
    by_cases same : entry.fileAddr = next.fileAddr
    · refine .inr ⟨same, (sequence.terminal entry there).mpr (by omega), ?_⟩
      rw [← Bool.not_eq_true, other.terminal next member]
      have := other.less
      omega
    · exact .inl (by omega)

theorem starts_tableOf (order : List Sequence) : ∀ first ∈ (tableOf order).head?, first.isTerminalEntry = false := by
  cases order with
  | nil => nofun
  | cons sequence order =>
    obtain ⟨first, rest, split, -, plain⟩ := sequence.exists_first
    rw [tableOf_cons, split]
    intro other is
    cases is
    exact plain

theorem ends_tableOf (order : List Sequence) : ∀ last ∈ (tableOf order).getLast?, last.isTerminalEntry = true := by
  induction order using reverseRecOn with
  | nil => nofun
  | append_singleton order sequence =>
    obtain ⟨front, last, split, -, terminal⟩ := sequence.exists_last
    rw [tableOf_append, tableOf_cons, split]
    intro other is
    rw [show tableOf [] = [] from rfl, append_nil, ← append_assoc, getLast?_concat] at is
    cases is
    exact terminal

variable {Item : Type} {made : Item → Sequence}

theorem exists_split {order : List Item} (ordered : (order.map made).Pairwise Sequence.Before) {sequence : Sequence}
    (apart : ∀ other ∈ order, (made other).Before sequence ∨ sequence.Before (made other)) :
    ∃ front back, order = front ++ back ∧ (∀ other ∈ front, (made other).Before sequence) ∧
      ∀ other ∈ back, sequence.Before (made other) := by
  induction order with
  | nil => exact ⟨[], [], rfl, nofun, nofun⟩
  | cons head order ih =>
    obtain ⟨behind, others⟩ := pairwise_cons.mp ordered
    rcases apart head mem_cons_self with before | after
    · obtain ⟨front, back, rfl, low, high⟩ := ih others fun other there => apart other (mem_cons_of_mem _ there)
      exact ⟨head :: front, back, rfl, forall_mem_cons.mpr ⟨before, low⟩, high⟩
    · refine ⟨[], head :: order, rfl, nofun, forall_mem_cons.mpr ⟨after, fun other there => ?_⟩⟩
      have next := behind (made other) (mem_map_of_mem there)
      have less := (made head).less
      rw [Sequence.Before] at after next ⊢
      omega

theorem insertSequence_tableOf {front back : List Sequence} (ordered : (front ++ back).Pairwise Sequence.Before)
    {sequence : Sequence}
    (low : ∀ other ∈ front, other.Before sequence) (high : ∀ other ∈ back, sequence.Before other) :
    insertSequence (tableOf (front ++ back)) sequence.entries = tableOf (front ++ sequence :: back) := by
  obtain ⟨first, rest, split, address, plain⟩ := sequence.exists_first
  have less := sequence.less
  have sorted := sorted_tableOf ordered
  have before : ∀ entry ∈ tableOf front, entry.fileAddr ≤ first.fileAddr := by
    intro entry there
    obtain ⟨other, member, inside⟩ := mem_tableOf.mp there
    have := (other.addresses inside).2
    have := low other member
    rw [Sequence.Before] at this
    omega
  have behind : ∀ entry ∈ tableOf back, first.fileAddr < entry.fileAddr := by
    intro entry there
    obtain ⟨other, member, inside⟩ := mem_tableOf.mp there
    have := (other.addresses inside).1
    have := high other member
    rw [Sequence.Before] at this
    omega
  rw [tableOf_append] at sorted ⊢
  rw [tableOf_append, tableOf_cons, split, ← append_assoc]
  refine sorted.insertSequence plain (fun other there same => ?_) before behind (ends_tableOf front)
  rcases mem_append.mp there with inFront | inBack
  · obtain ⟨own, member, inside⟩ := mem_tableOf.mp inFront
    have := (own.addresses inside).2
    have := low own member
    rw [Sequence.Before] at this
    exact (own.terminal other inside).mpr (by omega)
  · have := behind other inBack
    omega

theorem exists_order {items : List Item} (apart : items.Pairwise fun item other =>
    (made item).Before (made other) ∨ (made other).Before (made item)) :
    ∃ order : List Item, order.Perm items ∧ (order.map made).Pairwise Sequence.Before ∧
      items.foldl (fun entries item => insertSequence entries (made item).entries) [] = tableOf (order.map made) := by
  induction items using reverseRecOn with
  | nil => exact ⟨[], .refl _, List.Pairwise.nil, rfl⟩
  | append_singleton items item ih =>
    obtain ⟨before, -, across⟩ := pairwise_append.mp apart
    obtain ⟨order, perm, ordered, same⟩ := ih before
    obtain ⟨front, back, rfl, low, high⟩ := exists_split ordered fun other there =>
      across other (perm.mem_iff.mp there) item mem_cons_self
    have low' : ∀ other ∈ front.map made, other.Before (made item) := forall_mem_map.mpr low
    have high' : ∀ other ∈ back.map made, (made item).Before other := forall_mem_map.mpr high
    rw [map_append] at ordered same
    refine ⟨front ++ item :: back, ?_, ?_, ?_⟩
    · exact perm_middle.trans ((perm.cons item).trans (perm_append_singleton item items).symm)
    · obtain ⟨inFront, inBack, between⟩ := pairwise_append.mp ordered
      rw [map_append]
      refine pairwise_append.mpr
        ⟨inFront, pairwise_cons.mpr ⟨high', inBack⟩, fun other there next member => ?_⟩
      rcases mem_cons.mp member with rfl | later
      · exact low' other there
      · exact between other there next later
    · rw [foldl_append, same, map_append]
      exact insertSequence_tableOf ordered low' high'

end Lldb.LineTable
