import Lldb.Symbol.LineSequences
import Mathlib.Algebra.Order.BigOperators.Group.List

/-! What is found in a table of sequences, in whatever order they have been put into it.
-/

set_option autoImplicit false

namespace Lldb.LineTable

open Rows Option

/-- An address lies between an entry and the next one of what is built from rows. -/
def Rows.At (rows : Rows) (address : Nat) (entry next : Entry) : Prop :=
  (∃ front back, rows.sequence = front ++ entry :: next :: back) ∧ entry.isTerminalEntry = false ∧
    entry.fileAddr ≤ address ∧ address < next.fileAddr

namespace Rows

theorem built (rows : Rows) : Built rows.toList rows.sequence := built_foldl rows.rises

theorem sequence_ends (rows : Rows) : rows.sequence.getLast?.map (fun last => (last.fileAddr, last.isTerminalEntry)) =
      some (rows.terminal.fileAddr, true) := by
  rw [rows.built.ends, toList, List.getLast?_concat, map_some, rows.ends]

theorem terminal_iff (rows : Rows) {entry : Entry} (there : entry ∈ rows.sequence) :
    entry.isTerminalEntry = true ↔ entry.fileAddr = rows.terminal.fileAddr := by
  obtain ⟨last, final, same⟩ := map_eq_some_iff.mp rows.sequence_ends
  obtain ⟨address, terminal⟩ := Prod.mk.inj same
  constructor
  · intro kind
    obtain ⟨front, row, back, split, -, is⟩ := rows.built.rows entry there
    have member : row ∈ rows.toList := by
      rw [split]
      exact List.mem_append_right _ List.mem_cons_self
    rcases List.mem_append.mp member with before | isTerminal
    · have plain := rows.plain row before
      rw [is] at kind
      rw [show row.isTerminalEntry = true from kind] at plain
      cases plain
    · rw [is, ← List.mem_singleton.mp isTerminal]
  · intro same
    obtain ⟨front, split⟩ := List.getLast?_eq_some_iff.mp final
    have rises := rows.built.rises
    rw [split] at rises there
    rcases List.mem_append.mp there with before | isLast
    · have := (List.pairwise_append.mp rises).2.2 entry before last List.mem_cons_self
      omega
    · rwa [List.mem_singleton.mp isLast]

def toSequence (rows : Rows) (occupied : rows.first.fileAddr < rows.terminal.fileAddr) : Sequence where
  low := rows.first.fileAddr
  high := rows.terminal.fileAddr
  entries := rows.sequence
  less := occupied
  rises := rows.built.rises
  starts := rows.built.starts
  ends := by
    obtain ⟨last, final, same⟩ := map_eq_some_iff.mp rows.sequence_ends
    rw [final, map_some, (Prod.mk.inj same).1]
  terminal := fun _ there => rows.terminal_iff there

theorem At.contains {rows : Rows} {address : Nat} {entry next : Entry} (lies : rows.At address entry next)
    (occupied : rows.first.fileAddr < rows.terminal.fileAddr) : rows.Contains address := by
  obtain ⟨⟨front, back, split⟩, -, reached, inside⟩ := lies
  have member : ∀ {row : Entry}, row ∈ front ++ entry :: next :: back → row ∈ (rows.toSequence occupied).entries := by
    intro row there
    rw [← split] at there
    exact there
  have low := ((rows.toSequence occupied).addresses (member (List.mem_append_right front List.mem_cons_self))).1
  have high := ((rows.toSequence occupied).addresses
    (member (List.mem_append_right front (List.mem_cons_of_mem entry List.mem_cons_self)))).2
  exact ⟨low.trans reached, inside.trans_le high⟩

end Rows

variable {order : List Sequence} {sequence : Sequence}

variable {address : Nat} {entry next : Entry}

theorem matched_tableOf (ordered : order.Pairwise Sequence.Before) (there : sequence ∈ order)
    {front back : List Entry} (split : sequence.entries = front ++ entry :: next :: back)
      (plain : entry.isTerminalEntry = false)
    (reached : entry.fileAddr ≤ address) (inside : address < next.fileAddr) :
    ∃ pos, matched (tableOf order) address = some pos ∧ (tableOf order)[pos]? = some entry ∧
      (tableOf order)[pos + 1]? = some next := by
  obtain ⟨before, behind, rfl⟩ := List.append_of_mem there
  have whole : tableOf (before ++ sequence :: behind) =
      tableOf before ++ front ++ entry :: next :: (back ++ tableOf behind) := by
    rw [tableOf_append, tableOf_cons, split, List.append_assoc, List.append_assoc]
    rfl
  have atEntry : (tableOf (before ++ sequence :: behind))[(tableOf before ++ front).length]? = some entry := by
    simp [whole]
  have atNext : (tableOf (before ++ sequence :: behind))[(tableOf before ++ front).length + 1]? = some next := by
    rw [whole, List.getElem?_append_right (Nat.le_add_right _ 1), Nat.add_sub_cancel_left]
    rfl
  exact ⟨_, (sorted_tableOf ordered).matched (starts_tableOf _) atEntry atNext plain reached inside, atEntry, atNext⟩

/-- An entry that is looked at and is not a terminal one is the one that the address lies at. -/
theorem matched_sequence (ordered : order.Pairwise Sequence.Before) {pos : Nat}
    (found : matched (tableOf order) address = some pos) (got : (tableOf order)[pos]? = some entry)
    (plain : entry.isTerminalEntry = false) :
    ∃ sequence ∈ order, ∃ front next back, sequence.entries = front ++ entry :: next :: back ∧
      entry.fileAddr ≤ address ∧
      address < next.fileAddr := by
  obtain ⟨sequence, there, member⟩ := mem_tableOf.mp (List.mem_of_getElem? got)
  obtain ⟨front, next, back, split, rises⟩ := sequence.exists_next member plain
  refine ⟨sequence, there, front, next, back, split, ?_⟩
  rcases matched_sound found got with same | ⟨less, other, atOther, inside⟩
  · omega
  · -- the next entry of the table is the next one of the sequence
    refine ⟨less.le, ?_⟩
    obtain ⟨place, -, atEntry, atNext⟩ := matched_tableOf ordered there split plain le_rfl rises
    have small := (List.getElem?_eq_some_iff.mp got).1
    have strict : (tableOf order).Pairwise (· ≠ ·) := (sorted_tableOf ordered).imp fun {one two} precedes same => by
      subst same
      rcases precedes with less | ⟨-, terminal, kind⟩
      · omega
      · rw [terminal] at kind
        cases kind
    rw [(List.getElem?_inj small strict).mp (got.trans atEntry.symm), atNext] at atOther
    cases atOther
    exact inside

theorem lessThan_of_precedes (precedes : Precedes entry next) : lessThan entry next = true := by
  rcases precedes with less | ⟨same, terminal, plain⟩
  · rw [lessThan_of_ne (ne_of_lt less)]
    exact decide_eq_true less
  · unfold lessThan
    rw [if_neg (not_not.mpr same), if_pos (by rw [plain, terminal]; decide), plain, terminal]
    decide

/-! The tables that rows are put into. -/

variable {sequences : List Rows} (occupied : ∀ rows ∈ sequences, rows.first.fileAddr < rows.terminal.fileAddr)

def sequenceOf (rows : { rows // rows ∈ sequences }) : Sequence := rows.1.toSequence (occupied rows.1 rows.2)

theorem insertSequences_attach : insertSequences sequences =
    sequences.attach.foldl (fun entries rows => insertSequence entries (sequenceOf occupied rows).entries) [] := by
  rw [insertSequences]
  conv_lhs => rw [← List.attach_map_subtype_val sequences, List.foldl_map]
  rfl

theorem exists_rows_order
    (apart : sequences.Pairwise fun rows other => ∀ address, ¬ (rows.Contains address ∧ other.Contains address)) :
    ∃ order : List { rows // rows ∈ sequences }, order.Perm sequences.attach ∧
      (order.map (sequenceOf occupied)).Pairwise Sequence.Before ∧
      insertSequences sequences = tableOf (order.map (sequenceOf occupied)) := by
  rw [insertSequences_attach occupied]
  apply exists_order
  rw [← List.attach_map_subtype_val sequences, List.pairwise_map] at apart
  exact apart.imp fun both => Sequence.before_or_after both

namespace CompileUnit

variable {Address File : Type} (unit : CompileUnit Address File)

variable {table : List Entry} {address : Nat}

theorem find_at {pos index : Nat} {own entry next : Entry} (found : matched table address = some pos)
    (atPos : table[pos]? = some own) (plain : own.isTerminalEntry = false) (wraps : pos % 2 ^ 32 = index)
    (atIndex : table[index]? = some entry) (atNext : table[(index + 1) % 2 ^ 32]? = some next)
    (kind : entry.isTerminalEntry = false) (valid : address ≠ 2 ^ 64 - 1) (rises : entry.fileAddr ≤ next.fileAddr)
    (bounded : next.fileAddr < 2 ^ 64) :
    unit.findLineEntryByAddress table address = (unit.resolveFileAddress entry.fileAddr).map fun base =>
        (unit.lineEntry base (next.fileAddr - entry.fileAddr) entry, index) := by
  have size : byteSizeAt table index entry = next.fileAddr - entry.fileAddr := by
    unfold byteSizeAt
    rw [atNext]
    simp only [kind, Bool.false_eq_true, if_false]
    omega
  unfold findLineEntryByAddress
  rw [if_neg valid, found, bind_some, if_pos (by rw [atPos, any_some, plain]; rfl), wraps,
    convertEntryAtIndexToLineEntry, atIndex, bind_some, size, map_map]
  rfl

theorem find_matched {pos : Nat} {entry next : Entry} (found : matched table address = some pos)
    (atEntry : table[pos]? = some entry) (atNext : table[pos + 1]? = some next) (plain : entry.isTerminalEntry = false)
    (reached : entry.fileAddr ≤ address) (inside : address < next.fileAddr) (bounded : next.fileAddr < 2 ^ 64)
    (small : table.length ≤ 2 ^ 32) :
    unit.findLineEntryByAddress table address = (unit.resolveFileAddress entry.fileAddr).map fun base =>
        (unit.lineEntry base (next.fileAddr - entry.fileAddr) entry, pos) := by
  have more := (List.getElem?_eq_some_iff.mp atNext).1
  refine unit.find_at found atEntry plain (Nat.mod_eq_of_lt (by omega)) atEntry ?_ plain (by omega) (by omega) bounded
  rw [Nat.mod_eq_of_lt (by omega)]
  exact atNext

theorem matched_of_find {found : LineEntry Address File × Nat}
    (is : unit.findLineEntryByAddress table address = some found) :
    ∃ pos entry, matched table address = some pos ∧ table[pos]? = some entry ∧ entry.isTerminalEntry = false := by
  unfold findLineEntryByAddress at is
  split at is
  · cases is
  · obtain ⟨pos, there, is⟩ := bind_eq_some_iff.mp is
    split at is
    · rename_i holds
      obtain ⟨entry, got, plain⟩ := (any_eq_true _ _).mp holds
      rw [Bool.not_eq_true'] at plain
      exact ⟨pos, entry, there, got, plain⟩
    · cases is

end CompileUnit

theorem exists_pieces (occupied : ∀ rows ∈ sequences, rows.first.fileAddr < rows.terminal.fileAddr)
    (apart : sequences.Pairwise fun rows other => ∀ address, ¬ (rows.Contains address ∧ other.Contains address)) :
    ∃ order : List Rows, order.Perm sequences ∧ insertSequences sequences = (order.map (·.sequence)).flatten ∧
      Sorted (insertSequences sequences) := by
  obtain ⟨order, perm, ordered, made⟩ := exists_rows_order occupied apart
  rw [made]
  refine ⟨order.map (·.1), ?_, ?_, sorted_tableOf ordered⟩
  · conv_rhs => rw [← List.attach_map_subtype_val sequences]
    exact perm.map _
  · rw [tableOf, List.map_map, List.map_map]
    rfl

/-- The table does not depend on the order of insertion. -/
theorem insertSequences_perm {other : List Rows} (same : other.Perm sequences)
    (occupied : ∀ rows ∈ sequences, rows.first.fileAddr < rows.terminal.fileAddr)
    (apart : sequences.Pairwise fun rows other => ∀ address, ¬ (rows.Contains address ∧ other.Contains address)) :
    insertSequences other = insertSequences sequences := by
  obtain ⟨order, perm, made, sorted⟩ := exists_pieces occupied apart
  obtain ⟨order', perm', made', sorted'⟩ := exists_pieces (fun rows there => occupied rows (same.mem_iff.mp there))
    (same.symm.pairwise apart fun {one two} never address both => never address ⟨both.2, both.1⟩)
  have perms : (insertSequences other).Perm (insertSequences sequences) := by
    rw [made, made']
    exact ((perm'.trans (same.trans perm.symm)).map _).flatten
  refine perms.eq_of_pairwise (fun entry next _ _ before after => ?_) sorted' sorted
  -- nothing stands both before and behind another entry
  rcases before with less | ⟨equal, terminal, plain⟩
  · rcases after with more | ⟨equal, -⟩ <;> omega
  · rcases after with more | ⟨-, -, plain'⟩
    · omega
    · rw [terminal] at plain'
      cases plain'

theorem find_of_at {Address File : Type} (unit : CompileUnit Address File)
    (occupied : ∀ rows ∈ sequences, rows.first.fileAddr < rows.terminal.fileAddr)
    (apart : sequences.Pairwise fun rows other => ∀ address, ¬ (rows.Contains address ∧ other.Contains address))
    (small : (sequences.map (·.sequence.length)).sum ≤ 2 ^ 32) {rows : Rows} (there : rows ∈ sequences)
    (lies : rows.At address entry next) :
    ∃ pos, (insertSequences sequences)[pos]? = some entry ∧
      unit.findLineEntryByAddress (insertSequences sequences) address =
        (unit.resolveFileAddress entry.fileAddr).map fun base =>
          (unit.lineEntry base (next.fileAddr - entry.fileAddr) entry, pos) := by
  obtain ⟨order, perm, ordered, made⟩ := exists_rows_order occupied apart
  have listed : sequenceOf occupied ⟨rows, there⟩ ∈ order.map (sequenceOf occupied) :=
    List.mem_map_of_mem (perm.mem_iff.mpr (List.mem_attach _ _))
  have length : (tableOf (order.map (sequenceOf occupied))).length ≤ 2 ^ 32 := by
    rw [tableOf, List.length_flatten, List.map_map, List.map_map, (perm.map _).sum_eq]
    rw [← List.attach_map_subtype_val sequences, List.map_map] at small
    exact small
  rw [made]
  obtain ⟨⟨front, back, split⟩, plain, reached, inside⟩ := lies
  obtain ⟨pos, found, atEntry, atNext⟩ := matched_tableOf ordered listed
    (show (sequenceOf occupied ⟨rows, there⟩).entries = _ from split) plain reached inside
  have high : next.fileAddr ≤ rows.terminal.fileAddr := by
    refine ((rows.toSequence (occupied rows there)).addresses ?_).2
    change next ∈ rows.sequence
    rw [split]
    exact List.mem_append_right _ (List.mem_cons_of_mem _ List.mem_cons_self)
  have bounded : next.fileAddr < 2 ^ 64 := high.trans_lt rows.bounded
  exact ⟨pos, atEntry, unit.find_matched found atEntry atNext plain reached inside (by omega) length⟩

theorem exists_at_of_find {Address File : Type} (unit : CompileUnit Address File)
    (occupied : ∀ rows ∈ sequences, rows.first.fileAddr < rows.terminal.fileAddr)
    (apart : sequences.Pairwise fun rows other => ∀ address, ¬ (rows.Contains address ∧ other.Contains address))
    {found : LineEntry Address File × Nat}
    (is : unit.findLineEntryByAddress (insertSequences sequences) address = some found) :
    ∃ rows ∈ sequences, ∃ entry next, rows.At address entry next := by
  obtain ⟨order, -, ordered, made⟩ := exists_rows_order occupied apart
  rw [made] at is
  obtain ⟨pos, entry, matched, got, plain⟩ := unit.matched_of_find is
  obtain ⟨sequence, member, front, next, back, split, reached, inside⟩ := matched_sequence ordered matched got plain
  obtain ⟨rows, -, rfl⟩ := List.mem_map.mp member
  exact ⟨rows.1, rows.2, entry, next, ⟨front, back, split⟩, plain, reached, inside⟩

/-- Sequences of separate ranges, put into a table in any order: it is in order, the sequences stay in
one piece, and an address is found at the entry where it lies in its sequence. -/
theorem sequences_found {Address File : Type} (unit : CompileUnit Address File)
    (occupied : ∀ rows ∈ sequences, rows.first.fileAddr < rows.terminal.fileAddr)
    (apart : sequences.Pairwise fun rows other => ∀ address, ¬ (rows.Contains address ∧ other.Contains address))
    (small : (sequences.map (·.sequence.length)).sum ≤ 2 ^ 32) :
    (insertSequences sequences).Pairwise (fun entry next => lessThan entry next = true) ∧
      (∃ order : List Rows, order.Perm sequences ∧ insertSequences sequences = (order.map (·.sequence)).flatten) ∧
      (∀ other : List Rows, other.Perm sequences → insertSequences other = insertSequences sequences) ∧
      (∀ rows ∈ sequences, ∀ entry ∈ rows.sequence, LastRow rows.toList entry) ∧
      ∀ address,
        ((∃ found, unit.findLineEntryByAddress (insertSequences sequences) address = some found) ↔
          ∃ rows ∈ sequences, rows.Contains address ∧
            ∀ entry next, rows.At address entry next → (unit.resolveFileAddress entry.fileAddr).isSome) ∧
        ∀ lineEntry index, unit.findLineEntryByAddress (insertSequences sequences) address = some (lineEntry, index) →
          ∃ rows ∈ sequences, ∃ entry next base, rows.At address entry next ∧
            (insertSequences sequences)[index]? = some entry ∧ unit.resolveFileAddress entry.fileAddr = some base ∧
            lineEntry = unit.lineEntry base (next.fileAddr - entry.fileAddr) entry := by
  obtain ⟨pieces, inPieces, whole, sorted⟩ := exists_pieces occupied apart
  refine ⟨sorted.imp lessThan_of_precedes, ⟨pieces, inPieces, whole⟩, fun other same =>
    insertSequences_perm same occupied apart,
    fun rows _ => rows.built.rows, fun address => ⟨⟨?_, ?_⟩, ?_⟩⟩
  · rintro ⟨found, is⟩
    obtain ⟨rows, there, entry, next, lies⟩ := exists_at_of_find unit occupied apart is
    refine ⟨rows, there, lies.contains (occupied rows there), fun entry' next' lies' => ?_⟩
    obtain ⟨pos, -, same⟩ := find_of_at unit occupied apart small there lies'
    rw [is] at same
    obtain ⟨base, resolved, -⟩ := map_eq_some_iff.mp same.symm
    rw [resolved]
    rfl
  · rintro ⟨rows, there, contains, resolves⟩
    obtain ⟨front, entry, next, back, split, reached, inside, plain⟩ :=
      @Sequence.Contains.exists_entry (rows.toSequence (occupied rows there)) _ contains
    have lies : rows.At address entry next := ⟨⟨front, back, split⟩, plain, reached, inside⟩
    obtain ⟨base, resolved⟩ := isSome_iff_exists.mp (resolves entry next lies)
    obtain ⟨pos, -, is⟩ := find_of_at unit occupied apart small there lies
    rw [is, resolved]
    exact ⟨_, rfl⟩
  · intro lineEntry index is
    obtain ⟨rows, there, entry, next, lies⟩ := exists_at_of_find unit occupied apart is
    obtain ⟨pos, atEntry, same⟩ := find_of_at unit occupied apart small there lies
    rw [is] at same
    obtain ⟨base, resolved, pair⟩ := map_eq_some_iff.mp same.symm
    obtain ⟨rfl, rfl⟩ := Prod.mk.inj pair
    exact ⟨rows, there, entry, next, base, lies, atEntry, resolved, rfl⟩

/-! Some tables. -/

def row (address : Nat) (terminal : Bool) : Entry := ⟨address, 1, 0, 1, true, false, false, false, terminal⟩

/-- A row at each address from 0 on, as far as there is to be a terminal one. -/
def Rows.upTo (count : Nat) (bounded : count + 1 < 2 ^ 64) : Rows where
  first := row 0 false
  others := (List.range count).map fun address => row (address + 1) false
  terminal := row (count + 1) true
  plain := by
    rintro entry (_ | ⟨_, there⟩)
    · rfl
    · obtain ⟨address, -, rfl⟩ := List.mem_map.mp there
      rfl
  ends := rfl
  rises := by
    rw [List.pairwise_append, List.pairwise_cons]
    refine ⟨⟨fun _ _ => Nat.zero_le _, ?_⟩, List.pairwise_singleton _ _, fun entry there last is => ?_⟩
    · rw [List.pairwise_map]
      exact List.pairwise_lt_range.imp fun less => Nat.succ_le_succ less.le
    · rw [List.mem_singleton.mp is]
      rcases List.mem_cons.mp there with rfl | there
      · exact Nat.zero_le _
      · obtain ⟨address, small, rfl⟩ := List.mem_map.mp there
        exact Nat.succ_le_succ (List.mem_range.mp small).le
  bounded := bounded

def Rows.single (low high : Nat) (order : low ≤ high) (bounded : high < 2 ^ 64) : Rows where
  first := row low false
  others := []
  terminal := row high true
  plain := by
    rintro entry (_ | ⟨_, ⟨⟩⟩)
    rfl
  ends := rfl
  rises := List.pairwise_cons.mpr
    ⟨fun last is => by rw [List.mem_singleton.mp is]; exact order, List.pairwise_singleton _ _⟩
  bounded := bounded

theorem foldl_append_of_rises {rows : List Entry}
    (rises : rows.Pairwise fun entry next => entry.fileAddr < next.fileAddr) :
    rows.foldl appendLineEntryToSequence [] = rows := by
  induction rows using List.reverseRecOn with
  | nil => rfl
  | append_singleton rows row ih =>
    obtain ⟨before, -, across⟩ := List.pairwise_append.mp rises
    rw [List.foldl_append, ih before, List.foldl_cons, List.foldl_nil, appendLineEntryToSequence]
    cases ended : rows.getLast? with
    | none => rfl
    | some back =>
      have less := across back (List.mem_of_getLast? ended) row List.mem_cons_self
      simp only
      rw [if_neg (ne_of_lt less)]

variable (count : Nat)

theorem Rows.toList_upTo (bounded : count + 1 < 2 ^ 64) :
    (upTo count bounded).toList = (List.range (count + 1)).map (row · false) ++ [row (count + 1) true] := by
  rw [List.range_succ_eq_map, List.map_cons, List.map_map]
  rfl

theorem Rows.sequence_upTo (bounded : count + 1 < 2 ^ 64) :
    (upTo count bounded).sequence = (List.range (count + 1)).map (row · false) ++ [row (count + 1) true] := by
  rw [sequence, toList_upTo]
  apply foldl_append_of_rises
  rw [List.pairwise_append, List.pairwise_map]
  refine ⟨List.pairwise_lt_range, List.pairwise_singleton _ _, fun entry there last is => ?_⟩
  rw [List.mem_singleton.mp is]
  obtain ⟨address, small, rfl⟩ := List.mem_map.mp there
  exact List.mem_range.mp small

theorem insertSequences_upTo (bounded : count + 1 < 2 ^ 64) : insertSequences [upTo count bounded] =
      (List.range (count + 1)).map (row · false) ++ [row (count + 1) true] := by
  rw [insertSequences, List.foldl_cons, sequence_upTo]
  cases (List.range (count + 1)).map (row · false) <;> rfl

theorem getElem?_upTo {count : Nat} (bounded : count + 1 < 2 ^ 64) {pos : Nat} (small : pos ≤ count) :
    (insertSequences [upTo count bounded])[pos]? = some (row pos false) := by
  rw [insertSequences_upTo, List.getElem?_append_left (by rw [List.length_map, List.length_range]; omega),
    List.getElem?_map,
    List.getElem?_range (Nat.lt_succ_of_le small)]
  rfl

theorem matched_upTo (bounded : count + 1 < 2 ^ 64) :
    matched (insertSequences [upTo count bounded]) count = some count := by
  have atLast : (insertSequences [upTo count bounded])[count + 1]? = some (row (count + 1) true) := by
    rw [insertSequences_upTo]
    simp
  have sorted : Sorted (insertSequences [upTo count bounded]) := by
    refine (exists_pieces ?_ (List.pairwise_singleton _ _)).choose_spec.2.2
    intro rows there
    rw [List.mem_singleton.mp there]
    exact Nat.succ_pos count
  refine sorted.matched ?_ (getElem?_upTo bounded le_rfl) atLast rfl le_rfl (Nat.lt_succ_self _)
  rw [List.head?_eq_getElem?, getElem?_upTo bounded (Nat.zero_le _)]
  rintro first ⟨⟩
  rfl

def everywhere : CompileUnit Nat Unit := ⟨some, fun _ => ()⟩

theorem sequences_found_touching : ∃ found, everywhere.findLineEntryByAddress
      (insertSequences [single 10 20 (by decide) (by decide), single 0 10 (by decide) (by decide)]) 10 =
        some found := by
  refine ((sequences_found everywhere ?_ ?_ (by decide)).2.2.2.2 10).1.mpr
    ⟨single 10 20 (by decide) (by decide), List.mem_cons_self, ⟨le_rfl, by decide⟩, fun _ _ _ => rfl⟩
  · rintro rows (_ | ⟨_, _ | ⟨_, ⟨⟩⟩⟩) <;> decide
  · refine List.pairwise_cons.mpr ⟨fun other is => ?_, List.pairwise_singleton _ _⟩
    rw [List.mem_singleton.mp is]
    rintro address ⟨⟨low, -⟩, -, high⟩
    exact absurd (low.trans_lt high) (by decide)

theorem find_upTo {count : Nat} (bounded : count + 1 < 2 ^ 64) (wraps : count % 2 ^ 32 = 0) (positive : 0 < count) :
    everywhere.findLineEntryByAddress (insertSequences [upTo count bounded]) count =
      some (everywhere.lineEntry 0 1 (row 0 false), 0) :=
  everywhere.find_at (matched_upTo count bounded) (getElem?_upTo bounded le_rfl) rfl wraps
    (getElem?_upTo bounded (Nat.zero_le _))
    (getElem?_upTo bounded positive) rfl (by omega) (Nat.zero_le _) (by decide)

/-- Rows that all have one address leave a table out of order, an address in no section is not found,
and the index of an entry behind 2^32 others is another one's. -/
theorem sequences_not_found : (∀ address, ¬ ((single 0 10 (by decide) (by decide)).Contains address ∧
        (single 5 5 (by decide) (by decide)).Contains address)) ∧
      ¬ (insertSequences [single 0 10 (by decide) (by decide), single 5 5 (by decide) (by decide)]).Pairwise
        (fun entry next => lessThan entry next = true) ∧
      (single 0 10 (by decide) (by decide)).Contains 3 ∧
      (⟨fun _ => none, fun _ => ()⟩ : CompileUnit Nat Unit).findLineEntryByAddress
        (insertSequences [single 0 10 (by decide) (by decide)]) 3 = none ∧
      (upTo (2 ^ 32) (by decide)).Contains (2 ^ 32) ∧
      everywhere.findLineEntryByAddress (insertSequences [upTo (2 ^ 32) (by decide)]) (2 ^ 32) =
        some (everywhere.lineEntry 0 1 (row 0 false), 0) := by
  refine ⟨?_, by decide, ⟨by decide, by decide⟩, by decide, ⟨Nat.zero_le _, Nat.lt_succ_self _⟩,
    find_upTo (by decide) (by decide) (by decide)⟩
  rintro address ⟨-, low, high⟩
  exact absurd (low.trans_lt high) (by decide)

end Lldb.LineTable
