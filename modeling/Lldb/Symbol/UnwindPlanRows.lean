import Lldb.Library.OrderedMap
import Lldb.Symbol.UnwindPlan
import Mathlib.Data.List.Sort

/-! Rows inserted into a plan in any order: the plan holds them as a map does, and finds the one in force. -/

set_option autoImplicit false

namespace Lldb.UnwindPlan

open Library List

/-- `InsertRow`, with the flag that says whether a row that is there for the offset is replaced. -/
def insertRowReplacing (replaceExisting : Bool) (row : Row) : List Row → List Row
  | [] => [row]
  | first :: rest =>
    if row.offset ≤ first.offset then
      if first.offset ≠ row.offset then row :: first :: rest
      else if replaceExisting then row :: rest else first :: rest
    else first :: insertRowReplacing replaceExisting row rest

theorem insertRow_eq (row : Row) (rowList : List Row) :
    insertRow row rowList = insertRowReplacing false row rowList := by
  induction rowList with
  | nil => rfl
  | cons first rest ih => simp [insertRow, insertRowReplacing, ih]

/-- A call of `InsertRow`. -/
structure InsertCall where
  row : Row
  replaceExisting : Bool

def insertRows (calls : List InsertCall) : List Row :=
  calls.foldl (fun rowList call => insertRowReplacing call.replaceExisting call.row rowList) []

/-- What a call does to a map from offsets to rows: it overwrites, or inserts if there is none. -/
def InsertCall.hold (held : OrderedMap Nat Row) (call : InsertCall) : OrderedMap Nat Row :=
  if call.replaceExisting then held.insert call.row.offset call.row else held.insertNew call.row.offset call.row

def heldRows (calls : List InsertCall) : OrderedMap Nat Row := calls.foldl InsertCall.hold .empty

def keyed (rowList : List Row) : List (Nat × Row) := rowList.map fun row => (row.offset, row)

theorem keyed_insertRow_replacing (row : Row) (rowList : List Row) :
    keyed (insertRowReplacing true row rowList) = OrderedMap.insertEntry row.offset row (keyed rowList) := by
  induction rowList with
  | nil => rfl
  | cons first rest ih =>
    change keyed (insertRowReplacing true row (first :: rest)) =
      OrderedMap.insertEntry row.offset row ((first.offset, first) :: keyed rest)
    rw [insertRowReplacing, OrderedMap.insertEntry]
    rcases lt_trichotomy row.offset first.offset with before | same | behind
    · rw [if_pos before.le, if_pos before.ne', if_pos before]
      rfl
    · rw [if_pos same.le, if_neg (not_not.mpr same.symm), if_neg same.not_lt, if_pos same]
      rfl
    · rw [if_neg behind.not_ge, if_neg behind.not_gt, if_neg behind.ne', ← ih]
      rfl

variable {rowList : List Row}

theorem insertRow_present {row : Row} (ordered : rowList.Pairwise fun row next => row.offset < next.offset)
    (present : ∃ other ∈ rowList, other.offset = row.offset) : insertRowReplacing false row rowList = rowList := by
  obtain ⟨other, member, same⟩ := present
  obtain ⟨front, back, rfl⟩ := append_of_mem member
  rw [← insertRow_eq]
  refine insertRow_existing (fun earlier inFront => ?_) same
  rw [← same]
  exact (pairwise_append.mp ordered).2.2 earlier inFront other mem_cons_self

theorem insertRow_absent {row : Row} (absent : ∀ other ∈ rowList, other.offset ≠ row.offset) :
    insertRowReplacing false row rowList = insertRowReplacing true row rowList := by
  induction rowList with
  | nil => rfl
  | cons first rest ih =>
    have fresh := absent first mem_cons_self
    simp [insertRowReplacing, if_pos fresh, ih fun other member => absent other (mem_cons_of_mem _ member)]

theorem ordered_of_entries {held : OrderedMap Nat Row} (same : keyed rowList = held.entries) :
    rowList.Pairwise fun row next => row.offset < next.offset := by
  have sorted := held.sorted
  rw [← same, keyed, pairwise_map] at sorted
  exact sorted

theorem InsertCall.hold_entries (call : InsertCall) {held : OrderedMap Nat Row} (same : keyed rowList = held.entries) :
    keyed (insertRowReplacing call.replaceExisting call.row rowList) = (call.hold held).entries := by
  obtain ⟨row, replaceExisting⟩ := call
  cases replaceExisting with
  | true =>
    change keyed (insertRowReplacing true row rowList) = OrderedMap.insertEntry row.offset row held.entries
    rw [keyed_insertRow_replacing, same]
  | false =>
    change keyed (insertRowReplacing false row rowList) = (held.insertNew row.offset row).entries
    have any : (held.entries.any fun entry => entry.1 = row.offset) = true ↔
        ∃ other ∈ rowList, other.offset = row.offset := by
      rw [← same, keyed, any_map, any_eq_true]
      simp only [Function.comp_apply, decide_eq_true_eq]
    unfold OrderedMap.insertNew
    by_cases present : ∃ other ∈ rowList, other.offset = row.offset
    · rw [insertRow_present (ordered_of_entries same) present, if_pos (any.mpr present), same]
    · have absent : ∀ other ∈ rowList, other.offset ≠ row.offset := fun other member equal =>
        present ⟨other, member, equal⟩
      rw [insertRow_absent absent, keyed_insertRow_replacing, same, if_neg (mt any.mp present)]
      rfl

theorem insertRows_entries (calls : List InsertCall) : keyed (insertRows calls) = (heldRows calls).entries := by
  have runs (rowList : List Row) (held : OrderedMap Nat Row) (same : keyed rowList = held.entries) :
      keyed (calls.foldl (fun rowList call => insertRowReplacing call.replaceExisting call.row rowList) rowList) =
        (calls.foldl InsertCall.hold held).entries := by
    induction calls generalizing rowList held with
    | nil => exact same
    | cons call calls ih => exact ih _ _ (call.hold_entries same)
  exact runs [] .empty rfl

def InForce (rowList : List Row) (offset : Nat) (row : Row) : Prop :=
  row ∈ rowList ∧ row.offset ≤ offset ∧ ∀ other ∈ rowList, other.offset ≤ offset → other.offset ≤ row.offset

/-- The loop of `GetRowForFunctionOffset` gives the row in force, and without one what it began with. -/
theorem bestRow_eq_some_iff (ordered : rowList.Pairwise fun row next => row.offset < next.offset)
    (offset : Nat) (best : Option Row) (row : Row) :
    bestRow offset best rowList = some row ↔
      InForce rowList offset row ∨ (∀ other ∈ rowList, offset < other.offset) ∧ best = some row := by
  induction rowList generalizing best with
  | nil => simp [bestRow, InForce]
  | cons first rest ih =>
    obtain ⟨below, tail⟩ := pairwise_cons.mp ordered
    rw [bestRow]
    by_cases reached : first.offset ≤ offset
    · have here : (∀ other ∈ rest, offset < other.offset) ∧ some first = some row ↔
          (∀ other ∈ rest, offset < other.offset) ∧ row = first := by simp [eq_comm]
      rw [if_pos reached, ih tail, here]
      constructor
      · rintro (⟨member, up, last⟩ | ⟨beyond, rfl⟩)
        · refine .inl ⟨mem_cons_of_mem _ member, up, fun other inside small => ?_⟩
          rcases mem_cons.mp inside with rfl | inside
          · exact (below row member).le
          · exact last other inside small
        · refine .inl ⟨mem_cons_self, reached, fun other inside small => ?_⟩
          rcases mem_cons.mp inside with rfl | inside
          · exact le_rfl
          · exact absurd (beyond other inside) small.not_gt
      · rintro (⟨member, up, last⟩ | ⟨beyond, -⟩)
        · rcases mem_cons.mp member with rfl | member
          · refine .inr ⟨fun other inside => ?_, rfl⟩
            by_contra small
            exact (below other inside).not_ge (last other (mem_cons_of_mem _ inside) (not_lt.mp small))
          · exact .inl ⟨member, up, fun other inside => last other (mem_cons_of_mem _ inside)⟩
        · exact absurd (beyond first mem_cons_self) reached.not_gt
    · have beyond : ∀ other ∈ first :: rest, offset < other.offset := by
        intro other inside
        rcases mem_cons.mp inside with rfl | inside
        · exact not_le.mp reached
        · exact (not_le.mp reached).trans (below other inside)
      have none_ : ¬ InForce (first :: rest) offset row := fun held => (beyond row held.1).not_ge held.2.1
      rw [if_neg reached, or_iff_right none_, and_iff_right beyond]

/-- The rows stay in order, are those of the map, and the row in force is found. -/
theorem insertRows_found (calls : List InsertCall) (offset : Int) (natural : 0 ≤ offset) (int : offset < 2 ^ 31) :
    (insertRows calls).Pairwise (fun row next => row.offset < next.offset) ∧
      (∀ key row, (heldRows calls).find? key = some row ↔ row ∈ insertRows calls ∧ row.offset = key) ∧
      ∀ row, getRowForFunctionOffset (insertRows calls) offset = some row ↔
        InForce (insertRows calls) offset.toNat row := by
  have entries := insertRows_entries calls
  have ordered := ordered_of_entries entries
  refine ⟨ordered, fun key row => ?_, fun row => ?_⟩
  · rw [OrderedMap.find?_eq_some_iff, ← entries, keyed, mem_map]
    constructor
    · rintro ⟨other, member, same⟩
      obtain ⟨rfl, rfl⟩ := Prod.mk.inj same
      exact ⟨member, rfl⟩
    · rintro ⟨member, rfl⟩
      exact ⟨row, member, rfl⟩
  · have cast : (offset % 2 ^ 64).toNat = offset.toNat := by omega
    rw [getRowForFunctionOffset, if_neg (by omega), cast, bestRow_eq_some_iff ordered]
    exact or_iff_left fun both => by cases both.2

theorem insertRows_found_replaced :
    (insertRows [⟨.empty, false⟩, ⟨.empty, true⟩]).Pairwise (fun row next => row.offset < next.offset) ∧
      (∀ key row, (heldRows [⟨.empty, false⟩, ⟨.empty, true⟩]).find? key = some row ↔
        row ∈ insertRows [⟨.empty, false⟩, ⟨.empty, true⟩] ∧ row.offset = key) ∧
      ∀ row, getRowForFunctionOffset (insertRows [⟨.empty, false⟩, ⟨.empty, true⟩]) 5 = some row ↔
        InForce (insertRows [⟨.empty, false⟩, ⟨.empty, true⟩]) 5 row :=
  insertRows_found [⟨.empty, false⟩, ⟨.empty, true⟩] 5 (by decide) (by decide)

/-- What a call does to the row that is held for its offset. -/
def InsertCall.holdRow (held : Option Row) (call : InsertCall) : Option Row :=
  if call.replaceExisting then some call.row else held.or (some call.row)

theorem InsertCall.find?_hold (held : OrderedMap Nat Row) (call : InsertCall) (offset : Nat) :
    (call.hold held).find? offset =
      if call.row.offset = offset then call.holdRow (held.find? offset) else held.find? offset := by
  unfold hold holdRow
  by_cases here : call.row.offset = offset
  · subst here
    cases call.replaceExisting with
    | true => simp [OrderedMap.find?_insert_self]
    | false =>
      cases found : held.find? call.row.offset with
      | none => simp [OrderedMap.insertNew_eq_insert found, OrderedMap.find?_insert_self]
      | some row =>
        have member := (held.find?_eq_some_iff _ _).mp found
        have there : held.entries.any (fun entry => entry.1 = call.row.offset) = true :=
          any_eq_true.mpr ⟨_, member, decide_eq_true rfl⟩
        simp [OrderedMap.insertNew, there, found]
  · have other : (held.insert call.row.offset call.row).find? offset = held.find? offset :=
      held.find?_insert_of_ne call.row (Ne.symm here)
    simp only [OrderedMap.insertNew, if_neg here]
    split_ifs <;> first | exact other | rfl

theorem find?_heldRows (calls : List InsertCall) (offset : Nat) : (heldRows calls).find? offset =
    (calls.filter fun call => call.row.offset = offset).foldl InsertCall.holdRow none := by
  have runs (held : OrderedMap Nat Row) : (calls.foldl InsertCall.hold held).find? offset =
      (calls.filter fun call => call.row.offset = offset).foldl InsertCall.holdRow (held.find? offset) := by
    induction calls generalizing held with
    | nil => rfl
    | cons call calls ih =>
      rw [foldl_cons, ih, InsertCall.find?_hold]
      by_cases here : call.row.offset = offset <;> simp [here]
  exact runs .empty

/-- Only the order among the calls of one offset matters. -/
theorem insertRows_eq_of_same {calls others : List InsertCall} (same : ∀ offset : Nat,
      (calls.filter fun call => call.row.offset = offset) = others.filter fun call => call.row.offset = offset) :
    insertRows calls = insertRows others := by
  let before (first second : Nat × Row) : Prop := first.1 < second.1
  have : Std.Irrefl before := ⟨fun _ => lt_irrefl _⟩
  have : Std.Antisymm before := ⟨fun _ _ less more => absurd less more.not_gt⟩
  -- Both lists are in order, and have the same row for each offset.
  have entries : (heldRows calls).entries = (heldRows others).entries :=
    List.Pairwise.eq_of_mem_iff (heldRows calls).sorted (heldRows others).sorted fun (offset, row) => by
      simp only [← OrderedMap.find?_eq_some_iff, find?_heldRows, same]
  rw [← insertRows_entries, ← insertRows_entries] at entries
  exact List.map_injective_iff.mpr (fun _ _ equal => congrArg Prod.snd equal) entries

/-- A row of another offset may come first. -/
theorem insertRows_eq_of_same_swapped : insertRows [⟨.empty, false⟩, ⟨{ Row.empty with offset := 4 }, true⟩] =
    insertRows [⟨{ Row.empty with offset := 4 }, true⟩, ⟨.empty, false⟩] :=
  insertRows_eq_of_same fun offset => by
    by_cases zero : 0 = offset
    · subst zero
      rfl
    · simp [filter_cons, Row.empty, zero]

end Lldb.UnwindPlan
