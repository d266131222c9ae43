import Mathlib.Algebra.Group.Int.Defs
import Mathlib.Algebra.Group.Nat.Defs
import Mathlib.Tactic.Common

/-! `UnwindPlan`: for offsets into a function, how to find the canonical frame address and the
registers of the caller.
-/

set_option autoImplicit false

namespace Lldb

open List

/-- The bytes that `opcodes` points to, and the field `length`. -/
structure DWARFExpr where
  opcodes : List UInt8
  length : Nat
  deriving DecidableEq, Repr

inductive RegisterLocation where
  | unspecified
  | undefined
  | same
  | atCFAPlusOffset (offset : Int)
  | isCFAPlusOffset (offset : Int)
  | inOtherRegister (regNum : Nat)
  | atDWARFExpression (expr : DWARFExpr)
  | isDWARFExpression (expr : DWARFExpr)
  deriving DecidableEq, Repr

inductive CFAValue where
  | unspecified
  | isRegisterPlusOffset (regNum : Nat) (offset : Int)
  | isRegisterDereferenced (regNum : Nat)
  | isDWARFExpression (expr : DWARFExpr)
  deriving DecidableEq, Repr

/-- `LLDB_INVALID_REGNUM` -/
def invalidRegNum : Nat := 2 ^ 32 - 1

namespace CFAValue

def getRegisterNumber : CFAValue → Nat
  | isRegisterPlusOffset regNum _ => regNum
  | isRegisterDereferenced regNum => regNum
  | unspecified | isDWARFExpression _ => invalidRegNum

def getOffset : CFAValue → Int
  | isRegisterPlusOffset _ offset => offset
  | unspecified | isRegisterDereferenced _ | isDWARFExpression _ => 0

/-- The offset is an `int32_t`. -/
def incOffset (value : CFAValue) (delta : Int) : CFAValue :=
  match value with
  | isRegisterPlusOffset regNum offset => isRegisterPlusOffset regNum ((offset + delta).bmod (2 ^ 32))
  | other => other

def setOffset (value : CFAValue) (offset : Int) : CFAValue :=
  match value with
  | isRegisterPlusOffset regNum _ => isRegisterPlusOffset regNum offset
  | other => other

end CFAValue

structure Row where
  offset : Nat
  cfaValue : CFAValue
  registerLocations : Nat → Option RegisterLocation

namespace Row

def empty : Row := ⟨0, .unspecified, fun _ => none⟩

def getRegisterInfo (row : Row) (regNum : Nat) : Option RegisterLocation := row.registerLocations regNum

def setRegisterInfo (row : Row) (regNum : Nat) (location : RegisterLocation) : Row :=
  { row with registerLocations := Function.update row.registerLocations regNum (some location) }

def removeRegisterInfo (row : Row) (regNum : Nat) : Row :=
  { row with registerLocations := Function.update row.registerLocations regNum none }

def setCFAValue (row : Row) (value : CFAValue) : Row := { row with cfaValue := value }

def setOffset (row : Row) (offset : Nat) : Row := { row with offset := offset }

def slideOffset (row : Row) (offset : Nat) : Row := { row with offset := (row.offset + offset) % 2 ^ 64 }

end Row

inductive RegisterKind where
  | eHFrame
  | dwarf
  deriving DecidableEq, Repr

structure UnwindPlan where
  rowList : List Row
  sourceName : String
  registerKind : RegisterKind
  returnAddrRegister : Nat
  /-- Base and size of the range the plan is valid for. -/
  validAddressRange : Option (Nat × Nat)
  /-- File addresses of the language specific data and of the personality routine's pointer, before
  the module resolves them. -/
  lsda : Option (Nat × Nat)

namespace UnwindPlan

def appendRow (rowList : List Row) (row : Row) : List Row :=
  match rowList.getLast? with
  | none => [row]
  | some last => if last.offset ≠ row.offset then rowList ++ [row] else rowList.dropLast ++ [row]

/-- Without `replace_existing` a row that is there for the offset stays. -/
def insertRow (row : Row) : List Row → List Row
  | [] => [row]
  | first :: rest =>
    if row.offset ≤ first.offset then
      if first.offset ≠ row.offset then row :: first :: rest else first :: rest
    else first :: insertRow row rest

/-- The loop of `GetRowForFunctionOffset`: the last row before the first that is too far. -/
def bestRow (offset : Nat) : Option Row → List Row → Option Row
  | best, [] => best
  | best, row :: rest => if row.offset ≤ offset then bestRow offset (some row) rest else best

/-- The offset is an int, and -1 stands for a function whose start is not known. -/
def getRowForFunctionOffset (rowList : List Row) (offset : Int) : Option Row :=
  if offset = -1 then rowList.getLast? else bestRow (offset % 2 ^ 64).toNat none rowList

variable {rowList front back : List Row} {row : Row} {offset : Nat}

theorem bestRow_append (offset : Nat) (best : Option Row) (ordered : ∀ other ∈ rowList, other.offset ≤ row.offset) :
    bestRow offset best (rowList ++ [row]) = if row.offset ≤ offset then some row else bestRow offset best rowList := by
  induction rowList generalizing best with
  | nil => rfl
  | cons first rest ih =>
    have bound := ordered first mem_cons_self
    have later := ih (some first) fun other member => ordered other (mem_cons_of_mem _ member)
    simp only [cons_append, bestRow]
    by_cases reached : first.offset ≤ offset
    · simp [if_pos reached, later]
    · rw [if_neg reached, if_neg reached, if_neg (by omega)]

theorem bestRow_appendRow (offset : Nat) (ordered : ∀ other ∈ rowList, other.offset ≤ row.offset) :
    bestRow offset none (appendRow rowList row) =
      if row.offset ≤ offset then some row else bestRow offset none rowList := by
  unfold appendRow
  cases list : rowList.getLast? with
  | none =>
    rw [getLast?_eq_none_iff] at list
    subst list
    rfl
  | some last =>
    simp only
    obtain ⟨front, rfl⟩ := getLast?_eq_some_iff.mp list
    have before : ∀ other ∈ front, other.offset ≤ row.offset := fun other member =>
      ordered other (mem_append_left _ member)
    by_cases fresh : last.offset ≠ row.offset
    · rw [if_pos fresh, bestRow_append offset none ordered]
    · rw [not_not] at fresh
      rw [if_neg (not_not.mpr fresh), dropLast_concat, bestRow_append offset none before,
        bestRow_append offset none (by simpa [fresh] using before), fresh]
      split <;> rfl

theorem bestRow_concat_of_lt (beyond : offset < row.offset) (best : Option Row)
    (rowList : List Row) : bestRow offset best (rowList ++ [row]) = bestRow offset best rowList := by
  induction rowList generalizing best with
  | nil => exact if_neg (Nat.not_le.mpr beyond)
  | cons first rest ih =>
    simp only [cons_append, bestRow]
    rw [ih]

theorem bestRow_append_of_mem {later : Row} (member : later ∈ rowList)
    (beyond : offset < later.offset) (best : Option Row) (rest : List Row) :
    bestRow offset best (rowList ++ rest) = bestRow offset best rowList := by
  induction rowList generalizing best with
  | nil => exact absurd member not_mem_nil
  | cons first front ih =>
    simp only [cons_append, bestRow]
    rcases mem_cons.mp member with rfl | member
    · simp [if_neg (Nat.not_le.mpr beyond)]
    · rw [ih member]

theorem bestRow_appendRow_of_lt (beyond : offset < row.offset) (rowList : List Row) :
    bestRow offset none (appendRow rowList row) = bestRow offset none rowList := by
  unfold appendRow
  cases list : rowList.getLast? with
  | none =>
    rw [getLast?_eq_none_iff] at list
    subst list
    exact if_neg (Nat.not_le.mpr beyond)
  | some last =>
    simp only
    obtain ⟨front, rfl⟩ := getLast?_eq_some_iff.mp list
    by_cases fresh : last.offset ≠ row.offset
    · rw [if_pos fresh, bestRow_concat_of_lt beyond]
    · rw [not_not] at fresh
      rw [if_neg (not_not.mpr fresh), dropLast_concat, bestRow_concat_of_lt beyond, bestRow_concat_of_lt (by omega)]

theorem bestRow_insertRow_of_lt (beyond : offset < row.offset) (best : Option Row)
    (rowList : List Row) : bestRow offset best (insertRow row rowList) = bestRow offset best rowList := by
  induction rowList generalizing best with
  | nil => exact if_neg (Nat.not_le.mpr beyond)
  | cons first rest ih =>
    rw [insertRow]
    by_cases before : row.offset ≤ first.offset
    · rw [if_pos before]
      split
      · simp only [bestRow]
        rw [if_neg (Nat.not_le.mpr beyond), if_neg (by omega)]
      · rfl
    · rw [if_neg before]
      simp only [bestRow]
      rw [ih]

theorem bestRow_split (best : Option Row) {top : Row}
    (ahead : ∀ row ∈ front, row.offset ≤ offset) (reached : top.offset ≤ offset)
    (beyond : ∀ row ∈ back, offset < row.offset) : bestRow offset best (front ++ top :: back) = some top := by
  induction front generalizing best with
  | nil =>
    cases back with
    | nil => exact if_pos reached
    | cons next back =>
      have later := beyond next mem_cons_self
      simp [bestRow, if_pos reached, if_neg (Nat.not_le.mpr later)]
  | cons first front ih =>
    rw [cons_append, bestRow, if_pos (ahead first mem_cons_self)]
    exact ih _ fun row member => ahead row (mem_cons_of_mem _ member)

theorem insertRow_split (ahead : ∀ other ∈ front, other.offset < row.offset)
    (beyond : ∀ other ∈ back, row.offset < other.offset) : insertRow row (front ++ back) = front ++ row :: back := by
  induction front with
  | nil =>
    cases back with
    | nil => rfl
    | cons next back =>
      have later := beyond next mem_cons_self
      simp [insertRow, if_pos (Nat.le_of_lt later), if_pos (Nat.ne_of_gt later)]
  | cons first front ih =>
    simp [insertRow, if_neg (Nat.not_le.mpr (ahead first mem_cons_self)), ih fun other member => ahead other (mem_cons_of_mem _ member)]

theorem insertRow_existing {same : Row}
    (ahead : ∀ other ∈ front, other.offset < row.offset) (existing : same.offset = row.offset) :
    insertRow row (front ++ same :: back) = front ++ same :: back := by
  induction front with
  | nil => rw [nil_append, insertRow, if_pos (Nat.le_of_eq existing.symm), if_neg (not_not.mpr existing)]
  | cons first front ih =>
    simp [insertRow, if_neg (Nat.not_le.mpr (ahead first mem_cons_self)), ih fun other member => ahead other (mem_cons_of_mem _ member)]

theorem mem_appendRow {other : Row} (member : other ∈ appendRow rowList row) : other ∈ rowList ∨ other = row := by
  unfold appendRow at member
  split at member
  · exact .inr (by simpa using member)
  · split at member
    · simpa using member
    · rcases mem_append.mp member with old | new
      · exact .inl ((dropLast_sublist rowList).subset old)
      · exact .inr (by simpa using new)

end UnwindPlan

end Lldb
