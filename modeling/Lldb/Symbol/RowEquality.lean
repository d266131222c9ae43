import Lldb.Library.OrderedMap
import Lldb.Process.RegisterContextLLDB

/-! `operator==` of `UnwindPlan::Row`, and what equal rows say about a frame. -/

set_option autoImplicit false

namespace Lldb

open Library RegisterLocation List Option

/-- `!memcmp`; what is not there is not read. -/
def sameMemory (left right : List UInt8) (length : Nat) : Option Bool :=
  if length ≤ left.length ∧ length ≤ right.length then some (left.take length = right.take length) else none

namespace DWARFExpr

def equal (left right : DWARFExpr) : Option Bool :=
  if left.length = right.length then sameMemory left.opcodes right.opcodes left.length else some false

def trimmed (expr : DWARFExpr) : DWARFExpr := ⟨expr.bytes, expr.length⟩

theorem bytes_trimmed (expr : DWARFExpr) : expr.trimmed.bytes = expr.bytes := by
  simp [trimmed, bytes]

theorem trimmed_of_equal {left right : DWARFExpr} (equal_ : left.equal right = some true) :
    left.trimmed = right.trimmed := by
  unfold equal sameMemory at equal_
  split at equal_
  · rename_i length
    split at equal_
    · have bytes_ : left.opcodes.take left.length = right.opcodes.take left.length := by simpa using equal_
      rw [trimmed, trimmed, bytes, bytes, bytes_, length]
    · cases equal_
  · cases equal_

end DWARFExpr

namespace RegisterLocation

def equal : RegisterLocation → RegisterLocation → Option Bool
  | unspecified, unspecified | undefined, undefined | same, same => some true
  | atCFAPlusOffset offset, atCFAPlusOffset other | isCFAPlusOffset offset, isCFAPlusOffset other =>
    some (offset = other)
  | inOtherRegister regNum, inOtherRegister other => some (regNum = other)
  | atDWARFExpression expr, atDWARFExpression other | isDWARFExpression expr, isDWARFExpression other =>
    expr.equal other
  | _, _ => some false

def trimmed : RegisterLocation → RegisterLocation
  | atDWARFExpression expr => atDWARFExpression expr.trimmed
  | isDWARFExpression expr => isDWARFExpression expr.trimmed
  | other => other

theorem trimmed_of_equal {left right : RegisterLocation} (equal_ : left.equal right = some true) :
    left.trimmed = right.trimmed := by
  cases left <;> cases right <;> simp only [equal, reduceCtorEq, Option.some.injEq, decide_eq_true_eq] at equal_
  case atDWARFExpression => exact congrArg atDWARFExpression (DWARFExpr.trimmed_of_equal equal_)
  case isDWARFExpression => exact congrArg isDWARFExpression (DWARFExpr.trimmed_of_equal equal_)
  all_goals first | rfl | rw [equal_]

end RegisterLocation

namespace CFAValue

def equal : CFAValue → CFAValue → Option Bool
  | unspecified, unspecified => some true
  | isRegisterPlusOffset _ offset, isRegisterPlusOffset _ other => some (offset = other)
  | isRegisterDereferenced regNum, isRegisterDereferenced other => some (regNum = other)
  | isDWARFExpression expr, isDWARFExpression other => expr.equal other
  | _, _ => some false

def trimmed : CFAValue → CFAValue
  | isDWARFExpression expr => isDWARFExpression expr.trimmed
  | other => other

theorem trimmed_of_equal {left right : CFAValue} (equal_ : left.equal right = some true)
    (registers : left.getRegisterNumber = right.getRegisterNumber) : left.trimmed = right.trimmed := by
  cases left <;> cases right <;> simp only [equal, reduceCtorEq, Option.some.injEq, decide_eq_true_eq] at equal_
  case isRegisterPlusOffset => exact congrArg₂ isRegisterPlusOffset registers equal_
  case isDWARFExpression => exact congrArg isDWARFExpression (DWARFExpr.trimmed_of_equal equal_)
  all_goals first | rfl | rw [equal_]

theorem register_of_equal {left right : CFAValue} (equal_ : left.equal right = some true)
    (registers : left.getRegisterNumber ≠ right.getRegisterNumber) :
    ∃ regNum other offset, left = isRegisterPlusOffset regNum offset ∧ right = isRegisterPlusOffset other offset ∧
      regNum ≠ other := by
  cases left <;> cases right <;> simp only [equal, reduceCtorEq, Option.some.injEq, decide_eq_true_eq] at equal_
  case isRegisterPlusOffset regNum offset other otherOffset =>
    exact ⟨regNum, other, offset, rfl, congrArg _ equal_.symm, registers⟩
  all_goals first | exact absurd rfl registers | exact absurd equal_ registers

end CFAValue

structure StoredRow where
  offset : Nat
  cfaValue : CFAValue
  registerLocations : OrderedMap Nat RegisterLocation

namespace StoredRow

def row (stored : StoredRow) : Row := ⟨stored.offset, stored.cfaValue, stored.registerLocations.find?⟩

def equalEntries : List (Nat × RegisterLocation) → List (Nat × RegisterLocation) → Option Bool
  | (key, location) :: rest, (otherKey, otherLocation) :: others => do
    if key = otherKey then
      if ← location.equal otherLocation then equalEntries rest others else return false
    else return false
  | _, _ => some true

def equalLocations (left right : List (Nat × RegisterLocation)) : Option Bool :=
  if left.length = right.length then equalEntries left right else some false

def equal (left right : StoredRow) : Option Bool := do
  if left.offset = right.offset then
    if ← left.cfaValue.equal right.cfaValue then
      equalLocations left.registerLocations.entries right.registerLocations.entries
    else return false
  else return false

theorem find_of_equalEntries {left right : List (Nat × RegisterLocation)} (length : left.length = right.length)
    (equal_ : equalEntries left right = some true) (key : Nat) :
    ((left.find? fun entry => entry.1 = key).map fun entry => entry.2.trimmed) =
      (right.find? fun entry => entry.1 = key).map fun entry => entry.2.trimmed := by
  induction left generalizing right with
  | nil =>
    rw [length_eq_zero_iff.mp length.symm]
  | cons first rest ih =>
    cases right with
    | nil => cases length
    | cons other others =>
      rw [equalEntries] at equal_
      by_cases keys : first.1 = other.1
      · rw [if_pos keys] at equal_
        obtain ⟨found, locations, further⟩ := bind_eq_some_iff.mp equal_
        cases found with
        | false => cases further
        | true =>
          have trimmed := trimmed_of_equal locations
          have later := ih (Nat.succ.inj length) further
          by_cases here : other.1 = key
          · rw [find?_cons_of_pos (by simpa [keys] using here), find?_cons_of_pos (by simpa using here)]
            exact congrArg some trimmed
          · rw [find?_cons_of_neg (by simpa [keys] using here), find?_cons_of_neg (by simpa using here)]
            exact later
      · rw [if_neg keys] at equal_
        cases equal_

/-- What `operator==` has compared. -/
theorem of_equal {left right : StoredRow} (equal_ : left.equal right = some true) :
    left.cfaValue.equal right.cfaValue = some true ∧ ∀ regNum, (left.row.getRegisterInfo regNum).map trimmed =
        (right.row.getRegisterInfo regNum).map trimmed := by
  unfold equal at equal_
  split at equal_
  · obtain ⟨found, cfa, further⟩ := bind_eq_some_iff.mp equal_
    cases found with
    | false => cases further
    | true =>
      refine ⟨cfa, fun regNum => ?_⟩
      change equalLocations _ _ = some true at further
      unfold equalLocations at further
      split at further
      · rename_i length
        have found := find_of_equalEntries length further regNum
        change ((left.registerLocations.entries.find? _).map Prod.snd).map trimmed =
          ((right.registerLocations.entries.find? _).map Prod.snd).map trimmed
        rw [Option.map_map, Option.map_map]
        exact found
      · cases further
  · cases equal_

end StoredRow

namespace UnwindFrame

variable (frame : UnwindFrame) (fuel : Nat)

theorem evaluateExpression_trimmed (expr : DWARFExpr) :
    frame.evaluateExpression fuel expr.trimmed = frame.evaluateExpression fuel expr := by
  unfold evaluateExpression
  rw [DWARFExpr.bytes_trimmed]
  rfl

theorem savedLocation_trimmed (cfa regNum : Nat) (location : Option RegisterLocation) :
    frame.savedLocation fuel cfa regNum (location.map trimmed) = frame.savedLocation fuel cfa regNum location := by
  cases location with
  | none => rfl
  | some location =>
    cases location with
    | isDWARFExpression expr | atDWARFExpression expr =>
      simp [trimmed, savedLocation, evaluateExpression_trimmed]
    | _ => rfl

theorem readCFAValueForRow_congr {left right : Row} (cfa : left.cfaValue.trimmed = right.cfaValue.trimmed) :
    frame.readCFAValueForRow fuel left = frame.readCFAValueForRow fuel right := by
  have trimmed (row : Row) :
      frame.readCFAValueForRow fuel row = frame.readCFAValueForRow fuel (row.setCFAValue row.cfaValue.trimmed) := by
    obtain ⟨offset, value, locations⟩ := row
    cases value with
    | isDWARFExpression expr => exact (frame.evaluateExpression_trimmed fuel expr).symm
    | _ => rfl
  rw [trimmed left, trimmed right, cfa]
  rfl

theorem recover_congr {left right : Row} (cfa : left.cfaValue.trimmed = right.cfaValue.trimmed)
    (locations : ∀ regNum, (left.getRegisterInfo regNum).map trimmed =
      (right.getRegisterInfo regNum).map trimmed) (regNum : Nat) :
    frame.recover fuel left regNum = frame.recover fuel right regNum := by
  have either (fallback : Option RegisterLocation) :
      (left.getRegisterInfo regNum <|> fallback).map trimmed =
        (right.getRegisterInfo regNum <|> fallback).map trimmed := by
    have here := locations regNum
    cases first : left.getRegisterInfo regNum <;> cases second : right.getRegisterInfo regNum <;>
      rw [first, second] at here
    case some.some => exact here
    all_goals cases here
  have saved (cfa : Nat) : frame.savedLocationForRegister fuel cfa left regNum =
      frame.savedLocationForRegister fuel cfa right regNum := by
    unfold savedLocationForRegister
    rw [← savedLocation_trimmed, either, savedLocation_trimmed]
  unfold recover
  rw [frame.readCFAValueForRow_congr fuel cfa]
  simp [saved]

end UnwindFrame

open StoredRow

def twoRegisters (regNum : Nat) : UnwindFrame where
  registers other := if other = regNum then some 0x1000 else some 0x2000
  byteSize _ := some 8
  memory _ := none
  byteOrder := .little
  addressByteSize := 8
  isFrameZero := true
  isPCOrRA _ := false
  getFallbackRegisterLocation _ := none
  otherOpcode _ _ _ := throw ""

theorem twoRegisters_readCFAValueForRow {regNum other : Nat} (ne : regNum ≠ other) {left right : Row} {offset : Int}
    (first : left.cfaValue = .isRegisterPlusOffset regNum offset)
    (second : right.cfaValue = .isRegisterPlusOffset other offset) :
    (twoRegisters regNum).readCFAValueForRow 0 left ≠ (twoRegisters regNum).readCFAValueForRow 0 right := by
  have reads : (twoRegisters regNum).readCFAValueForRow 0 left = some (some (addOffset 0x1000 offset)) := by
    unfold UnwindFrame.readCFAValueForRow
    rw [first]
    simp [twoRegisters, invalidUnwindAddress]
  have reads' : (twoRegisters regNum).readCFAValueForRow 0 right = some (some (addOffset 0x2000 offset)) := by
    unfold UnwindFrame.readCFAValueForRow
    rw [second]
    simp [twoRegisters, invalidUnwindAddress, ne.symm]
  rw [reads, reads']
  simp only [addOffset, ne_eq, Option.some.injEq]
  omega

/-- When equal rows unwind every frame the same way. -/
theorem StoredRow.equal_unwinds_iff (left right : StoredRow) (equal_ : left.equal right = some true) :
    (∀ (frame : UnwindFrame) (fuel : Nat),
        frame.readCFAValueForRow fuel left.row = frame.readCFAValueForRow fuel right.row ∧
          ∀ regNum, frame.recover fuel left.row regNum = frame.recover fuel right.row regNum) ↔
      left.cfaValue.getRegisterNumber = right.cfaValue.getRegisterNumber := by
  obtain ⟨cfa, locations⟩ := of_equal equal_
  constructor
  · intro unwinds
    by_contra registers
    obtain ⟨regNum, other, offset, first, second, ne⟩ := CFAValue.register_of_equal cfa registers
    exact twoRegisters_readCFAValueForRow ne first second (unwinds (twoRegisters regNum) 0).1
  · intro registers frame fuel
    have trimmed := CFAValue.trimmed_of_equal cfa registers
    exact ⟨frame.readCFAValueForRow_congr fuel trimmed, frame.recover_congr fuel trimmed locations⟩

theorem StoredRow.equal_unwinds_iff_expression : (∀ (frame : UnwindFrame) (fuel : Nat),
        frame.readCFAValueForRow fuel (StoredRow.row ⟨4, .isDWARFExpression ⟨[0x31], 1⟩, .empty⟩) =
            frame.readCFAValueForRow fuel (StoredRow.row ⟨4, .isDWARFExpression ⟨[0x31, 0x96], 1⟩, .empty⟩) ∧
          ∀ regNum, frame.recover fuel (StoredRow.row ⟨4, .isDWARFExpression ⟨[0x31], 1⟩, .empty⟩) regNum =
            frame.recover fuel (StoredRow.row ⟨4, .isDWARFExpression ⟨[0x31, 0x96], 1⟩, .empty⟩) regNum) ↔
      invalidRegNum = invalidRegNum :=
  StoredRow.equal_unwinds_iff ⟨4, .isDWARFExpression ⟨[0x31], 1⟩, .empty⟩
    ⟨4, .isDWARFExpression ⟨[0x31, 0x96], 1⟩, .empty⟩ rfl

/-- The stack pointer plus 16 equals the frame pointer plus 16. -/
theorem StoredRow.equal_not_unwinds :
    StoredRow.equal ⟨0, .isRegisterPlusOffset 7 16, .empty⟩ ⟨0, .isRegisterPlusOffset 6 16, .empty⟩ = some true ∧
      (twoRegisters 7).readCFAValueForRow 0 (StoredRow.row ⟨0, .isRegisterPlusOffset 7 16, .empty⟩) =
        some (some 0x1010) ∧
      (twoRegisters 7).readCFAValueForRow 0 (StoredRow.row ⟨0, .isRegisterPlusOffset 6 16, .empty⟩) =
        some (some 0x2010) :=
  ⟨rfl, rfl, rfl⟩

end Lldb
