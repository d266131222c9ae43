import Lldb.Library.Rounds
import Lldb.SymbolFile.DWARFDebugLine
import Lldb.Utility.CursorMoves

/-! The rounds of the opcode loop: what a round needs, and how it moves the offset. -/

set_option autoImplicit false

namespace Lldb.DebugLine

open Library DataExtractor Cursor

variable {data : DataExtractor} {state next : State} {offset after : Nat}

/-! What a round needs. -/

def RowFits (state : State) : Prop := state.row + 1 < 2 ^ 31

/-- A standard opcode's operands can be read, and the quotient that it uses is defined. -/
def StandardPasses (data : DataExtractor) (state : State) (opcode offset : Nat) : Prop :=
  match opcode with
  | 1 => RowFits state
  | 2 | 4 | 5 | 12 => (data.getULEB128 offset).isSome
  | 3 => (data.getSLEB128 offset).isSome
  | 8 => state.prologue.lineRange ≠ 0
  | _ => True

def ExtendedPasses (data : DataExtractor) (state : State) (offset : Nat) : Prop :=
  ∃ len behind, data.getULEB128 offset = some (len, behind) ∧
    ∃ subOpcode start, data.getU8 behind = some (subOpcode, start) ∧ match subOpcode with
      | 1 => RowFits state
      | 3 => ∃ name rest, data.getCStr start = some (name, rest) ∧ (getFileNameEntry data name rest).isSome
      | _ => True

/-- What an opcode needs: numbers that can be read, rows that can be counted, and a `line_range` to divide by. -/
def OpcodePasses (data : DataExtractor) (state : State) (opcode offset : Nat) : Prop :=
  if opcode = 0 then ExtendedPasses data state offset
  else if opcode < state.prologue.opcodeBase then StandardPasses data state opcode offset
  else state.prologue.lineRange ≠ 0 ∧ RowFits state

def LengthsKnown (state : State) : Prop :=
  state.prologue.standardOpcodeLengths.length = state.prologue.opcodeBase - 1

theorem appendRowToMatrix_isSome (offset : Nat) (state : State) :
    (state.appendRowToMatrix offset).isSome = true ↔ RowFits state := by
  unfold State.appendRowToMatrix RowFits
  split <;> simp_all

theorem lift_isSome {α : Type} (value : Option α) (offset : Nat) :
    ((StateT.lift value : Cursor α) offset).isSome = value.isSome := by
  cases value <;> rfl

theorem addrOffset_isSome (prologue : Prologue) (adjustOpcode : Nat) :
    (addrOffset prologue adjustOpcode).isSome = true ↔ prologue.lineRange ≠ 0 := by
  unfold addrOffset
  split <;> simp_all

theorem skipLEB128s_isSome (count offset : Nat) : (skipLEB128s data count offset).isSome = true := by
  induction count generalizing offset with
  | zero => rfl
  | succ count ih => exact ih _

theorem standardOpcode_isSome (known : LengthsKnown state) {opcode : Nat} (isOpcode : opcode ≠ 0)
    (standard : opcode < state.prologue.opcodeBase) :
    (standardOpcode data state opcode offset).isSome = true ↔ StandardPasses data state opcode offset := by
  unfold standardOpcode StandardPasses
  split
  · change (StateT.lift (state.appendRowToMatrix offset) offset).isSome = true ↔ RowFits state
    rw [lift_isSome, appendRowToMatrix_isSome]
  · exact Bool.eq_iff_iff.mp (map_isSome _ offset)
  · exact Bool.eq_iff_iff.mp (map_isSome _ offset)
  · exact Bool.eq_iff_iff.mp (map_isSome _ offset)
  · exact Bool.eq_iff_iff.mp (map_isSome _ offset)
  · exact iff_of_true rfl trivial
  · exact iff_of_true rfl trivial
  · refine (Bool.eq_iff_iff.mp (map_isSome _ offset)).trans ?_
    rw [lift_isSome]
    exact addrOffset_isSome state.prologue _
  · obtain ⟨delta, behind, read⟩ := exists_getMaxU64 data 2 offset
    refine (Bool.eq_iff_iff.mp (map_isSome _ offset)).trans (iff_of_true ?_ trivial)
    rw [getU16, read]
    rfl
  · exact iff_of_true rfl trivial
  · exact iff_of_true rfl trivial
  · exact Bool.eq_iff_iff.mp (map_isSome _ offset)
  · -- The opcode has a length, so the index is one of the vector.
    have inside : opcode - 1 < state.prologue.standardOpcodeLengths.length := by
      rw [known]
      exact Nat.sub_lt_sub_right (Nat.one_le_iff_ne_zero.mpr isOpcode) standard
    refine iff_of_true ?_ ?_
    · rw [List.getElem?_eq_getElem inside]
      exact (map_isSome (fun _ => state) offset).trans (skipLEB128s_isSome _ offset)
    · split <;> trivial

variable (argSize subOpcode : Nat)

theorem extendedArguments_isSome :
    (extendedArguments data state argSize subOpcode offset).isSome = true ↔ match subOpcode with
      | 1 => RowFits state
      | 3 => ∃ name rest, data.getCStr offset = some (name, rest) ∧ (getFileNameEntry data name rest).isSome = true
      | _ => True := by
  unfold extendedArguments
  split
  · refine (Bool.eq_iff_iff.mp (map_isSome State.reset offset)).trans ?_
    rw [lift_isSome, appendRowToMatrix_isSome]
    rfl
  · refine iff_of_true ?_ trivial
    split
    · obtain ⟨address, behind, read⟩ := exists_getMaxU64 data 4 offset
      refine (map_isSome (fun address => { state with address := address }) offset).trans ?_
      rw [getU32, read]
      rfl
    · obtain ⟨address, behind, read⟩ := exists_getMaxU64 data 8 offset
      refine (map_isSome (fun address => { state with address := address }) offset).trans ?_
      rw [getU64, read]
      rfl
  · rw [bind_isSome]
    refine exists_congr fun name => exists_congr fun rest => and_congr_right fun _ => ?_
    exact Bool.eq_iff_iff.mp (map_isSome _ rest)
  · refine iff_of_true rfl ?_
    split <;> trivial

theorem extendedOpcode_isSome :
    (extendedOpcode data state offset).isSome = true ↔ ExtendedPasses data state offset := by
  unfold extendedOpcode ExtendedPasses
  rw [bind_read (get_read offset), bind_isSome]
  refine exists_congr fun len => exists_congr fun behind => and_congr_right fun _ => ?_
  rw [bind_read (get_read behind), bind_isSome]
  exact exists_congr fun subOpcode => exists_congr fun start => and_congr_right fun _ =>
    extendedArguments_isSome _ subOpcode

variable (opcode : Nat)

theorem specialOpcode_isSome :
    (specialOpcode state opcode offset).isSome = true ↔ state.prologue.lineRange ≠ 0 ∧ RowFits state := by
  have appends (addrOffset : Nat) (lineOffset : Int) :
      ((do StateT.lift ((addAddress (addLine state lineOffset) addrOffset).appendRowToMatrix (← get)) :
        Cursor State) offset).isSome = true ↔ RowFits state := by
    change (StateT.lift ((addAddress (addLine state lineOffset) addrOffset).appendRowToMatrix offset) offset).isSome =
      true ↔ _
    rw [lift_isSome, appendRowToMatrix_isSome]
    rfl
  unfold specialOpcode
  rw [bind_isSome, ← addrOffset_isSome state.prologue (opcode - state.prologue.opcodeBase)]
  cases addrOffset state.prologue (opcode - state.prologue.opcodeBase) with
  | none => exact iff_of_false (fun ⟨_, _, is, _⟩ => nomatch is) fun both => nomatch both.1
  | some quotient =>
    rw [and_iff_right (show (some quotient).isSome = true from rfl)]
    constructor
    · rintro ⟨read, middle, is, rest⟩
      cases is
      exact (appends _ _).mp rest
    · exact fun fits => ⟨quotient, offset, rfl, (appends _ _).mpr fits⟩

theorem parseOpcode_isSome (known : LengthsKnown state) {opcode : UInt8} (is : data.bytes[offset]? = some opcode) :
    (parseOpcode data state offset).isSome = true ↔ OpcodePasses data state opcode.toNat (offset + 1) := by
  unfold parseOpcode OpcodePasses
  rw [bind_read (getU8_inside is)]
  by_cases extended : opcode.toNat = 0
  · rw [if_pos extended, if_pos extended]
    exact extendedOpcode_isSome
  · rw [if_neg extended, if_neg extended]
    by_cases standard : opcode.toNat < state.prologue.opcodeBase
    · rw [if_pos standard, if_pos standard]
      exact standardOpcode_isSome known extended standard
    · rw [if_neg standard, if_neg standard]
      exact specialOpcode_isSome opcode.toNat

/-! How a round moves the offset. -/

theorem forward_getFileNameEntry (name : Option (List UInt8)) : (getFileNameEntry data name).Forward :=
  forward_getULEB128.bind fun _ => forward_getULEB128.bind fun _ => forward_getULEB128.bind fun _ => .pure _

theorem forward_skipLEB128s (count : Nat) : (skipLEB128s data count).Forward := by
  induction count with
  | zero => exact .pure _
  | succ count ih => exact forward_skipLEB128.bind fun _ => ih

theorem forward_append (state : State) : (do StateT.lift (state.appendRowToMatrix (← get)) : Cursor State).Forward :=
  Forward.get.bind fun _ => .lift _

theorem forward_extendedArguments :
    (extendedArguments data state argSize subOpcode).Forward := by
  unfold extendedArguments
  split
  · exact Forward.get.bind fun _ => (Forward.lift _).bind fun _ => .pure _
  · split
    · exact (forward_getMaxU64 4).bind fun _ => .pure _
    · exact (forward_getMaxU64 8).bind fun _ => .pure _
  · exact forward_getCStr.bind fun _ => (forward_getFileNameEntry _).bind fun _ => .pure _
  · exact (Forward.skip argSize).bind fun _ => .pure _

theorem forward_extendedOpcode : (extendedOpcode data state).Forward :=
  Forward.get.bind fun _ => forward_getULEB128.bind fun _ => Forward.get.bind fun _ =>
    (forward_getMaxU64 1).bind fun _ => forward_extendedArguments _ _

theorem forward_standardOpcode : (standardOpcode data state opcode).Forward := by
  unfold standardOpcode
  split
  · exact forward_append state
  · exact forward_getULEB128.bind fun _ => .pure _
  · exact forward_getSLEB128.bind fun _ => .pure _
  · exact forward_getULEB128.bind fun _ => .pure _
  · exact forward_getULEB128.bind fun _ => .pure _
  · exact .pure _
  · exact .pure _
  · exact (Forward.lift _).bind fun _ => .pure _
  · exact (forward_getMaxU64 2).bind fun _ => .pure _
  · exact .pure _
  · exact .pure _
  · exact forward_getULEB128.bind fun _ => .pure _
  · exact (Forward.lift _).bind fun _ => (forward_skipLEB128s _).bind fun _ => .pure _

theorem forward_specialOpcode : (specialOpcode state opcode).Forward :=
  (Forward.lift _).bind fun _ => forward_append _

theorem lt_of_parseOpcode (inside : offset < data.bytes.length)
    (is : parseOpcode data state offset = some (next, after)) :
    offset < after := by
  unfold parseOpcode at is
  rw [bind_read (getU8_inside (List.getElem?_eq_getElem inside))] at is
  have ahead : offset + 1 ≤ after := by
    split at is
    · exact forward_extendedOpcode _ _ _ is
    · split at is
      · exact forward_standardOpcode _ _ _ _ is
      · exact forward_specialOpcode _ _ _ _ is
  exact ahead

/-! What a round keeps. -/

def Prologue.withoutFiles (prologue : Prologue) : Prologue := { prologue with fileNames := [] }

def KeepsPrologue (state next : State) : Prop := next.prologue.withoutFiles = state.prologue.withoutFiles

theorem keeps_append {moved appended : State} (is : moved.appendRowToMatrix offset = some appended)
    (keeps : KeepsPrologue state moved) : KeepsPrologue state appended := by
  unfold State.appendRowToMatrix at is
  split at is
  · cases is
    exact keeps
  · cases is

theorem keeps_extendedArguments :
    (extendedArguments data state argSize subOpcode).Gives (KeepsPrologue state) := by
  unfold extendedArguments
  split
  · intro offset value after is
    obtain ⟨read, middle, -, rest⟩ := bind_eq_some.mp is
    obtain ⟨appended, _, row, same⟩ := bind_eq_some.mp rest
    cases same
    have kept : KeepsPrologue state appended := by
      refine Gives.lift (fun _ found => ?_) _ _ _ row
      exact keeps_append found rfl
    exact kept
  · split
    · exact .bind fun _ => .pure rfl
    · exact .bind fun _ => .pure rfl
  · exact .bind fun _ => .bind fun _ => .pure rfl
  · exact .bind fun _ => .pure rfl

theorem keeps_standardOpcode : (standardOpcode data state opcode).Gives (KeepsPrologue state) := by
  unfold standardOpcode
  split
  · exact .bind fun _ => .lift fun _ row => keeps_append row rfl
  · exact .bind fun _ => .pure rfl
  · exact .bind fun _ => .pure rfl
  · exact .bind fun _ => .pure rfl
  · exact .bind fun _ => .pure rfl
  · exact .pure rfl
  · exact .pure rfl
  · exact .bind fun _ => .pure rfl
  · exact .bind fun _ => .pure rfl
  · exact .pure rfl
  · exact .pure rfl
  · exact .bind fun _ => .pure rfl
  · exact .bind fun _ => .bind fun _ => .pure rfl

theorem keeps_parseOpcode (state : State) : (parseOpcode data state).Gives (KeepsPrologue state) := by
  refine .bind fun opcode => ?_
  split
  · exact .bind fun _ => .bind fun _ => .bind fun _ => .bind fun _ => keeps_extendedArguments _ _
  · split
    · exact keeps_standardOpcode _
    · exact .bind fun _ => .bind fun _ => .lift fun _ row => keeps_append row rfl

theorem parseOpcode_behind (behind : data.bytes.length ≤ offset) (state : State) :
    parseOpcode data state offset = some (state, offset) := by
  have opcode := getU8_behind behind
  unfold parseOpcode
  rw [bind_read opcode, if_pos rfl]
  unfold extendedOpcode
  rw [bind_read (get_read offset), bind_read (getULEB128_behind behind)]
  change (data.getU8 >>= fun subOpcode =>
    extendedArguments data state (getArgSize (uint32 0) (offset - offset)) subOpcode) offset = _
  rw [bind_read opcode, Nat.sub_self]
  rfl

end Lldb.DebugLine
