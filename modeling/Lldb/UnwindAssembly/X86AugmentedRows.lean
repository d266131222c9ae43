import Lldb.UnwindAssembly.X86Augment

/-! Where a plan's rows stand while its function is gone through: the row in force at an instruction and
the compiler's row for it, with the rows for later offsets as the compiler left them.
-/

set_option autoImplicit false

namespace Lldb

open Library.X86 X86AssemblyInspectionEngine Instruction List Option

/-- Among the instructions that are known, only a pop of the frame pointer and a leave begin so. -/
theorem length_of_head (size : WordSize) (instruction : Instruction) (known : ∀ bytes, instruction ≠ .other bytes)
    (head : (instruction.encode size).head? = some 0x5d ∨ (instruction.encode size).head? = some 0xc9) :
    (instruction.encode size).length = 1 := by
  have prefixes : ∀ bits : BitVec 4, (4#4 ++ bits : BitVec 8) ≠ 0x5d ∧ (4#4 ++ bits : BitVec 8) ≠ 0xc9 := by decide
  have stores : ∀ src base : BitVec 1, (0b01001#5 ++ src ++ 0#1 ++ base : BitVec 8) ≠ 0x5d ∧
      (0b01001#5 ++ src ++ 0#1 ++ base : BitVec 8) ≠ 0xc9 := by decide
  cases instruction with
  | other bytes => exact absurd rfl (known bytes)
  | pushReg reg =>
    clear known
    revert reg
    cases size <;> decide
  | popReg reg =>
    clear known
    revert reg
    cases size <;> decide
  | pushImm value => cases value <;> simp [encode] at head
  | pushRm rex mode rm rest =>
    cases rex with
    | none => simp [encode] at head
    | some bits =>
      simp only [encode, map_some, toList_some, cons_append, head?_cons, Option.some.injEq] at head
      rcases head with same | same
      · exact absurd same (prefixes bits).1
      · exact absurd same (prefixes bits).2
  | movSpBp load => cases load <;> cases size <;> simp [encode, rexW] at head
  | subSp amount | addSp amount => cases amount <;> cases size <;> simp [encode, rexW] at head
  | leaSp _ _ | leaBpSp _ => cases size <;> simp [encode, rexW] at head
  | leave => rfl
  | ret | retImm _ | callNext => simp [encode] at head
  | store src base displacement =>
    cases size with
    | four => simp [encode, rexStore] at head
    | eight =>
      simp only [encode, rexStore, cons_append, head?_cons, Option.some.injEq] at head
      rcases head with same | same
      · exact absurd same (stores _ _).1
      · exact absurd same (stores _ _).2

structure CompiledFunction extends AssembledFunction where
  /-- From the plan's register numbers to the debugger's. -/
  convert : Nat → Nat
  rowList : List Row

namespace CompiledFunction

variable (function : CompiledFunction)

structure WellFormed : Prop where
  disassembled : function.Disassembled
  /-- An instruction that leaves both pointers alone is neither a pop of the frame pointer nor a leave. -/
  others : ∀ bytes, .other bytes ∈ function.program → popRbpPattern bytes = false ∧ leavePattern bytes = false
  spNumber : ∀ register, function.engine.lldbRegnum register = function.engine.lldbSpRegnum → register = sp
  fpNumber : ∀ register, function.engine.lldbRegnum register = function.engine.lldbFpRegnum → register = bp
  entry : ∃ first second rest regNum, function.rowList = first :: second :: rest ∧ first.offset = 0 ∧
    first.cfaValue = .isRegisterPlusOffset regNum function.engine.wordsize ∧
    function.convert regNum = function.engine.lldbSpRegnum
  ordered : function.rowList.Pairwise (·.offset < ·.offset)
  placed : ∀ row ∈ function.rowList, ∃ index < function.program.length, row.offset = function.place index
  /-- Offsets are of type `int32_t`. -/
  ranged : ∀ row ∈ function.rowList, ∀ regNum offset, row.cfaValue = .isRegisterPlusOffset regNum offset →
    -2 ^ 31 ≤ offset ∧ offset < 2 ^ 31

def Own (index : Nat) : Prop := ∃ row ∈ function.rowList, row.offset = function.place index

def base (index : Nat) : Option Row := UnwindPlan.bestRow (function.place index) none function.rowList

variable {function}

namespace WellFormed

variable (wellFormed : function.WellFormed)
include wellFormed

theorem place_succ_of_pops {index : Nat} (inside : index < function.program.length)
    (pops : popRbpPattern (function.codeAt index) = true ∨ leavePattern (function.codeAt index) = true) :
    function.place (index + 1) = function.place index + 1 := by
  obtain ⟨instruction, fetched, positive, forward⟩ := wellFormed.disassembled.fetch inside
  rw [forward]
  have here : function.codeAt index = instruction.encode function.size ++ _ := code_drop_start fetched
  rw [here] at pops
  obtain ⟨first, more, encoded⟩ := exists_cons_of_length_pos positive
  have opcode : first = 0x5d ∨ first = 0xc9 := by
    simpa [encoded, popRbpPattern, leavePattern, byteAt] using pops
  have known : ∀ bytes, instruction ≠ .other bytes := by
    rintro bytes rfl
    obtain ⟨notPop, notLeave⟩ := wellFormed.others bytes (mem_of_getElem? fetched)
    rw [show bytes = first :: more from encoded] at notPop notLeave
    rcases opcode with rfl | rfl
    · simp [popRbpPattern, byteAt] at notPop
    · simp [leavePattern, byteAt] at notLeave
  rw [length_of_head function.size instruction known (by rw [encoded]; simpa using opcode)]

end WellFormed

structure Split (function : CompiledFunction) (index rowId : Nat) (rowList : List Row) (top base : Row) : Prop where
  shape : ∃ front past back, rowList = front ++ top :: back ∧ function.rowList = past ++ base :: back ∧
    (∀ row ∈ front, row.offset < top.offset) ∧ (∀ row ∈ past, row.offset < base.offset) ∧
    rowId ≤ front.length + 1 ∧ ∀ row ∈ back, function.place index < row.offset
  positive : 1 ≤ rowId
  topReached : top.offset ≤ function.place index
  baseReached : base.offset ≤ function.place index

namespace Split

variable {index rowId : Nat} {rowList : List Row} {top base : Row}

variable (split : function.Split index rowId rowList top base)
include split

theorem bestRow : UnwindPlan.bestRow (function.place index) none rowList = some top := by
  obtain ⟨front, past, back, rfl, _, ahead, _, _, beyond⟩ := split.shape
  exact UnwindPlan.bestRow_split none (fun row member => (ahead row member).le.trans split.topReached)
    split.topReached beyond

theorem base_eq : function.base index = some base := by
  obtain ⟨front, past, back, _, plan, _, ahead, _, beyond⟩ := split.shape
  unfold CompiledFunction.base
  rw [plan]
  exact UnwindPlan.bestRow_split none (fun row member => (ahead row member).le.trans split.baseReached)
    split.baseReached beyond

theorem base_mem : base ∈ function.rowList := by
  obtain ⟨front, past, back, _, plan, _⟩ := split.shape
  rw [plan]
  simp

theorem own_iff : function.Own index ↔ base.offset = function.place index := by
  constructor
  · rintro ⟨row, member, here⟩
    obtain ⟨front, past, back, _, plan, _, ahead, _, beyond⟩ := split.shape
    rw [plan] at member
    have reached := split.baseReached
    rcases mem_append.mp member with early | member
    · have before := ahead row early
      omega
    · rcases mem_cons.mp member with rfl | late
      · exact here
      · have after := beyond row late
        omega
  · intro here
    exact ⟨base, split.base_mem, here⟩

omit split

/-- Rows start at instructions, so only a row for the next instruction itself comes into force there. -/
theorem next (wellFormed : function.WellFormed) (split : function.Split index rowId rowList top base)
    (inside : index < function.program.length) :
    (∃ own, function.Own (index + 1) ∧ own.offset = function.place (index + 1) ∧
        function.Split (index + 1) rowId rowList own own) ∨
      ¬ function.Own (index + 1) ∧ top.offset < function.place (index + 1) ∧
        function.Split (index + 1) rowId rowList top base := by
  have forward := wellFormed.disassembled.place_lt inside
  have topReached := split.topReached
  have baseReached := split.baseReached
  obtain ⟨front, past, back, list, plan, ahead, before, bound, beyond⟩ := split.shape
  have ordered := wellFormed.ordered
  rw [plan, pairwise_append, pairwise_cons] at ordered
  obtain ⟨_, ⟨behindBase, ordered⟩, _⟩ := ordered
  by_cases own : ∃ next rest, back = next :: rest ∧ next.offset = function.place (index + 1)
  · obtain ⟨next, rest, rfl, here⟩ := own
    rw [pairwise_cons] at ordered
    have member : next ∈ function.rowList := by rw [plan]; simp
    refine .inl ⟨next, ⟨next, member, here⟩, here, ⟨front ++ [top], past ++ [base], rest, ?_, ?_, ?_, ?_, ?_, ?_⟩,
      split.positive, here.le, here.le⟩
    · simp [list]
    · simp [plan]
    · intro row member
      rcases mem_append.mp member with early | last
      · have earlier := ahead row early
        omega
      · rw [mem_singleton.mp last]
        omega
    · intro row member
      rcases mem_append.mp member with early | last
      · have earlier := before row early
        omega
      · rw [mem_singleton.mp last]
        omega
    · rw [length_append]
      omega
    · intro row member
      have later := ordered.1 row member
      omega
  · have later : ∀ row ∈ back, function.place (index + 1) < row.offset := by
      cases back with
      | nil => simp
      | cons next rest =>
        have member : next ∈ function.rowList := by rw [plan]; simp
        obtain ⟨other, otherInside, there⟩ := wellFormed.placed next member
        have nextLater := beyond next mem_cons_self
        have otherLater : index + 1 ≤ other := by
          by_contra early
          have monotone : function.place other ≤ function.place index := start_mono (by omega)
          omega
        have reached : function.place (index + 1) ≤ function.place other := start_mono otherLater
        have apart : next.offset ≠ function.place (index + 1) := fun here => own ⟨next, rest, rfl, here⟩
        intro row member
        rcases mem_cons.mp member with rfl | late
        · omega
        · have after := (pairwise_cons.mp ordered).1 row late
          omega
    have moved : function.Split (index + 1) rowId rowList top base :=
      ⟨⟨front, past, back, list, plan, ahead, before, bound, later⟩, split.positive, by omega, by omega⟩
    refine .inr ⟨?_, by omega, moved⟩
    rw [moved.own_iff]
    omega

theorem advance (split : function.Split index rowId rowList top base) :
    rowList[advanceRowId rowList (function.place index) rowId - 1]? = some top ∧
      function.Split index (advanceRowId rowList (function.place index) rowId)
        rowList top base := by
  obtain ⟨front, past, back, list, plan, ahead, before, bound, beyond⟩ := split.shape
  have topReached := split.topReached
  have advanced : advanceRowId rowList (function.place index) rowId = front.length + 1 := by
    have length : (front ++ [top]).length = front.length + 1 := by simp
    have stops : back.takeWhile (·.offset ≤ function.place index) = [] := by
      cases back with
      | nil => rfl
      | cons next rest =>
        have later := beyond next mem_cons_self
        rw [takeWhile_cons_of_neg (by simpa using later)]
    have passes : ∀ row ∈ (front ++ [top]).drop rowId, row.offset ≤ function.place index := by
      intro row member
      rcases mem_append.mp (mem_of_mem_drop member) with early | last
      · have earlier := ahead row early
        omega
      · rw [mem_singleton.mp last]
        exact topReached
    unfold advanceRowId
    rw [list, append_cons, drop_append_of_le_length (by omega),
      takeWhile_append_of_pos (by simpa using passes), stops, append_nil, length_drop]
    omega
  rw [advanced]
  constructor
  · simp [list]
  · exact ⟨⟨front, past, back, list, plan, ahead, before, le_refl _, beyond⟩, by omega, topReached,
      split.baseReached⟩

theorem insert (split : function.Split index rowId rowList top base) (early : top.offset < function.place index)
    {row : Row} (here : row.offset = function.place index) :
    function.Split index rowId (UnwindPlan.insertRow row rowList) row base := by
  obtain ⟨front, past, back, list, plan, ahead, before, bound, beyond⟩ := split.shape
  have earlier : ∀ other ∈ front ++ [top], other.offset < row.offset := by
    intro other member
    rcases mem_append.mp member with first | last
    · have := ahead other first
      omega
    · rw [mem_singleton.mp last]
      omega
  have later : ∀ other ∈ back, row.offset < other.offset := by
    rw [here]
    exact beyond
  refine ⟨⟨front ++ [top], past, back, ?_, plan, earlier, before, ?_, beyond⟩, split.positive, here.le,
    split.baseReached⟩
  · rw [list, append_cons, UnwindPlan.insertRow_split earlier later]
  · rw [length_append]
    omega

theorem insert_own (split : function.Split index rowId rowList top base) {row : Row} (here : top.offset = row.offset) :
    UnwindPlan.insertRow row rowList = rowList := by
  obtain ⟨front, past, back, list, _, ahead, _⟩ := split.shape
  rw [list, UnwindPlan.insertRow_existing (fun other member => here ▸ ahead other member) here]

/-- The rows that were not touched decide for all later instructions, once the row in force is one. -/
theorem later (wellFormed : function.WellFormed) (split : function.Split index rowId rowList top base) {other : Nat}
    (ordered : index ≤ other) (inside : other < function.program.length) :
    ∃ top' base', function.Split other rowId rowList top' base' ∧ (top' = base' ∨ top' = top ∧ base' = base) := by
  induction other, ordered using Nat.le_induction with
  | base => exact ⟨top, base, split, .inr ⟨rfl, rfl⟩⟩
  | succ other ordered ih =>
    obtain ⟨top', base', reached, same⟩ := ih (by omega)
    rcases reached.next wellFormed (by omega) with ⟨own, _, _, moved⟩ | ⟨_, _, moved⟩
    · exact ⟨own, own, moved, .inl rfl⟩
    · exact ⟨top', base', moved, same⟩

/-- The last row of the plan, put back where the compiler has a row of its own, changes nothing there. -/
theorem reinstate (split : function.Split index rowId rowList top top) (here : top.offset = function.place index)
    {last : Row} (isLast : function.rowList.getLast? = some last) :
    ∃ row, UnwindPlan.bestRow (function.place index) none
        (UnwindPlan.appendRow rowList (last.setOffset (function.place index))) = some row ∧
      row.cfaValue = top.cfaValue := by
  obtain ⟨front, past, back, list, plan, ahead, before, bound, beyond⟩ := split.shape
  have reached : ∀ row ∈ front, row.offset ≤ function.place index := fun row member =>
    (ahead row member).le.trans split.topReached
  cases back with
  | nil =>
    -- The compiler's row is the last one here, and takes its own place.
    have same : last = top := by
      rw [plan, getLast?_concat] at isLast
      exact (Option.some.inj isLast).symm
    have replaced : UnwindPlan.appendRow rowList (last.setOffset (function.place index)) =
        front ++ [top.setOffset (function.place index)] := by
      unfold UnwindPlan.appendRow
      rw [list, getLast?_concat, same]
      simp only
      simp [if_neg (not_not.mpr (show top.offset = (top.setOffset (function.place index)).offset from here))]
    rw [replaced]
    exact ⟨top.setOffset (function.place index),
      UnwindPlan.bestRow_split none reached (le_refl (function.place index)) (by simp), rfl⟩
  | cons next back =>
    obtain ⟨final, isFinal⟩ : ∃ final, (next :: back).getLast? = some final :=
      ⟨_, getLast?_eq_some_getLast (cons_ne_nil next back)⟩
    have finalLater := beyond final (mem_of_getLast? isFinal)
    have appended : UnwindPlan.appendRow rowList (last.setOffset (function.place index)) =
        rowList ++ [last.setOffset (function.place index)] := by
      unfold UnwindPlan.appendRow
      rw [list, append_cons, getLast?_append, isFinal]
      simp only [some_or]
      rw [if_pos (show final.offset ≠ (last.setOffset (function.place index)).offset from finalLater.ne')]
    have nextMember : next ∈ rowList := by rw [list]; simp
    rw [appended, UnwindPlan.bestRow_append_of_mem nextMember (beyond next mem_cons_self), split.bestRow]
    exact ⟨top, rfl, rfl⟩

end Split

end CompiledFunction

end Lldb
