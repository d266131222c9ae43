import Lldb.UnwindAssembly.X86AugmentedRows

/-! Augmented plans along a run: the code takes an instruction's bytes for those of the one before, so
that between the compiler's rows the effect of an instruction shows before it is executed.
-/

set_option autoImplicit false

namespace Lldb

open Library.X86 UnwindPlan X86AssemblyInspectionEngine

/-- The canonical frame address that a row gives in a state, with the meaning of DWARF expressions. -/
def X86AssemblyInspectionEngine.Gives (engine : X86AssemblyInspectionEngine) (convert : Nat → Nat)
    (evaluate : DWARFExpr → Machine engine.size → Word engine.size → Prop) (value : CFAValue)
    (state : Machine engine.size) (cfa : Word engine.size) : Prop :=
  match value with
  | .unspecified => False
  | .isRegisterPlusOffset regNum offset =>
    ∃ register, engine.lldbRegnum register = convert regNum ∧ state.regs register + BitVec.ofInt _ offset = cfa
  | .isRegisterDereferenced regNum =>
    ∃ register, engine.lldbRegnum register = convert regNum ∧ Machine.Holds state.memory (state.regs register) cfa
  | .isDWARFExpression expr => evaluate expr state cfa

namespace CompiledFunction

variable (function : CompiledFunction)

def Based (index : Nat) (register : Register) : Prop :=
  ∃ row, function.base index = some row ∧
    function.convert row.cfaValue.getRegisterNumber = function.engine.lldbRegnum register

def Trusted (index : Nat) : Prop :=
  ∃ first, 1 ≤ first ∧ first ≤ index ∧ ¬ function.Own first ∧ ¬ function.Based first sp ∧ ¬ function.Based first bp

def Inspected (index : Nat) : Prop := 1 ≤ index ∧ ¬ function.Own index ∧ ¬ function.Trusted index

def PopsFrame (index : Nat) : Prop :=
  function.Inspected index ∧ function.Based index bp ∧ (popRbpPattern (function.codeAt index) = true ∨
      leavePattern (function.codeAt index) = true)

def TakenForReturn (index : Nat) : Prop :=
  function.Inspected index ∧ function.Based index sp ∧ stackMove function.size (function.codeAt index) = none ∧
    retPattern (function.codeAt index) = true

def Reinstated (index : Nat) : Prop :=
  (1 ≤ index ∧ function.TakenForReturn (index - 1)) ∨ 2 ≤ index ∧ function.PopsFrame (index - 2)

variable (evaluate : DWARFExpr → function.State → Word function.size → Prop) (states : Nat → function.State)

/-- When the row at an instruction comes out right: what is there to be told from the bytes of the
instruction is what the instruction before it has done.
-/
inductive Suits (index : Nat) : Prop
  | own : function.Own index → Suits index
  | popped : 1 ≤ index → function.PopsFrame (index - 1) →
      (states index).regs sp + Machine.wordBytes function.size = function.cfa states → Suits index
  | moved (regNum : Nat) (offset : Int) : function.Inspected index → ¬ function.PopsFrame (index - 1) →
      function.Based index sp → (function.base index).map Row.cfaValue = some (.isRegisterPlusOffset regNum offset) →
      (states index).regs sp + BitVec.ofInt _ ((function.distance states (index - 1) +
        (stackMove function.size (function.codeAt index)).getD 0).bmod (2 ^ 32)) = function.cfa states → Suits index
  | kept (row : Row) : ¬ function.PopsFrame (index - 1) → function.base index = some row →
      (∀ regNum offset, row.cfaValue = .isRegisterPlusOffset regNum offset → function.Inspected index →
        ¬ function.Based index sp) →
      function.engine.Gives function.convert evaluate row.cfaValue (states index) (function.cfa states) → Suits index

/-- No instruction is run behind one at which the last row was put back, and where it is put back the
compiler has a row.
-/
def Continues (index : Nat) : Prop :=
  (function.Reinstated index → function.Own index) ∧ ∀ earlier < index, ¬ function.Reinstated earlier

def Accurate (last : Nat) : Prop :=
  ∀ index ≤ last, ∀ row ∈ function.rowList, row.offset = function.place index →
    function.engine.Gives function.convert evaluate row.cfaValue (states index) (function.cfa states)

def InForce (rowList : List Row) (index : Nat) : Prop :=
  ∃ row, bestRow (function.place index) none rowList = some row ∧
    function.engine.Gives function.convert evaluate row.cfaValue (states index) (function.cfa states)

/-- The plan's register and offset may have been moved along the stack pointer. -/
def Adjusts (base top : CFAValue) : Prop :=
  top = base ∨ ∃ regNum offset amount, function.convert regNum = function.engine.lldbSpRegnum ∧
    base = .isRegisterPlusOffset regNum offset ∧ top = .isRegisterPlusOffset regNum amount ∧
    -2 ^ 31 ≤ amount ∧ amount < 2 ^ 31

variable {function} {evaluate} {states}

/-! Offsets. -/

theorem gives_sp (wellFormed : function.WellFormed) {regNum : Nat} {offset : Int} {state : function.State}
    {cfa : Word function.size} (based : function.convert regNum = function.engine.lldbSpRegnum) :
    function.engine.Gives function.convert evaluate (.isRegisterPlusOffset regNum offset) state cfa ↔
      state.regs sp + BitVec.ofInt _ offset = cfa := by
  constructor
  · rintro ⟨register, number, same⟩
    rw [based] at number
    rwa [wellFormed.spNumber register number] at same
  · intro same
    exact ⟨sp, based.symm, same⟩

theorem distance_eq {index : Nat} {offset : Int} (low : -2 ^ 31 ≤ offset) (high : offset < 2 ^ 31)
    (right : (states index).regs sp + BitVec.ofInt _ offset = function.cfa states) :
    function.distance states index = offset := by
  unfold AssembledFunction.distance
  rw [← right, BitVec.add_comm, BitVec.add_sub_cancel]
  exact AssembledFunction.toInt_ofInt_of_int32 function.size low high

theorem Adjusts.register {base top : CFAValue} (adjusts : function.Adjusts base top) :
    top.getRegisterNumber = base.getRegisterNumber := by
  rcases adjusts with rfl | ⟨regNum, offset, amount, _, rfl, rfl, _⟩
  · rfl
  · rfl

theorem Adjusts.eq_of_based {base top : CFAValue} (adjusts : function.Adjusts base top)
    (other : function.convert base.getRegisterNumber ≠ function.engine.lldbSpRegnum) : top = base := by
  rcases adjusts with same | ⟨regNum, offset, amount, based, rfl, _⟩
  · exact same
  · exact absurd based other

theorem Split.based_iff {index rowId : Nat} {rowList : List Row} {top base : Row}
    (split : function.Split index rowId rowList top base) (register : Register) :
    function.Based index register ↔
      function.convert base.cfaValue.getRegisterNumber = function.engine.lldbRegnum register := by
  constructor
  · rintro ⟨row, found, number⟩
    rw [split.base_eq] at found
    rwa [Option.some.inj found]
  · intro number
    exact ⟨base, split.base_eq, number⟩

/-! Turns of the loop. -/

structure Along (function : CompiledFunction) (index : Nat) (state : X86AssemblyInspectionEngine.Augmentation)
    (top base : Row) : Prop where
  offset : state.offset = function.place index
  waiting : state.reinstateUnwindState = false
  split : function.Split index state.rowId state.rowList top base
  row : state.row.cfaValue = top.cfaValue
  adjusts : function.Adjusts base.cfaValue top.cfaValue
  untrusted : ¬ function.Trusted index
  unpopped : ¬ function.PopsFrame index

section Turns

open X86AssemblyInspectionEngine

variable {index : Nat} {state : Augmentation} {top base : Row} (firstRow lastRow : Row)

theorem Along.turn (wellFormed : function.WellFormed) (along : function.Along index state top base)
    (inside : index + 1 < function.program.length) :
    (∃ own rowId, function.Own (index + 1) ∧ own.offset = function.place (index + 1) ∧
        function.Split (index + 1) rowId state.rowList own own ∧
        function.engine.augmentTurn function.convert function.data firstRow lastRow state =
          some { state with offset := function.place (index + 1), rowId := rowId, row := own }) ∨
      ∃ rowId, ¬ function.Own (index + 1) ∧ top.offset < function.place (index + 1) ∧
        function.Split (index + 1) rowId state.rowList top base ∧
        function.engine.augmentTurn function.convert function.data firstRow lastRow state =
          function.engine.inspect function.convert function.data firstRow
            { state with offset := function.place (index + 1), rowId := rowId } := by
  obtain ⟨length, decoded, short, forward⟩ :=
    wellFormed.disassembled.length_eq (show index < function.program.length by omega)
  have within := wellFormed.disassembled.place_lt_length inside
  unfold augmentTurn
  simp only [along.offset, decoded, forward]
  rw [if_neg short, if_neg (not_le.mpr within), along.waiting]
  simp only [Bool.false_eq_true, if_false]
  rcases along.split.next wellFormed (by omega) with ⟨own, isOwn, here, split⟩ | ⟨notOwn, early, split⟩
  · obtain ⟨found, advanced⟩ := split.advance
    refine .inl ⟨own, _, isOwn, here, advanced, ?_⟩
    rw [found]
    simp only
    rw [if_pos here]
  · obtain ⟨found, advanced⟩ := split.advance
    refine .inr ⟨_, notOwn, early, advanced, ?_⟩
    rw [found]
    simp only
    rw [if_neg early.ne]

theorem Along.ranged (wellFormed : function.WellFormed) (along : function.Along index state top base) {regNum : Nat}
    {offset : Int} (value : top.cfaValue = .isRegisterPlusOffset regNum offset) : -2 ^ 31 ≤ offset ∧ offset < 2 ^ 31 := by
  rcases along.adjusts with same | ⟨_, _, amount, _, _, moved, low, high⟩
  · exact wellFormed.ranged base along.split.base_mem regNum offset (same ▸ value)
  · rw [value] at moved
    obtain ⟨_, rfl⟩ := CFAValue.isRegisterPlusOffset.inj moved
    exact ⟨low, high⟩

theorem Along.incOffset_zero (wellFormed : function.WellFormed) (along : function.Along index state top base) :
    top.cfaValue.incOffset 0 = top.cfaValue := by
  cases value : top.cfaValue with
  | isRegisterPlusOffset regNum offset =>
    obtain ⟨low, high⟩ := along.ranged wellFormed value
    rw [CFAValue.incOffset, Int.add_zero, Int.bmod_eq_of_le (by omega) (by omega)]
  | unspecified => rfl
  | isRegisterDereferenced _ => rfl
  | isDWARFExpression _ => rfl

theorem Adjusts.incOffset {base top : CFAValue} (adjusts : function.Adjusts base top)
    (based : function.convert base.getRegisterNumber = function.engine.lldbSpRegnum) (delta : Int) :
    function.Adjusts base (top.incOffset delta) := by
  rcases adjusts with rfl | ⟨regNum, offset, amount, _, rfl, rfl, _⟩
  · cases top with
    | isRegisterPlusOffset regNum offset =>
      have low := Int.le_bmod (x := offset + delta) (m := 2 ^ 32) (by decide)
      have high := Int.bmod_lt (x := offset + delta) (m := 2 ^ 32) (by decide)
      exact .inr ⟨regNum, offset, _, based, rfl, rfl, by omega, by omega⟩
    | unspecified => exact .inl rfl
    | isRegisterDereferenced _ => exact .inl rfl
    | isDWARFExpression _ => exact .inl rfl
  · have low := Int.le_bmod (x := amount + delta) (m := 2 ^ 32) (by decide)
    have high := Int.bmod_lt (x := amount + delta) (m := 2 ^ 32) (by decide)
    exact .inr ⟨regNum, offset, _, based, rfl, rfl, by omega, by omega⟩

theorem Along.gives_moved (wellFormed : function.WellFormed) (along : function.Along index state top base)
    (inspected : function.Inspected (index + 1)) (based : function.Based (index + 1) sp)
    (compiled : function.base (index + 1) = some base) (suits : function.Suits evaluate states (index + 1))
    (right : function.engine.Gives function.convert evaluate top.cfaValue (states index) (function.cfa states)) :
    function.engine.Gives function.convert evaluate
      (top.cfaValue.incOffset ((stackMove function.size (function.codeAt (index + 1))).getD 0))
      (states (index + 1)) (function.cfa states) := by
  cases suits with
  | own isOwn => exact absurd isOwn inspected.2.1
  | popped _ pops _ => exact absurd pops along.unpopped
  | moved regNum offset _ _ _ found gives =>
    rw [compiled] at found
    have value : base.cfaValue = .isRegisterPlusOffset regNum offset := Option.some.inj found
    obtain ⟨row, isBase, number⟩ := based
    obtain rfl : base = row := Option.some.inj (compiled.symm.trans isBase)
    have starts : function.convert regNum = function.engine.lldbSpRegnum := by
      rw [value] at number
      exact number
    obtain ⟨amount, topValue⟩ : ∃ amount, top.cfaValue = .isRegisterPlusOffset regNum amount := by
      rcases along.adjusts with same | ⟨_, _, amount, _, isBase, isTop, _⟩
      · exact ⟨offset, same.trans value⟩
      · rw [value] at isBase
        obtain ⟨rfl, _⟩ := CFAValue.isRegisterPlusOffset.inj isBase
        exact ⟨amount, isTop⟩
    obtain ⟨low, high⟩ := along.ranged wellFormed topValue
    rw [topValue, gives_sp wellFormed starts] at right
    rw [Nat.add_sub_cancel, distance_eq low high right] at gives
    rw [topValue, CFAValue.incOffset, gives_sp wellFormed starts]
    exact gives
  | kept row _ found fixed gives =>
    obtain rfl : base = row := Option.some.inj (compiled.symm.trans found)
    cases value : base.cfaValue with
    | isRegisterPlusOffset regNum offset => exact absurd based (fixed regNum offset value inspected)
    | unspecified | isRegisterDereferenced _ | isDWARFExpression _ =>
      have same : top.cfaValue = base.cfaValue := by
        rcases along.adjusts with same | ⟨_, _, _, _, isBase, _⟩
        · exact same
        · rw [value] at isBase
          exact absurd isBase (by simp)
      rw [same, value]
      rw [value] at gives
      exact gives

/-- The row the next instruction keeps when the compiler does not go by the stack pointer. -/
theorem Along.gives_kept (along : function.Along index state top base) (notOwn : ¬ function.Own (index + 1))
    (notBased : ¬ function.Based (index + 1) sp) (compiled : function.base (index + 1) = some base)
    (suits : function.Suits evaluate states (index + 1)) :
    function.engine.Gives function.convert evaluate base.cfaValue (states (index + 1)) (function.cfa states) := by
  cases suits with
  | own isOwn => exact absurd isOwn notOwn
  | popped _ pops _ => exact absurd pops along.unpopped
  | moved _ _ _ _ based _ _ => exact absurd based notBased
  | kept row _ found _ gives =>
    rw [compiled] at found
    rwa [Option.some.inj found]

/-- What comes of a turn behind an instruction that the compiler's rows are right up to. -/
inductive Outcome (function : CompiledFunction) (evaluate : DWARFExpr → function.State → Word function.size → Prop)
    (states : Nat → function.State) (firstRow : Row) (index : Nat) (rowList : List Row) : Option Augmentation → Prop
  | steady (next : Augmentation) (top base : Row) : function.Along index next top base →
      function.engine.Gives function.convert evaluate top.cfaValue (states index) (function.cfa states) →
      Outcome function evaluate states firstRow index rowList (some next)
  | taken (next : Augmentation) (top base : Row) : function.TakenForReturn index →
      next.offset = function.place index → next.reinstateUnwindState = true → next.rowList = rowList →
      function.Split index next.rowId rowList top base →
      function.engine.Gives function.convert evaluate top.cfaValue (states index) (function.cfa states) →
      Outcome function evaluate states firstRow index rowList (some next)
  | popped (next : Augmentation) (top base row : Row) (rowId : Nat) : function.PopsFrame index →
      next.offset = function.place (index + 1) → next.reinstateUnwindState = true →
      next.rowList = insertRow row rowList → row.offset = function.place (index + 1) →
      row.cfaValue = .isRegisterPlusOffset firstRow.cfaValue.getRegisterNumber function.engine.wordsize →
      function.Split index rowId rowList top base →
      function.engine.Gives function.convert evaluate top.cfaValue (states index) (function.cfa states) →
      Outcome function evaluate states firstRow index rowList (some next)
  | foreign (top : Row) (rowId : Nat) (base : Row) : function.Trusted index → function.Split index rowId rowList top base →
      top.cfaValue = base.cfaValue → Outcome function evaluate states firstRow index rowList none

theorem Trusted.succ (untrusted : ¬ function.Trusted index)
    (based : function.Based (index + 1) sp ∨ function.Based (index + 1) bp) : ¬ function.Trusted (index + 1) := by
  rintro ⟨first, positive, bound, notOwn, notSp, notBp⟩
  by_cases last : first = index + 1
  · subst last
    rcases based with based | based
    · exact notSp based
    · exact notBp based
  · exact untrusted ⟨first, positive, by omega, notOwn, notSp, notBp⟩

theorem Along.outcome (wellFormed : function.WellFormed) (along : function.Along index state top base)
    (inside : index + 1 < function.program.length)
    (accurate : ∀ row ∈ function.rowList, row.offset = function.place (index + 1) →
      function.engine.Gives function.convert evaluate row.cfaValue (states (index + 1)) (function.cfa states))
    (suits : function.Suits evaluate states (index + 1))
    (right : function.engine.Gives function.convert evaluate top.cfaValue (states index) (function.cfa states)) :
    function.Outcome evaluate states firstRow (index + 1) state.rowList
      (function.engine.augmentTurn function.convert function.data firstRow lastRow state) := by
  rcases along.turn firstRow lastRow wellFormed inside with
    ⟨own, rowId, isOwn, here, split, turn⟩ | ⟨rowId, notOwn, early, split, turn⟩
  · rw [turn]
    refine .steady _ own own ⟨rfl, along.waiting, split, rfl, .inl rfl, ?_, ?_⟩ (accurate own split.base_mem here)
    · rintro ⟨first, positive, bound, notOwn, notBased⟩
      by_cases last : first = index + 1
      · exact notOwn (last ▸ isOwn)
      · exact along.untrusted ⟨first, positive, by omega, notOwn, notBased⟩
    · exact fun pops => pops.1.2.1 isOwn
  · rw [turn]
    have sameRegister : state.row.cfaValue.getRegisterNumber = base.cfaValue.getRegisterNumber := by
      rw [along.row, along.adjusts.register]
    have compiled := split.base_eq
    unfold inspect
    simp only [sameRegister]
    by_cases basedSp : function.convert base.cfaValue.getRegisterNumber = function.engine.lldbSpRegnum
    · rw [if_pos basedSp]
      have based := (split.based_iff sp).mpr basedSp
      have untrusted := Trusted.succ along.untrusted (.inl based)
      have inspected : function.Inspected (index + 1) := ⟨by omega, notOwn, untrusted⟩
      have gives := along.gives_moved wellFormed inspected based compiled suits right
      have unpopped : ¬ function.PopsFrame (index + 1) := by
        rintro ⟨_, basedBp, _⟩
        have number := (split.based_iff bp).mp basedBp
        exact absurd (wellFormed.spNumber bp (number.symm.trans basedSp)) (by decide)
      rw [show function.data.drop (function.place (index + 1)) = function.codeAt (index + 1) from rfl]
      cases move : stackMove function.size (function.codeAt (index + 1)) with
      | some amount =>
        rw [move] at gives
        refine .steady _ _ base ⟨rfl, along.waiting, split.insert early rfl, rfl, ?_, untrusted, unpopped⟩ ?_
        · simp only [along.row]
          exact along.adjusts.incOffset basedSp amount
        · simp only [along.row]
          exact gives
      | none =>
        rw [move] at gives
        rw [Option.getD_none, along.incOffset_zero wellFormed] at gives
        cases taken : retPattern (function.codeAt (index + 1)) with
        | true => exact .taken _ top base ⟨inspected, based, move, taken⟩ rfl rfl rfl split gives
        | false => exact .steady _ top base ⟨rfl, rfl, split, along.row, along.adjusts, untrusted, unpopped⟩ gives
    · rw [if_neg basedSp]
      have notBased : ¬ function.Based (index + 1) sp := fun based => basedSp ((split.based_iff sp).mp based)
      have same : top.cfaValue = base.cfaValue := along.adjusts.eq_of_based basedSp
      have gives := along.gives_kept notOwn notBased compiled suits
      rw [← same] at gives
      by_cases basedBp : function.convert base.cfaValue.getRegisterNumber = function.engine.lldbFpRegnum
      · rw [if_pos basedBp, show function.data.drop (function.place (index + 1)) = function.codeAt (index + 1) from rfl]
        have based := (split.based_iff bp).mpr basedBp
        have untrusted := Trusted.succ along.untrusted (.inr based)
        have inspected : function.Inspected (index + 1) := ⟨by omega, notOwn, untrusted⟩
        have pattern : (popRbpPattern (function.codeAt (index + 1)) || leavePattern (function.codeAt (index + 1))) = true ↔
            popRbpPattern (function.codeAt (index + 1)) = true ∨ leavePattern (function.codeAt (index + 1)) = true :=
          Bool.or_eq_true_iff
        by_cases pops : popRbpPattern (function.codeAt (index + 1)) = true ∨
            leavePattern (function.codeAt (index + 1)) = true
        · rw [if_pos (pattern.mpr pops)]
          have forward := wellFormed.place_succ_of_pops inside pops
          exact .popped _ top base _ rowId ⟨inspected, based, pops⟩ forward.symm rfl rfl forward.symm rfl split gives
        · rw [if_neg (fun taken => pops (pattern.mp taken))]
          exact .steady _ top base ⟨rfl, along.waiting, split, along.row, along.adjusts, untrusted,
            fun both => pops both.2.2⟩ gives
      · rw [if_neg basedBp]
        have foreign : function.Trusted (index + 1) :=
          ⟨index + 1, by omega, le_refl _, notOwn, notBased, fun based => basedBp ((split.based_iff bp).mp based)⟩
        exact .foreign top rowId base foreign split same

/-! The loop. -/

theorem augmentTurn_keeps {state next : Augmentation} {offset : Nat} (reached : offset ≤ state.offset)
    (turn : function.engine.augmentTurn function.convert function.data firstRow lastRow state = some next) :
    state.offset < next.offset ∧ bestRow offset none next.rowList = bestRow offset none state.rowList := by
  unfold augmentTurn at turn
  simp only at turn
  split at turn
  · cases turn
  · split at turn
    · obtain rfl := Option.some.inj turn
      exact ⟨by dsimp only; omega, rfl⟩
    · split at turn
      · obtain rfl := Option.some.inj turn
        exact ⟨by dsimp only; omega, bestRow_appendRow_of_lt (by simp only [Row.setOffset]; omega) _⟩
      · split at turn
        · cases turn
        · split at turn
          · obtain rfl := Option.some.inj turn
            exact ⟨by dsimp only; omega, rfl⟩
          · unfold inspect at turn
            simp only at turn
            split at turn
            · split at turn
              · obtain rfl := Option.some.inj turn
                exact ⟨by dsimp only; omega, bestRow_insertRow_of_lt (by dsimp only; omega) none _⟩
              · obtain rfl := Option.some.inj turn
                exact ⟨by dsimp only; omega, rfl⟩
            · split at turn
              · split at turn
                · obtain rfl := Option.some.inj turn
                  exact ⟨by dsimp only; omega, bestRow_insertRow_of_lt (by dsimp only; omega) none _⟩
                · obtain rfl := Option.some.inj turn
                  exact ⟨by dsimp only; omega, rfl⟩
              · cases turn

theorem augmentLoop_keeps (turns : Nat) {state : Augmentation} {offset : Nat} (reached : offset ≤ state.offset) :
    bestRow offset none
        (function.engine.augmentLoop function.convert function.data firstRow lastRow turns state).rowList =
      bestRow offset none state.rowList := by
  induction turns generalizing state with
  | zero => rfl
  | succ turns ih =>
    rw [augmentLoop]
    split
    · split
      · rename_i next turn
        obtain ⟨forward, same⟩ := augmentTurn_keeps firstRow lastRow reached turn
        rw [ih (by omega), same]
      · rfl
    · rfl

theorem Trusted.mono {first second : Nat} (trusted : function.Trusted first) (ordered : first ≤ second) :
    function.Trusted second := by
  obtain ⟨index, positive, bound, foreign⟩ := trusted
  exact ⟨index, positive, by omega, foreign⟩

variable (wellFormed : function.WellFormed)
include wellFormed

theorem Split.inForce_of_trusted {rowId : Nat} {rowList : List Row}
    (split : function.Split index rowId rowList top base) (same : top.cfaValue = base.cfaValue)
    (trusted : function.Trusted index) (unpopped : ¬ function.PopsFrame (index - 1)) {other last : Nat}
    (accurate : function.Accurate evaluate states last) (ordered : index ≤ other) (bound : other ≤ last)
    (inside : other < function.program.length) (suits : function.Suits evaluate states other) :
    function.InForce evaluate states rowList other := by
  obtain ⟨top', base', reached, which⟩ := split.later wellFormed ordered inside
  have sameValue : top'.cfaValue = base'.cfaValue := by
    rcases which with rfl | ⟨rfl, rfl⟩
    · rfl
    · exact same
  refine ⟨top', reached.bestRow, ?_⟩
  rw [sameValue]
  cases suits with
  | own isOwn => exact accurate other bound base' reached.base_mem (reached.own_iff.mp isOwn)
  | popped positive pops _ =>
    by_cases here : other = index
    · exact absurd (here ▸ pops) unpopped
    · exact absurd (trusted.mono (by omega)) pops.1.2.2
  | moved _ _ inspected _ _ _ _ => exact absurd (trusted.mono ordered) inspected.2.2
  | kept row _ found _ gives =>
    rw [reached.base_eq] at found
    rwa [Option.some.inj found]

/-- The row in force where the last row of the plan is about to be put back behind an instruction, and
at the next one if the compiler has a row there.
-/
theorem Split.inForce_of_reinstating {last : Nat}
    (accurate : function.Accurate evaluate states last) (isLast : function.rowList.getLast? = some lastRow)
    (offset : state.offset = function.place index) (waiting : state.reinstateUnwindState = true) {rowId : Nat}
    (split : function.Split index rowId state.rowList top base)
    (right : function.engine.Gives function.convert evaluate top.cfaValue (states index) (function.cfa states))
    (turns : Nat) (enough : function.data.length - function.place index ≤ turns) {other : Nat}
    (next : other = index ∨ other = index + 1 ∧ function.Own other) (bound : other ≤ last)
    (inside : other < function.program.length) :
    function.InForce evaluate states
      (function.engine.augmentLoop function.convert function.data firstRow lastRow turns state).rowList other := by
  rcases next with rfl | ⟨rfl, isOwn⟩
  · refine ⟨top, ?_, right⟩
    rw [augmentLoop_keeps firstRow lastRow turns offset.ge, split.bestRow]
  · have within : index < function.program.length := by omega
    have here := wellFormed.disassembled.place_lt_length within
    obtain ⟨turns, rfl⟩ : ∃ fewer, turns = fewer + 1 := ⟨turns - 1, by omega⟩
    obtain ⟨length, decoded, short, forward⟩ := wellFormed.disassembled.length_eq within
    have turn : function.engine.augmentTurn function.convert function.data firstRow lastRow state = some { state with
          offset := function.place (index + 1)
          rowList := appendRow state.rowList (lastRow.setOffset (function.place (index + 1)))
          row := lastRow.setOffset (function.place (index + 1))
          reinstateUnwindState := false
          unwindPlanUpdated := true } := by
      unfold augmentTurn
      simp only [offset, decoded, forward]
      rw [if_neg short, if_neg (not_le.mpr (wellFormed.disassembled.place_lt_length inside)), if_pos waiting]
    rcases split.next wellFormed within with ⟨own, _, there, moved⟩ | ⟨notOwn, _⟩
    · obtain ⟨row, found, value⟩ := moved.reinstate there isLast
      refine ⟨row, ?_, ?_⟩
      · rw [augmentLoop, if_pos (by omega), turn]
        rw [augmentLoop_keeps firstRow lastRow turns (le_refl (function.place (index + 1)))]
        exact found
      · rw [value]
        exact accurate (index + 1) bound own moved.base_mem there
    · exact absurd isOwn notOwn

theorem Split.popped_next {rowId : Nat} {rowList : List Row} {row : Row}
    (split : function.Split index rowId rowList top base) (firstValue : ∃ regNum, function.convert regNum =
      function.engine.lldbSpRegnum ∧ firstRow.cfaValue = .isRegisterPlusOffset regNum function.engine.wordsize)
    (inside : index < function.program.length) (pops : function.PopsFrame index)
    (rowOffset : row.offset = function.place (index + 1))
    (rowValue : row.cfaValue = .isRegisterPlusOffset firstRow.cfaValue.getRegisterNumber function.engine.wordsize)
    (accurate : ∀ row ∈ function.rowList, row.offset = function.place (index + 1) →
      function.engine.Gives function.convert evaluate row.cfaValue (states (index + 1)) (function.cfa states))
    (suits : function.Suits evaluate states (index + 1)) :
    ∃ top' base', function.Split (index + 1) rowId (insertRow row rowList) top' base' ∧
      function.engine.Gives function.convert evaluate top'.cfaValue (states (index + 1)) (function.cfa states) := by
  rcases split.next wellFormed inside with ⟨own, _, there, moved⟩ | ⟨notOwn, early, moved⟩
  · rw [moved.insert_own (there.trans rowOffset.symm)]
    exact ⟨own, own, moved, accurate own moved.base_mem there⟩
  · refine ⟨row, base, moved.insert early rowOffset, ?_⟩
    obtain ⟨regNum, starts, value⟩ := firstValue
    cases suits with
    | own isOwn => exact absurd isOwn notOwn
    | popped _ _ gives =>
      rw [rowValue, value, CFAValue.getRegisterNumber, gives_sp wellFormed starts]
      exact gives
    | moved _ _ _ unpopped _ _ _ => exact absurd pops unpopped
    | kept _ unpopped _ _ _ => exact absurd pops unpopped

theorem Along.loop {last : Nat} (accurate : function.Accurate evaluate states last)
    (isLast : function.rowList.getLast? = some lastRow) (firstValue : ∃ regNum, function.convert regNum =
      function.engine.lldbSpRegnum ∧ firstRow.cfaValue = .isRegisterPlusOffset regNum function.engine.wordsize)
    (suits : ∀ other ≤ last, other < function.program.length →
      function.Suits evaluate states other ∧ function.Continues other)
    (turns : Nat) (along : function.Along index state top base)
    (right : function.engine.Gives function.convert evaluate top.cfaValue (states index) (function.cfa states))
    (enough : function.data.length - function.place index ≤ turns) {other : Nat} (ordered : index ≤ other)
    (bound : other ≤ last) (inside : other < function.program.length) :
    function.InForce evaluate states
      (function.engine.augmentLoop function.convert function.data firstRow lastRow turns state).rowList other := by
  induction turns generalizing index state top base with
  | zero =>
    have here := wellFormed.disassembled.place_lt_length (show index < function.program.length by omega)
    omega
  | succ turns ih =>
    by_cases same : other = index
    · subst same
      refine ⟨top, ?_, right⟩
      rw [augmentLoop_keeps firstRow lastRow (turns + 1) along.offset.ge, along.split.bestRow]
    · have here := wellFormed.disassembled.place_lt_length (show index < function.program.length by omega)
      have forward := wellFormed.disassembled.place_lt (show index < function.program.length by omega)
      have outcome := along.outcome firstRow lastRow wellFormed (by omega) (accurate (index + 1) (by omega))
        (suits (index + 1) (by omega) (by omega)).1 right
      rw [augmentLoop, if_pos (by rw [along.offset]; exact here)]
      generalize function.engine.augmentTurn function.convert function.data firstRow lastRow state = result at outcome
      obtain ⟨reinstated, continues⟩ := (suits other bound inside).2
      cases outcome with
      | steady next top base along right => exact ih along right (by omega) (by omega)
      | taken next top base takes offset waiting rows split right =>
        rw [← rows] at split
        refine split.inForce_of_reinstating firstRow lastRow wellFormed accurate isLast offset waiting right turns
          (by omega) ?_ bound inside
        have putBack : function.Reinstated (index + 2) := .inl ⟨by omega, takes⟩
        by_cases next : other = index + 1
        · exact .inl next
        · by_cases next' : other = index + 2
          · subst next'
            exact .inr ⟨rfl, reinstated putBack⟩
          · exact absurd putBack (continues (index + 2) (by omega))
      | popped next top base row rowId pops offset waiting rows rowOffset rowValue split right =>
        by_cases behind : other = index + 1
        · subst behind
          refine ⟨top, ?_, right⟩
          have further := wellFormed.disassembled.place_lt inside
          rw [augmentLoop_keeps firstRow lastRow turns (by omega), rows,
            bestRow_insertRow_of_lt (by omega), split.bestRow]
        · obtain ⟨top', base', moved, right⟩ := split.popped_next firstRow wellFormed firstValue (by omega) pops rowOffset
            rowValue (accurate (index + 2) (by omega)) (suits (index + 2) (by omega) (by omega)).1
          rw [← rows] at moved
          have further := wellFormed.disassembled.place_lt (show index + 1 < function.program.length by omega)
          refine moved.inForce_of_reinstating firstRow lastRow wellFormed accurate isLast offset waiting right turns
            (by omega) ?_ bound inside
          have putBack : function.Reinstated (index + 3) := .inr ⟨by omega, pops⟩
          by_cases next : other = index + 2
          · exact .inl next
          · by_cases next' : other = index + 3
            · subst next'
              exact .inr ⟨rfl, reinstated putBack⟩
            · exact absurd putBack (continues (index + 3) (by omega))
      | foreign top rowId base trusted split same =>
        exact split.inForce_of_trusted wellFormed same trusted along.unpopped accurate (by omega) bound inside
          (suits other bound inside).1

end Turns

end CompiledFunction

end Lldb
