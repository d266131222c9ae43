import Lldb.UnwindAssembly.X86NonCallSiteRows

/-! The rows of a function against the runs through it. -/

set_option autoImplicit false

namespace Lldb

open Library.X86 X86AssemblyInspectionEngine List Option

def storedReg : Instruction → Option Register
  | .pushReg reg => some reg
  | .store src _ _ => some src
  | _ => none

def written {size : WordSize} (before : Machine size) : Instruction → Option (Word size)
  | .pushReg _ | .pushImm _ | .pushRm .. | .callNext => some (before.regs sp - Machine.wordBytes size)
  | .store _ base displacement => some (before.regs base + Machine.word displacement)
  | _ => none

namespace StackFrame

variable {size : WordSize} {frame : StackFrame size} {before : Machine size} {instruction : Instruction}

theorem saved_spec {reg : Register} {slot : Word size} (saves : frame.saved before instruction = some (reg, slot)) :
    storedReg instruction = some reg ∧ nonvolatileReg size reg.val = true ∧ written before instruction = some slot := by
  cases instruction with
  | pushReg pushed =>
    simp only [saved, ite_none_right_eq_some] at saves
    obtain ⟨kept, rfl, rfl⟩ := saves
    refine ⟨rfl, ?_, rfl⟩
    rcases kept with rfl | unsaved
    · exact nonvolatile_bp size
    · exact unsaved.1
  | store src base displacement =>
    simp only [saved, ite_none_right_eq_some] at saves
    obtain ⟨kept, rfl, rfl⟩ := saves
    exact ⟨rfl, kept.2.2.1, rfl⟩
  | popReg _ | pushImm _ | pushRm _ _ _ _ | movSpBp _ | subSp _ | addSp _ | leaSp _ _ | leaBpSp _ | leave | ret
  | retImm _ | callNext | other _ => cases saves

theorem next_slots {reg : Register} {slot : Word size} (held : (frame.next before instruction).slots reg = some slot) :
    frame.saved before instruction = some (reg, slot) ∨
      frame.slots reg = some slot ∧ ∀ place, frame.saved before instruction ≠ some (reg, place) := by
  unfold next nextSlots at held
  cases saves : frame.saved before instruction with
  | some found =>
    obtain ⟨other, place⟩ := found
    rw [saves] at held
    dsimp only at held
    by_cases same : reg = other
    · subst same
      rw [Function.update_self, some_inj] at held
      exact .inl (by rw [held])
    · rw [Function.update_of_ne same] at held
      exact .inr ⟨held, fun _ equal => same (Prod.mk.inj (Option.some.inj equal)).1.symm⟩
  | none =>
    refine .inr ⟨?_, nofun⟩
    rw [saves] at held
    cases restores : frame.restored instruction with
    | none =>
      rw [restores] at held
      exact held
    | some other =>
      rw [restores] at held
      dsimp only at held
      by_cases same : reg = other
      · rw [same, Function.update_self] at held
        cases held
      · rwa [Function.update_of_ne same] at held

end StackFrame

theorem memory_of_step {size : WordSize} {before after : Machine size} {instruction : Instruction}
    (listed : X86AssemblyInspectionEngine.Listed size instruction) (step : before.Step instruction after) :
    (written before instruction = none → after.memory = before.memory) ∧
      ∀ place, written before instruction = some place →
        ∃ value, after.memory = Machine.store before.memory place value ∧
          ∀ reg, storedReg instruction = some reg → value = before.regs reg := by
  cases instruction with
  | pushReg reg =>
    obtain rfl := step
    refine ⟨nofun, ?_⟩
    rintro _ ⟨rfl⟩
    refine ⟨_, rfl, ?_⟩
    rintro _ ⟨rfl⟩
    rfl
  | pushImm value =>
    obtain rfl := step
    refine ⟨nofun, ?_⟩
    rintro _ ⟨rfl⟩
    exact ⟨_, rfl, nofun⟩
  | pushRm rex mode rm operand =>
    obtain ⟨value, rfl⟩ := step
    refine ⟨nofun, ?_⟩
    rintro _ ⟨rfl⟩
    exact ⟨_, rfl, nofun⟩
  | store src base displacement =>
    obtain rfl := step
    refine ⟨nofun, ?_⟩
    rintro _ ⟨rfl⟩
    refine ⟨_, rfl, ?_⟩
    rintro _ ⟨rfl⟩
    rfl
  | popReg reg =>
    obtain ⟨value, -, rfl⟩ := step
    exact ⟨fun _ => rfl, nofun⟩
  | leave =>
    obtain ⟨value, -, rfl⟩ := step
    exact ⟨fun _ => rfl, nofun⟩
  | movSpBp _ | subSp _ | addSp _ | leaSp _ _ | leaBpSp _ =>
    obtain rfl := step
    exact ⟨fun _ => rfl, nofun⟩
  | ret | retImm _ => exact step.elim
  | callNext | other _ => exact listed.elim

namespace AssembledFunction

variable (function : AssembledFunction) (states : Nat → function.State)

def frames : Nat → StackFrame function.size
  | 0 => .onEntry
  | index + 1 =>
    match function.program[index]? with
    | some instruction => (frames index).next (states index) instruction
    | none => frames index

def StoredBefore (index : Nat) (reg : Register) : Prop :=
  ∃ earlier < index, ∃ instruction, function.program[earlier]? = some instruction ∧ storedReg instruction = some reg

/-- The function is made of the instructions that the analysis is made for, and a register that is to be saved has its
value at entry until it is put into memory.
-/
structure WellBehaved (last : Nat) : Prop where
  listed : ∀ instruction ∈ function.program, X86AssemblyInspectionEngine.Listed function.size instruction
  kept : ∀ index < last, ∀ instruction, function.program[index]? = some instruction → ∀ reg ≠ sp,
    nonvolatileReg function.size reg.val = true → storedReg instruction = some reg →
      ¬ function.StoredBefore index reg → (states index).regs reg = (states 0).regs reg

/-- Neither the return address is written over nor a slot that a register was saved in, and is not restored from. -/
def Intact (index : Nat) (instruction : Instruction) : Prop :=
  ∀ place, written (states index) instruction = some place → Machine.Apart ((states 0).regs sp) place ∧
      ∀ reg slot, (function.frames states index).slots reg = some slot →
        (∀ place, (function.frames states index).saved (states index) instruction ≠ some (reg, place)) →
          Machine.Apart slot place

structure Suits (index : Nat) (instruction : Instruction) : Prop where
  expected : (function.frames states index).Expected (states index) (states (index + 1)) instruction
  fits : (function.frames states (index + 1)).following = true → FitsInt (function.distance states (index + 1))
  slot : ∀ reg place, (function.frames states index).saved (states index) instruction = some (reg, place) →
    FitsInt (place - function.cfa states).toInt ∧
      (reg = sp ∨ function.StoredBefore index reg → (states index).regs reg = (states 0).regs reg)
  intact : function.Intact states index instruction

/-- The row in force gives the canonical frame address, and every slot that it has for a register or for the return
address holds what that was at entry.
-/
def Unwinds (rowList : List Row) (index : Nat) : Prop :=
  ∃ row, UnwindPlan.bestRow (function.place index) none rowList = some row ∧
    (∃ reg offset, X86AssemblyInspectionEngine.Addressable function.size reg ∧
      row.cfaValue = .isRegisterPlusOffset (function.engine.lldbRegnum reg) offset ∧
      (states index).regs reg + BitVec.ofInt _ offset = function.cfa states) ∧
    (∀ reg, X86AssemblyInspectionEngine.Addressable function.size reg → ∀ offset,
      row.getRegisterInfo (function.engine.lldbRegnum reg) = some (.atCFAPlusOffset offset) →
        Machine.Holds (states index).memory (function.cfa states + BitVec.ofInt _ offset) ((states 0).regs reg)) ∧
    ∀ offset, row.getRegisterInfo function.engine.lldbIpRegnum = some (.atCFAPlusOffset offset) →
      ∀ value, Machine.Holds (states 0).memory ((states 0).regs sp) value →
        Machine.Holds (states index).memory (function.cfa states + BitVec.ofInt _ offset) value

variable {function states}

theorem frames_succ {index : Nat} {instruction : Instruction} (fetched : function.program[index]? = some instruction) :
    function.frames states (index + 1) = (function.frames states index).next (states index) instruction := by
  rw [frames, fetched]

theorem value_of_saved {last index : Nat} {instruction : Instruction} (wellBehaved : function.WellBehaved states last)
    (bound : index < last) (fetched : function.program[index]? = some instruction)
    (suits : function.Suits states index instruction) {reg : Register} {place : Word function.size}
    (saves : (function.frames states index).saved (states index) instruction = some (reg, place)) :
    (states index).regs reg = (states 0).regs reg := by
  obtain ⟨stored, notVolatile, -⟩ := StackFrame.saved_spec saves
  by_cases again : reg = sp ∨ function.StoredBefore index reg
  · exact (suits.slot reg place saves).2 again
  · obtain ⟨notSp, first⟩ := not_or.mp again
    exact wellBehaved.kept index bound instruction fetched reg notSp notVolatile stored first

/-- The slots hold the registers' values at entry, and the return address is where it was. -/
structure Holding (function : AssembledFunction) (states : Nat → function.State) (index : Nat) : Prop where
  slots : ∀ reg slot, (function.frames states index).slots reg = some slot →
    Machine.Holds (states index).memory slot ((states 0).regs reg)
  returnAddress : ∀ value, Machine.Holds (states 0).memory ((states 0).regs sp) value →
    Machine.Holds (states index).memory ((states 0).regs sp) value

theorem Holding.next {last index : Nat} {instruction : Instruction} (holding : Holding function states index)
    (wellBehaved : function.WellBehaved states last) (bound : index < last)
    (fetched : function.program[index]? = some instruction)
    (step : (states index).Step instruction (states (index + 1))) (suits : function.Suits states index instruction) : Holding function states (index + 1) := by
  have listed := wellBehaved.listed instruction (mem_of_getElem? fetched)
  obtain ⟨unchanged, changed⟩ := memory_of_step listed step
  cases writes : written (states index) instruction with
  | none =>
    refine ⟨?_, ?_⟩
    · intro reg slot held
      rw [frames_succ fetched] at held
      rcases StackFrame.next_slots held with saves | ⟨before, -⟩
      · obtain ⟨-, -, there⟩ := StackFrame.saved_spec saves
        rw [writes] at there
        cases there
      · rw [unchanged writes]
        exact holding.slots reg slot before
    · intro value held
      rw [unchanged writes]
      exact holding.returnAddress value held
  | some place =>
    obtain ⟨apartReturn, apart⟩ := suits.intact place writes
    obtain ⟨value, memory, isReg⟩ := changed place writes
    refine ⟨?_, ?_⟩
    · intro reg slot held
      rw [frames_succ fetched] at held
      rw [memory]
      rcases StackFrame.next_slots held with saves | ⟨before, other⟩
      · obtain ⟨stored, -, there⟩ := StackFrame.saved_spec saves
        rw [writes, some_inj] at there
        rw [there, isReg reg stored, value_of_saved wellBehaved bound fetched suits saves]
        exact Machine.holds_store _ _ _
      · exact (holding.slots reg slot before).store_apart (apart reg slot before other) value
    · intro address held
      rw [memory]
      exact (holding.returnAddress address held).store_apart apartReturn value

/-- Before an instruction the analysis is at its place, and the last row that it has appended is the one it holds. -/
structure Arrives (function : AssembledFunction) (states : Nat → function.State) (index turns : Nat) (front : List Row)
    (top : Row) (analysis : X86AssemblyInspectionEngine.Analysis) : Prop where
  enough : function.data.length ≤ turns + function.place index
  same : function.engine.nonCallSiteLoop function.data function.data.length 0 [function.engine.firstRow]
    function.engine.firstAnalysis =
      function.engine.nonCallSiteLoop function.data turns (function.place index) (front ++ [top]) analysis
  behind : ∀ row ∈ front, row.offset ≤ function.place index
  reached : top.offset ≤ function.place index
  value : top.cfaValue = analysis.row.cfaValue
  locations : top.registerLocations = analysis.row.registerLocations
  tracks : function.engine.Tracks (function.cfa states) (function.frames states index) (states index).regs analysis

open X86AssemblyInspectionEngine in
theorem tracks_firstAnalysis (numbered : function.engine.Numbered) :
    function.engine.Tracks (function.cfa states) .onEntry (states 0).regs function.engine.firstAnalysis := by
  obtain ⟨low, high⟩ := function.engine.wordsize_bounds
  have distance : function.cfa states - (states 0).regs sp = Machine.wordBytes function.size := by
    exact add_sub_cancel_left _ _
  refine ⟨.bySp ⟨?_, ?_⟩, ?_⟩
  · unfold FitsInt
    omega
  · rw [distance, ofInt_wordsize]
  · have ipOnly : ∀ reg, Addressable function.size reg → ∀ offset,
        function.engine.firstRow.registerLocations (function.engine.lldbRegnum reg) ≠
          some (.atCFAPlusOffset offset) := by
      intro reg addressable offset listed
      unfold firstRow Row.setRegisterInfo at listed
      dsimp only at listed
      rw [Function.update_of_ne (numbered.ip reg addressable)] at listed
      by_cases isSp : function.engine.lldbRegnum reg = function.engine.lldbSpRegnum
      · rw [isSp, Function.update_self] at listed
        cases listed
      · rw [Function.update_of_ne isSp] at listed
        cases listed
    refine ⟨fun _ _ _ => rfl, nofun, ?_, ?_⟩
    · intro reg addressable offset listed
      exact absurd listed (ipOnly reg addressable offset)
    · exact Function.update_self ..

theorem arrives_start (numbered : function.engine.Numbered) :
    Arrives function states 0 function.data.length [] function.engine.firstRow function.engine.firstAnalysis where
  enough := le_refl _
  same := rfl
  behind := nofun
  reached := le_refl _
  value := rfl
  locations := rfl
  tracks := tracks_firstAnalysis numbered

open X86AssemblyInspectionEngine in
theorem Arrives.next {index turns last : Nat} {front : List Row} {top : Row} {analysis : Analysis}
    (arrives : Arrives function states index turns front top analysis) (numbered : function.engine.Numbered)
    (disassembled : function.Disassembled) (wellBehaved : function.WellBehaved states last)
    {instruction : Instruction} (fetched : function.program[index]? = some instruction)
    (step : (states index).Step instruction (states (index + 1))) (suits : function.Suits states index instruction)
    (continues : index + 1 < function.program.length) :
    ∃ turns front top analysis, Arrives function states (index + 1) turns front top analysis := by
  have inside : index < function.program.length := Nat.lt_of_succ_lt continues
  have before := disassembled.place_lt_length inside
  have after := disassembled.place_lt_length continues
  have forward := disassembled.place_lt inside
  obtain ⟨length, measured, valid, further⟩ := disassembled.length_eq inside
  have enough := arrives.enough
  obtain ⟨turns, rfl⟩ : ∃ fewer, turns = fewer + 1 := Nat.exists_eq_add_of_le' (by omega)
  have tracks : function.engine.Tracks (function.cfa states) (function.frames states (index + 1))
      (states (index + 1)).regs
      (function.engine.readInstruction (function.data.drop (function.place index)) analysis) := by
    have bytes := @code_drop_start function.size _ _ _ fetched
    rw [show function.data.drop (function.place index) = _ from bytes, frames_succ fetched]
    apply arrives.tracks.step numbered suits.expected (fun reg place saves => (suits.slot reg place saves).1)
    · rw [← frames_succ fetched]
      exact suits.fits
    · exact wellBehaved.listed instruction (mem_of_getElem? fetched)
    · exact step
  have same := arrives.same
  rw [nonCallSiteLoop, if_pos before] at same
  dsimp only at same
  rw [measured, if_neg valid, further] at same
  generalize read : function.engine.readInstruction (function.data.drop (function.place index)) analysis = turned
    at same tracks
  by_cases updated : turned.rowUpdated = true
  · rw [if_pos ⟨updated, after⟩] at same
    have appended : UnwindPlan.appendRow (front ++ [top]) (turned.row.setOffset (function.place (index + 1))) =
        front ++ [top] ++ [turned.row.setOffset (function.place (index + 1))] := by
      have reached := arrives.reached
      unfold UnwindPlan.appendRow
      rw [getLast?_concat]
      exact if_pos (show top.offset ≠ function.place (index + 1) by omega)
    rw [appended] at same
    refine ⟨turns, front ++ [top], _, _, ?_, same, ?_, le_refl _, ?_, ?_, ?_⟩
    · omega
    · intro row member
      rcases mem_append.mp member with earlier | isTop
      · exact le_of_lt (lt_of_le_of_lt (arrives.behind row earlier) forward)
      · rw [mem_singleton.mp isTop]
        exact le_of_lt (lt_of_le_of_lt arrives.reached forward)
    · rw [Analysis.complete_row]
    · rw [Analysis.complete_row]
    · exact Tracks.complete ⟨tracks.stands, tracks.lists⟩
  · rw [if_neg fun both => updated both.1] at same
    have unchanged : turned.row = analysis.row := by
      rw [← read] at updated ⊢
      exact row_of_not_updated function.engine _ analysis (Bool.eq_false_iff.mpr updated)
    refine ⟨turns, front, top, _, ?_, same, ?_, ?_, ?_, ?_, tracks.complete⟩
    · omega
    · intro row member
      exact le_of_lt (lt_of_le_of_lt (arrives.behind row member) forward)
    · exact le_of_lt (lt_of_le_of_lt arrives.reached forward)
    · rw [Analysis.complete_row, unchanged]
      exact arrives.value
    · rw [Analysis.complete_row, unchanged]
      exact arrives.locations

/-- In a run all of whose instructions suit, the row in force before each gives the address that the stack pointer had,
one word on, when the function was entered, and where the registers are saved.
-/
theorem unwinds_of_suits (function : AssembledFunction) (disassembled : function.Disassembled)
    (numbered : function.engine.Numbered) (execution : function.Execution)
    (wellBehaved : function.WellBehaved execution.states execution.last)
    (suits : ∀ index < execution.last, ∀ instruction, function.program[index]? = some instruction →
      function.Suits execution.states index instruction) :
    ∃ rowList, function.engine.getNonCallSiteUnwindPlanFromAssembly function.data = some rowList ∧
      ∀ index ≤ execution.last, function.Unwinds execution.states rowList index := by
  have along : ∀ index ≤ execution.last, Holding function execution.states index ∧
      ∃ turns front top analysis, Arrives function execution.states index turns front top analysis := by
    intro index
    induction index with
    | zero =>
      intro _
      exact ⟨⟨nofun, fun _ held => held⟩, _, _, _, _, arrives_start numbered⟩
    | succ index ih =>
      intro bound
      obtain ⟨holding, turns, front, top, analysis, arrives⟩ := ih (le_of_lt bound)
      obtain ⟨instruction, fetched, step⟩ := execution.run index bound
      have suited := suits index bound instruction fetched
      exact ⟨holding.next wellBehaved bound fetched step suited,
        arrives.next numbered disassembled wellBehaved fetched step suited
          (lt_of_le_of_lt bound execution.inside)⟩
  have nonempty : function.data.length ≠ 0 := by
    have first := disassembled.place_lt_length (Nat.zero_lt_of_lt execution.inside)
    omega
  refine ⟨_, if_neg nonempty, ?_⟩
  intro index bound
  obtain ⟨holding, turns, front, top, analysis, arrives⟩ := along index bound
  obtain ⟨offset, value, denotes⟩ := arrives.tracks.stands.value
  refine ⟨top, ?_, ⟨_, offset, ?_, arrives.value.trans value, ?_⟩, ?_, ?_⟩
  · rw [arrives.same, bestRow_nonCallSiteLoop _ _ _ (le_refl _)]
    exact UnwindPlan.bestRow_split none arrives.behind arrives.reached nofun
  · split
    · exact addressable_bp _
    · exact addressable_sp _
  · rw [denotes.same]
    exact add_sub_cancel _ _
  · intro reg addressable place listed
    rw [Row.getRegisterInfo, arrives.locations] at listed
    exact holding.slots reg _ (arrives.tracks.lists.located reg addressable place listed)
  · intro place listed address held
    rw [Row.getRegisterInfo, arrives.locations, arrives.tracks.lists.returnAddress, some_inj,
      RegisterLocation.atCFAPlusOffset.injEq] at listed
    rw [← listed, BitVec.ofInt_neg, ofInt_wordsize, cfa, ← sub_eq_add_neg, add_sub_cancel_right]
    exact holding.returnAddress address held

def framing : AssembledFunction where
  engine :=
    { size := .eight
      lldbRegnum := Fin.val
      lldbIpRegnum := 16
      instructionLength := fun code => if code.head? = some 0x48 then 3 else 1 }
  program := [.pushReg bp, .movSpBp false, .pushReg 3, .ret]

theorem numbered_val (size : WordSize) (instructionLength : List Byte → Nat) :
    X86AssemblyInspectionEngine.Numbered ⟨size, Fin.val, 16, instructionLength⟩ where
  distinct _ _ _ _ same := Fin.ext same
  ip reg _ := ne_of_lt reg.isLt

theorem framing_disassembled : framing.Disassembled := by
  intro index instruction fetched
  match index, fetched with
  | 0, rfl | 1, rfl | 2, rfl | 3, rfl => decide
  | _ + 4, fetched => cases fetched

def framingEntry : framing.State := ⟨fun _ => 0, fun _ => 0⟩

def framingSet : framing.State :=
  { framingEntry.push 0 with
    regs := Function.update (framingEntry.push 0).regs bp ((framingEntry.push 0).regs sp) }

def framingExecution : framing.Execution where
  states
    | 0 => framingEntry
    | 1 => framingEntry.push 0
    | 2 => framingSet
    | _ => framingSet.push 0
  last := 3
  inside := by decide
  run index bound := by
    match index, bound with
    | 0, _ => exact ⟨_, rfl, rfl⟩
    | 1, _ => exact ⟨_, rfl, rfl⟩
    | 2, _ => exact ⟨_, rfl, rfl⟩

theorem framing_wellBehaved : framing.WellBehaved framingExecution.states 3 where
  listed instruction member := by
    simp only [framing, mem_cons, not_mem_nil, or_false] at member
    rcases member with rfl | rfl | rfl | rfl
    · exact nofun
    · trivial
    · exact nofun
    · trivial
  kept index bound instruction fetched reg _ _ stored _ := by
    match index, bound, fetched with
    | 0, _, rfl => rfl
    | 1, _, rfl => cases stored
    | 2, _, rfl =>
      cases stored
      rfl

theorem framing_suits (index : Nat) (bound : index < 3) (instruction : Instruction)
    (fetched : framing.program[index]? = some instruction) :
    framing.Suits framingExecution.states index instruction := by
  match index, bound, fetched with
  | 0, _, rfl =>
    refine ⟨nofun, fun _ => by decide, ?_, ?_⟩
    · rintro _ _ ⟨rfl, rfl⟩
      exact ⟨by decide, fun _ => rfl⟩
    · rintro _ ⟨rfl⟩
      exact ⟨by decide, nofun⟩
  | 1, _, rfl => exact ⟨nofun, fun _ => by decide, nofun, nofun⟩
  | 2, _, rfl =>
    refine ⟨fun _ => rfl, fun _ => by decide, ?_, ?_⟩
    · rintro _ _ ⟨rfl, rfl⟩
      exact ⟨by decide, fun _ => rfl⟩
    · rintro _ ⟨rfl⟩
      refine ⟨by decide, ?_⟩
      intro reg slot held _
      have slots : (framing.frames framingExecution.states 2).slots =
          Function.update (fun _ => none) bp (some (0 - 8)) := rfl
      rw [slots] at held
      by_cases isBp : reg = bp
      · subst isBp
        cases held
        decide
      · rw [Function.update_of_ne isBp] at held
        cases held

theorem unwinds_of_suits_framing : ∃ rowList,
    framing.engine.getNonCallSiteUnwindPlanFromAssembly framing.data = some rowList ∧
      ∀ index ≤ 3, framing.Unwinds framingExecution.states rowList index :=
  unwinds_of_suits framing framing_disassembled (numbered_val _ _) framingExecution framing_wellBehaved framing_suits

/-- A register is stored by way of `r13`. -/
def spilling : AssembledFunction where
  engine :=
    { size := .eight
      lldbRegnum := Fin.val
      lldbIpRegnum := 16
      instructionLength := fun code =>
        if code.head? = some 0x48 then 3 else if code.head? = some 0x49 then 4 else 1 }
  program := [.pushReg bp, .movSpBp false, .store 3 13 (.byte 0xf8), .ret]

theorem spilling_disassembled : spilling.Disassembled := by
  intro index instruction fetched
  match index, fetched with
  | 0, rfl | 1, rfl | 2, rfl | 3, rfl => decide
  | _ + 4, fetched => cases fetched

def spillingEntry : spilling.State :=
  ⟨fun reg => if reg = 3 then 1 else if reg = 13 then 0x1000 else 0, fun _ => 0⟩

def spillingSet : spilling.State :=
  { spillingEntry.push 0 with
    regs := Function.update (spillingEntry.push 0).regs bp ((spillingEntry.push 0).regs sp) }

def spillingExecution : spilling.Execution where
  states
    | 0 => spillingEntry
    | 1 => spillingEntry.push 0
    | 2 => spillingSet
    | _ => { spillingSet with memory := Machine.store spillingSet.memory 0xff8 1 }
  last := 3
  inside := by decide
  run index bound := by
    match index, bound with
    | 0, _ => exact ⟨_, rfl, rfl⟩
    | 1, _ => exact ⟨_, rfl, rfl⟩
    | 2, _ => exact ⟨_, rfl, rfl⟩

theorem spilling_wellBehaved : spilling.WellBehaved spillingExecution.states 3 where
  listed instruction member := by
    simp only [spilling, mem_cons, not_mem_nil, or_false] at member
    rcases member with rfl | rfl | rfl | rfl
    · exact nofun
    · trivial
    · exact ⟨nofun, nofun⟩
    · trivial
  kept index bound instruction fetched reg _ _ stored _ := by
    match index, bound, fetched with
    | 0, _, rfl =>
      cases stored
      rfl
    | 1, _, rfl => cases stored
    | 2, _, rfl =>
      cases stored
      rfl

theorem spilling_intact (index : Nat) (bound : index < 3) (instruction : Instruction)
    (fetched : spilling.program[index]? = some instruction) :
    spilling.Intact spillingExecution.states index instruction := by
  match index, bound, fetched with
  | 0, _, rfl =>
    rintro _ ⟨rfl⟩
    exact ⟨by decide, nofun⟩
  | 1, _, rfl => exact nofun
  | 2, _, rfl =>
    rintro _ ⟨rfl⟩
    refine ⟨by decide, ?_⟩
    intro reg slot held _
    have slots : (spilling.frames spillingExecution.states 2).slots =
        Function.update (fun _ => none) bp (some (0 - 8)) := rfl
    rw [slots] at held
    by_cases isBp : reg = bp
    · subst isBp
      cases held
      decide
    · rw [Function.update_of_ne isBp] at held
      cases held

/-- A slot that `r13` stands above is taken for one below the frame pointer. -/
theorem not_always_unwinds : ¬ ∀ (function : AssembledFunction) (_ : function.Disassembled)
    (_ : function.engine.Numbered) (execution : function.Execution) (_ : function.WellBehaved execution.states execution.last)
    (_ : ∀ index < execution.last, ∀ instruction, function.program[index]? = some instruction →
      function.Intact execution.states index instruction),
    ∃ rowList, function.engine.getNonCallSiteUnwindPlanFromAssembly function.data = some rowList ∧
      ∀ index ≤ execution.last, function.Unwinds execution.states rowList index := by
  intro claim
  obtain ⟨rowList, planned, unwinds⟩ := claim spilling spilling_disassembled (numbered_val _ _) spillingExecution
    spilling_wellBehaved spilling_intact
  obtain ⟨row, found, -, slots, -⟩ := unwinds 3 (le_refl 3)
  have listed : ((spilling.engine.getNonCallSiteUnwindPlanFromAssembly spilling.data).bind
      (UnwindPlan.bestRow (spilling.place 3) none)).bind (·.getRegisterInfo 3) = some (.atCFAPlusOffset (-24)) := by
    decide
  rw [planned, bind_some, found] at listed
  exact absurd (slots 3 nofun (-24) listed) (by decide)

end AssembledFunction

end Lldb
