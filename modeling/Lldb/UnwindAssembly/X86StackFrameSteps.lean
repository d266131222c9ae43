import Lldb.UnwindAssembly.X86StackFrames

/-! What one instruction does to the stack frame, and that the analysis follows it. -/

set_option autoImplicit false

namespace Lldb.X86AssemblyInspectionEngine

open Library.X86 Machine StackFrame

variable {engine : X86AssemblyInspectionEngine} {cfa : Word engine.size} {frame : StackFrame engine.size}
  {regs : Register → Word engine.size} {analysis : Analysis}

theorem bp_ne_sp : bp ≠ sp := by decide

theorem wordsize_bounds (engine : X86AssemblyInspectionEngine) : 4 ≤ engine.wordsize ∧ engine.wordsize ≤ 8 := by
  unfold wordsize WordSize.bytes
  cases engine.size <;> decide

theorem ofInt_wordsize (engine : X86AssemblyInspectionEngine) :
    BitVec.ofInt engine.size.bits engine.wordsize = wordBytes engine.size :=
  AssembledFunction.wordsize_eq engine.size

namespace Tracks

theorem adjust (numbered : engine.Numbered) (tracks : engine.Tracks cfa frame regs analysis) {amount : Int}
    (low : -2 ^ 32 ≤ amount) (high : amount ≤ 2 ^ 32) {place : Word engine.size}
    (moves : cfa - place = cfa - regs sp + BitVec.ofInt engine.size.bits amount)
    (fits : frame.following = true → FitsInt (cfa - place).toInt) :
    engine.Tracks cfa frame (Function.update regs sp place) (engine.moveSp analysis amount) := by
  refine ⟨?_, tracks.lists.moveSp amount⟩
  apply tracks.stands.moveSp numbered low high
  · intro _
    rw [Function.update_of_ne bp_ne_sp]
  · intro following
    exact ⟨following, moves, fits following⟩
  · exact tracks.stands.unframed

theorem push (numbered : engine.Numbered) (tracks : engine.Tracks cfa frame regs analysis)
    (fits : frame.following = true → FitsInt (cfa - (regs sp - wordBytes engine.size)).toInt) :
    engine.Tracks cfa frame (Function.update regs sp (regs sp - wordBytes engine.size))
      (engine.moveSp analysis engine.wordsize) := by
  obtain ⟨low, high⟩ := engine.wordsize_bounds
  apply tracks.adjust numbered (by omega) (by omega) _ fits
  exact sub_sub_eq_add_sub cfa (regs sp) (wordBytes engine.size) |>.trans (add_sub_right_comm _ _ _)

/-- The stack pointer moves unseen while the frame pointer tells the canonical frame address. -/
theorem unseen (tracks : engine.Tracks cfa frame regs analysis) (framed : frame.framed = true)
    (place : Word engine.size) :
    engine.Tracks cfa { frame with following := false } (Function.update regs sp place) analysis := by
  refine ⟨?_, tracks.lists⟩
  obtain ⟨offset, value, same⟩ := tracks.stands.value
  rw [framed] at same
  rw [value, framed]
  exact .byFp (by rwa [Function.update_of_ne bp_ne_sp]) tracks.stands.current nofun

end Tracks

theorem Lists.toBeSaved
    (lists : engine.Lists cfa frame.slots analysis.row.registerLocations analysis.savedRegisters) {reg : Register}
    (addressable : Addressable engine.size reg) :
    engine.toBeSaved analysis reg.val = if frame.Unsaved reg then some (engine.lldbRegnum reg) else none := by
  unfold X86AssemblyInspectionEngine.toBeSaved
  rw [machineRegnoToLldbRegno_eq engine addressable]
  by_cases notVolatile : nonvolatileReg engine.size reg.val = true
  · rw [lists.marked reg addressable notVolatile]
    cases slot : frame.slots reg <;> simp [StackFrame.Unsaved, slot]
  · rw [if_neg fun both => notVolatile both.1, if_neg fun unsaved => notVolatile unsaved.1]

theorem pushed_denotes {offset : Int} {place : Word engine.size} (current : Denotes engine.size offset (cfa - place))
    (fits : FitsInt (place - cfa).toInt) : Denotes engine.size ((-offset).bmod (2 ^ 32)) (place - cfa) := by
  obtain ⟨lower, upper⟩ := current.fits
  apply Denotes.bmod (by omega) (by omega) _ fits
  rw [BitVec.ofInt_neg, current.same, neg_sub]

theorem Tracks.pushRegister (numbered : engine.Numbered) (tracks : engine.Tracks cfa frame regs analysis)
    {reg : Register} (addressable : Addressable engine.size reg)
    (known : frame.Unsaved reg → frame.following = true)
    (slot : frame.Unsaved reg → FitsInt (regs sp - wordBytes engine.size - cfa).toInt)
    (fits : frame.following = true → FitsInt (cfa - (regs sp - wordBytes engine.size)).toInt) :
    engine.Tracks cfa
      { frame with
        slots :=
          if frame.Unsaved reg then Function.update frame.slots reg (some (regs sp - wordBytes engine.size))
          else frame.slots }
      (Function.update regs sp (regs sp - wordBytes engine.size))
      (engine.pushRegister analysis reg.val) := by
  have moved := tracks.push numbered fits
  unfold X86AssemblyInspectionEngine.pushRegister
  dsimp only
  rw [moved.lists.toBeSaved addressable]
  by_cases unsaved : frame.Unsaved reg
  · rw [if_pos unsaved, if_pos unsaved]
    have follows := moved.stands.follows (known unsaved)
    have denotes := pushed_denotes ⟨moved.stands.current, follows⟩ (slot unsaved)
    exact ⟨moved.stands, moved.lists.save numbered addressable unsaved.1 denotes⟩
  · rw [if_neg unsaved, if_neg unsaved]
    exact moved

theorem Tracks.pushRbp (numbered : engine.Numbered) (tracks : engine.Tracks cfa frame regs analysis)
    (known : frame.framed = true → frame.following = true ∧ regs bp = regs sp - wordBytes engine.size)
    (slot : FitsInt (regs sp - wordBytes engine.size - cfa).toInt)
    (fits : frame.following = true → FitsInt (cfa - (regs sp - wordBytes engine.size)).toInt) :
    engine.Tracks cfa
      { frame with slots := Function.update frame.slots bp (some (regs sp - wordBytes engine.size)) }
      (Function.update regs sp (regs sp - wordBytes engine.size)) (engine.pushRbp analysis) := by
  obtain ⟨low, high⟩ := engine.wordsize_bounds
  have following : frame.following = true := by
    cases framed : frame.framed with
    | false => exact tracks.stands.unframed framed
    | true => exact (known framed).1
  have moves : cfa - (regs sp - wordBytes engine.size) =
      cfa - regs sp + BitVec.ofInt engine.size.bits engine.wordsize := by
    exact sub_sub_eq_add_sub cfa (regs sp) (wordBytes engine.size) |>.trans (add_sub_right_comm _ _ _)
  have denotes := tracks.stands.moved (by omega) (by omega) following moves (fits following)
  obtain ⟨offset, value, -⟩ := tracks.stands.value
  unfold X86AssemblyInspectionEngine.pushRbp Analysis.setOffset Analysis.setSp Analysis.save Row.setCFAValue
  rw [value]
  refine ⟨?_, tracks.lists.save numbered (addressable_bp _) (nonvolatile_bp _) (pushed_denotes denotes slot)⟩
  rw [following]
  cases framed : frame.framed with
  | false => exact .bySp (by rwa [Function.update_self])
  | true =>
    have there := (known framed).2
    apply Stands.byFp
    · rwa [Function.update_of_ne bp_ne_sp, there]
    · exact denotes.fits
    · intro _
      exact denotes.same

/-- The end of a pop: the stack pointer tells the canonical frame address by its new distance, if it is the one to
tell.
-/
def settle (engine : X86AssemblyInspectionEngine) (analysis : Analysis) : Analysis :=
  if analysis.row.cfaValue.getRegisterNumber = engine.lldbSpRegnum then
    { analysis with
      row := analysis.row.setCFAValue
        (.isRegisterPlusOffset engine.lldbSpRegnum analysis.currentSpBytesOffsetFromCfa)
      rowUpdated := true }
  else analysis

section Pop

variable (engine) (analysis) {reg : Register}

def dropWord : Analysis := analysis.setSp (analysis.currentSpBytesOffsetFromCfa - engine.wordsize)

theorem popRegister_unsaved {machineRegno : Nat}
    (unsaved : ¬ (nonvolatileReg engine.size machineRegno = true ∧ analysis.savedRegisters machineRegno = true)) :
    engine.popRegister analysis machineRegno = engine.settle (engine.dropWord analysis) := by
  unfold popRegister
  dsimp only
  rw [if_neg (show ¬ (nonvolatileReg engine.size machineRegno = true ∧
    (analysis.setSp _).savedRegisters machineRegno = true) from unsaved)]
  rfl

theorem popRegister_saved (addressable : Addressable engine.size reg)
    (saved : nonvolatileReg engine.size reg.val = true ∧ analysis.savedRegisters reg.val = true) (other : reg ≠ bp) :
    engine.popRegister analysis reg.val =
      engine.settle ((engine.dropWord analysis).restore reg.val (engine.lldbRegnum reg)) := by
  unfold popRegister
  rw [machineRegnoToLldbRegno_eq engine addressable]
  dsimp only
  rw [if_pos (show nonvolatileReg engine.size reg.val = true ∧ (analysis.setSp _).savedRegisters reg.val = true
    from saved), if_neg fun same => other (Fin.ext same)]
  rfl

theorem popRegister_bp (saved : analysis.savedRegisters bp.val = true) : engine.popRegister analysis bp.val =
      engine.settle
        { (engine.dropWord analysis).restore bp.val engine.lldbFpRegnum with
          row := ((engine.dropWord analysis).restore bp.val engine.lldbFpRegnum).row.setCFAValue
            (.isRegisterPlusOffset engine.lldbSpRegnum analysis.row.cfaValue.getOffset) } := by
  unfold popRegister
  rw [machineRegnoToLldbRegno_eq engine (addressable_bp _)]
  dsimp only
  rw [if_pos (show nonvolatileReg engine.size bp.val = true ∧ (analysis.setSp _).savedRegisters bp.val = true
    from ⟨nonvolatile_bp _, saved⟩)]
  rfl

end Pop

variable {slots : Register → Option (Word engine.size)} {regs' : Register → Word engine.size}

theorem Tracks.settle (numbered : engine.Numbered) {framed following following' : Bool} {spOffset : Int}
    (stands : engine.Stands cfa framed following regs analysis.row.cfaValue spOffset)
    (lists : engine.Lists cfa slots analysis.row.registerLocations analysis.savedRegisters)
    (current : FitsInt analysis.currentSpBytesOffsetFromCfa) (kept : framed = true → regs' bp = regs bp)
    (follows : following' = true → BitVec.ofInt engine.size.bits analysis.currentSpBytesOffsetFromCfa = cfa - regs' sp)
    (known : framed = false → following' = true) :
    engine.Tracks cfa ⟨framed, following', slots⟩ regs' (engine.settle analysis) := by
  have inSp := stands.unframed_iff numbered
  unfold X86AssemblyInspectionEngine.settle
  cases framed with
  | false =>
    rw [if_pos (inSp.mpr rfl)]
    obtain rfl := known rfl
    exact ⟨.bySp ⟨current, follows rfl⟩, lists⟩
  | true =>
    rw [if_neg fun bySp => nomatch inSp.mp bySp]
    refine ⟨?_, lists⟩
    obtain ⟨offset, value, same⟩ := stands.value
    rw [if_pos rfl, ← kept rfl] at same
    rw [value]
    exact .byFp same current follows

theorem Tracks.settle_bySp {offset : Int}
    (value : analysis.row.cfaValue = .isRegisterPlusOffset engine.lldbSpRegnum offset)
    (lists : engine.Lists cfa slots analysis.row.registerLocations analysis.savedRegisters)
    (denotes : Denotes engine.size analysis.currentSpBytesOffsetFromCfa (cfa - regs sp)) :
    engine.Tracks cfa ⟨false, true, slots⟩ regs (engine.settle analysis) := by
  unfold X86AssemblyInspectionEngine.settle
  rw [if_pos (by rw [value]; rfl)]
  exact ⟨.bySp denotes, lists⟩

theorem Tracks.popRegister (numbered : engine.Numbered) (tracks : engine.Tracks cfa frame regs analysis)
    {reg : Register} (addressable : Addressable engine.size reg)
    (kept : reg ≠ bp → regs' bp = regs bp) (lands : reg ≠ sp → regs' sp = regs sp + wordBytes engine.size)
    (expected : reg = bp → frame.framed = true →
      if (frame.slots bp).isSome then frame.following = true else regs' bp = regs bp)
    (onSp : reg = sp → frame.framed = false → regs' sp = regs sp + wordBytes engine.size)
    (fits : (frame.following && (reg ≠ sp || !frame.framed)) = true → FitsInt (cfa - regs' sp).toInt) :
    engine.Tracks cfa
      { framed := frame.framed && !(reg = bp && (frame.slots bp).isSome)
        following := frame.following && (reg ≠ sp || !frame.framed)
        slots := if (frame.slots reg).isSome then Function.update frame.slots reg none else frame.slots }
      regs' (engine.popRegister analysis reg.val) := by
  obtain ⟨low, high⟩ := engine.wordsize_bounds
  have follows : (frame.following && (reg ≠ sp || !frame.framed)) = true → Denotes engine.size
      (engine.dropWord analysis).currentSpBytesOffsetFromCfa (cfa - regs' sp) := by
    intro both
    have place : regs' sp = regs sp + wordBytes engine.size := by
      by_cases isSp : reg = sp
      · apply onSp isSp
        simpa [isSp] using (Bool.and_eq_true_iff.mp both).2
      · exact lands isSp
    have moves : cfa - regs' sp = cfa - regs sp + BitVec.ofInt engine.size.bits (-engine.wordsize) := by
      rw [place, BitVec.ofInt_neg, ofInt_wordsize, sub_add_eq_sub_sub, sub_eq_add_neg]
    exact tracks.stands.moved (by omega) (by omega) (Bool.and_eq_true_iff.mp both).1 moves (fits both)
  have known : frame.framed = false → (frame.following && (reg ≠ sp || !frame.framed)) = true := by
    intro framed
    simp [framed, tracks.stands.unframed framed]
  have marked : (nonvolatileReg engine.size reg.val = true ∧ analysis.savedRegisters reg.val = true) ↔
      (frame.slots reg).isSome = true := by
    constructor
    · intro both
      rw [← tracks.lists.marked reg addressable both.1]
      exact both.2
    · intro held
      have notVolatile := tracks.lists.nonvolatile reg held
      rw [tracks.lists.marked reg addressable notVolatile]
      exact ⟨notVolatile, held⟩
  by_cases held : (frame.slots reg).isSome = true
  · rw [if_pos held]
    have lists := tracks.lists.restore numbered addressable
    by_cases isBp : reg = bp
    · subst isBp
      have following : frame.following = true := by
        cases framed : frame.framed with
        | false => exact tracks.stands.unframed framed
        | true => simpa [held] using expected rfl framed
      rw [popRegister_bp engine analysis (marked.mpr held).2]
      have denotes := follows (by rw [following]; rfl)
      rw [held, following, decide_eq_true rfl, Bool.and_self, Bool.not_true, Bool.and_false]
      exact .settle_bySp rfl lists denotes
    · rw [popRegister_saved engine analysis addressable (marked.mpr held) isBp, decide_eq_false isBp, Bool.false_and,
        Bool.not_false, Bool.and_true]
      exact .settle numbered tracks.stands lists (fitsInt_bmod _) (fun _ => kept isBp)
        (fun both => (follows both).same) known
  · rw [if_neg held, popRegister_unsaved engine analysis fun both => held (marked.mp both)]
    have unframed : (frame.framed && !(decide (reg = bp) && (frame.slots bp).isSome)) = frame.framed := by
      by_cases isBp : reg = bp
      · subst isBp
        simp [Bool.eq_false_iff.mpr held]
      · simp [decide_eq_false isBp]
    rw [unframed]
    refine .settle numbered tracks.stands tracks.lists (fitsInt_bmod _) ?_ (fun both => (follows both).same) known
    intro framed
    by_cases isBp : reg = bp
    · subst isBp
      simpa [held] using expected rfl framed
    · exact kept isBp

theorem Tracks.movSpBp (tracks : engine.Tracks cfa frame regs analysis)
    (expected : frame.framed = true → regs sp = regs bp) {after : Analysis}
    (value : after.row.cfaValue = .isRegisterPlusOffset engine.lldbFpRegnum analysis.row.cfaValue.getOffset)
    (locations : after.row.registerLocations = analysis.row.registerLocations)
    (saved : after.savedRegisters = analysis.savedRegisters)
    (current : after.currentSpBytesOffsetFromCfa = analysis.currentSpBytesOffsetFromCfa) :
    engine.Tracks cfa { frame with framed := true } (Function.update regs bp (regs sp)) after := by
  have lists := tracks.lists
  rw [← locations, ← saved] at lists
  refine ⟨?_, lists⟩
  rw [value, current]
  have place : regs (if frame.framed = true then bp else sp) = regs sp := by
    split
    · rename_i framed
      exact (expected framed).symm
    · rfl
  have denotes := tracks.stands.offset
  rw [place] at denotes
  apply Stands.byFp
  · rwa [Function.update_self]
  · exact tracks.stands.current
  · intro following
    exact tracks.stands.follows following

/-- The frame is left: the stack pointer stands behind the word that the frame pointer is popped from. -/
theorem Tracks.leaveFrame (numbered : engine.Numbered) (tracks : engine.Tracks cfa frame regs analysis)
    (expected : frame.framed = false → regs bp = regs sp)
    (place : regs' sp = regs bp + wordBytes engine.size) (fits : FitsInt (cfa - regs' sp).toInt) :
    engine.Tracks cfa ⟨false, true, Function.update frame.slots bp none⟩ regs' (engine.leaveFrame analysis) := by
  obtain ⟨low, high⟩ := engine.wordsize_bounds
  have base : regs (if frame.framed = true then bp else sp) = regs bp := by
    cases framed : frame.framed with
    | false => exact (expected framed).symm
    | true => rfl
  have before := tracks.stands.offset
  rw [base] at before
  obtain ⟨lower, upper⟩ := before.fits
  have denotes : Denotes engine.size ((analysis.row.cfaValue.getOffset - engine.wordsize).bmod (2 ^ 32))
      (cfa - regs' sp) := by
    apply Denotes.bmod (by omega) (by omega) _ fits
    rw [place, sub_eq_add_neg, BitVec.ofInt_add, BitVec.ofInt_neg, before.same, ofInt_wordsize, ← sub_eq_add_neg,
      sub_sub]
  exact ⟨.bySp denotes, tracks.lists.restore numbered (addressable_bp _)⟩

theorem Tracks.leaBpSp (numbered : engine.Numbered) (tracks : engine.Tracks cfa frame regs analysis)
    (amount : Displacement) (expected : frame.framed = false → regs bp + word amount = regs sp)
    (fits : (frame.following || frame.framed) = true → FitsInt (cfa - (regs bp + word amount)).toInt) :
    engine.Tracks cfa { frame with following := frame.following || frame.framed }
      (Function.update regs sp (regs bp + word amount))
      (if analysis.row.cfaValue.getRegisterNumber = engine.lldbFpRegnum then
        analysis.setSp (analysis.row.cfaValue.getOffset - amount.toInt)
      else analysis) := by
  obtain ⟨low, high⟩ := displacement_bounds amount
  have inFp := tracks.stands.framed_iff numbered
  cases framed : frame.framed with
  | false =>
    rw [if_neg fun byFp => Bool.false_ne_true (framed.symm.trans (inFp.mp byFp)), expected framed,
      Function.update_eq_self, Bool.or_false]
    exact framed ▸ tracks
  | true =>
    rw [if_pos (inFp.mpr framed)]
    rw [framed, Bool.or_true] at fits
    obtain ⟨offset, value, same⟩ := tracks.stands.value
    rw [framed] at same
    refine ⟨?_, tracks.lists⟩
    obtain ⟨lower, upper⟩ := same.fits
    have denotes : Denotes engine.size ((offset - amount.toInt).bmod (2 ^ 32))
        (cfa - (regs bp + word amount)) := by
      apply Denotes.bmod (by omega) (by omega) _ (fits rfl)
      rw [sub_eq_add_neg, BitVec.ofInt_add, BitVec.ofInt_neg, same.same, ← sub_eq_add_neg, sub_add_eq_sub_sub]
      rfl
    unfold Analysis.setSp
    rw [value, framed]
    apply Stands.byFp
    · rwa [Function.update_of_ne bp_ne_sp]
    · exact denotes.fits
    · intro _
      exact denotes.same

theorem Tracks.store (numbered : engine.Numbered) (tracks : engine.Tracks cfa frame regs analysis)
    {src base : Register} (addressable : Addressable engine.size src) (displacement : Displacement)
    (expected : frame.Unsaved src → regs base = regs frame.base)
    (slot : frame.Unsaved src → FitsInt (regs base + word displacement - cfa).toInt) :
    engine.Tracks cfa
      { frame with
        slots :=
          if frame.Unsaved src then Function.update frame.slots src (some (regs base + word displacement))
          else frame.slots }
      regs
      (match engine.toBeSaved analysis src.val with
      | some lldbRegno =>
        analysis.save src.val lldbRegno (-(-displacement.toInt + analysis.row.cfaValue.getOffset))
      | none => analysis) := by
  obtain ⟨low, high⟩ := displacement_bounds displacement
  rw [tracks.lists.toBeSaved addressable]
  by_cases unsaved : frame.Unsaved src
  · rw [if_pos unsaved, if_pos unsaved]
    have before := tracks.stands.offset
    obtain ⟨lower, upper⟩ := before.fits
    have denotes : Denotes engine.size ((-(-displacement.toInt + analysis.row.cfaValue.getOffset)).bmod (2 ^ 32))
        (regs base + word displacement - cfa) := by
      apply Denotes.bmod (by omega) (by omega) _ (slot unsaved)
      rw [BitVec.ofInt_neg, BitVec.ofInt_add, BitVec.ofInt_neg, before.same, expected unsaved, neg_add, neg_neg,
        neg_sub, ← add_sub_assoc, add_comm]
      rfl
    exact ⟨tracks.stands, tracks.lists.save numbered addressable unsaved.1 denotes⟩
  · rw [if_neg unsaved, if_neg unsaved]
    exact tracks

section Step

variable {before after : Machine engine.size} {instruction : Instruction}

variable (numbered : engine.Numbered) (tracks : engine.Tracks cfa frame before.regs analysis)
  (expected : frame.Expected before after instruction)
  (slot : ∀ reg place, frame.saved before instruction = some (reg, place) → FitsInt (place - cfa).toInt)
  (fits : (frame.next before instruction).following = true → FitsInt (cfa - after.regs sp).toInt) (rest : List Byte)

include numbered tracks expected slot fits

theorem Tracks.pushReg {reg : Register} (is : instruction = .pushReg reg) (addressable : Addressable engine.size reg)
    (step : before.Step instruction after) :
    engine.Tracks cfa (frame.next before instruction) after.regs
      (engine.readInstruction (instruction.encode engine.size ++ rest) analysis) := by
  subst is
  obtain rfl := step
  rw [next_pushReg, readInstruction_pushReg engine rest analysis reg addressable]
  unfold StackFrame.Expected at expected
  unfold saved at slot
  dsimp only at expected slot
  by_cases isBp : reg = bp
  · subst isBp
    exact tracks.turn.pushRbp numbered expected (slot _ _ rfl) fits
  · rw [if_neg isBp] at expected ⊢
    simp only [isBp, false_or] at slot ⊢
    apply tracks.turn.pushRegister numbered addressable expected _ fits
    intro unsaved
    rw [if_pos unsaved] at slot
    exact slot _ _ rfl

omit slot in
theorem Tracks.popReg {reg : Register} (is : instruction = .popReg reg) (addressable : Addressable engine.size reg)
    (step : before.Step instruction after) :
    engine.Tracks cfa (frame.next before instruction) after.regs
      (engine.readInstruction (instruction.encode engine.size ++ rest) analysis) := by
  subst is
  obtain ⟨value, -, popped⟩ := step
  have regs : after.regs =
      Function.update (Function.update before.regs sp (before.regs sp + wordBytes engine.size)) reg value := by
    rw [popped]
  rw [next_popReg] at fits ⊢
  rw [readInstruction_popReg engine rest analysis reg addressable]
  obtain ⟨onBp, onSp⟩ := expected
  apply tracks.turn.popRegister numbered addressable _ _ onBp onSp fits
  · intro other
    rw [regs, Function.update_of_ne (Ne.symm other), Function.update_of_ne bp_ne_sp]
  · intro other
    simp [regs, Function.update_of_ne (Ne.symm other)]

omit slot in
theorem Tracks.pushImm {value : Displacement} (is : instruction = .pushImm value)
    (step : before.Step instruction after) :
    engine.Tracks cfa (frame.next before instruction) after.regs
      (engine.readInstruction (instruction.encode engine.size ++ rest) analysis) := by
  subst is
  obtain rfl := step
  by_cases zero : value = .byte 0
  · subst zero
    have lost : frame.next before (.pushImm (.byte 0)) = { frame with following := false } := by
      unfold next nextFollowing
      dsimp only
      rw [decide_eq_false (not_not.mpr rfl), Bool.and_false]
      rfl
    rw [readInstruction_push0, lost]
    exact tracks.turn.unseen (expected rfl) _
  · have same : frame.next before (.pushImm value) = frame := by
      unfold next nextFollowing
      dsimp only
      rw [decide_eq_true zero, Bool.and_true]
      rfl
    rw [same] at fits
    rw [readInstruction_pushImm engine rest analysis value zero, same]
    exact tracks.turn.push numbered fits

omit slot in
theorem Tracks.pushRm {rex : Option (BitVec 4)} {mode : BitVec 2} {rm : BitVec 3} {operand : List Byte}
    (is : instruction = .pushRm rex mode rm operand) (wide : rex.isSome = true → engine.size = .eight)
    (step : before.Step instruction after) :
    engine.Tracks cfa (frame.next before instruction) after.regs
      (engine.readInstruction (instruction.encode engine.size ++ rest) analysis) := by
  subst is
  obtain ⟨value, rfl⟩ := step
  cases rex with
  | some bits =>
    have lost : frame.next before (.pushRm (some bits) mode rm operand) = { frame with following := false } := by
      unfold next nextFollowing
      dsimp only
      rw [Option.isNone_some, Bool.and_false]
      rfl
    rw [readInstruction_pushRm_rex engine rest analysis (wide rfl), lost]
    exact tracks.turn.unseen (expected rfl) _
  | none =>
    have same : frame.next before (.pushRm none mode rm operand) = frame := by
      unfold next nextFollowing
      dsimp only
      rw [Option.isNone_none, Bool.and_true]
      rfl
    rw [same] at fits
    rw [readInstruction_pushRm, same]
    exact tracks.turn.push numbered fits

variable {amount : Displacement}

omit expected slot in
theorem Tracks.subSp (is : instruction = .subSp amount) (step : before.Step instruction after) :
    engine.Tracks cfa (frame.next before instruction) after.regs
      (engine.readInstruction (instruction.encode engine.size ++ rest) analysis) := by
  subst is
  obtain rfl := step
  obtain ⟨low, high⟩ := displacement_bounds amount
  rw [readInstruction_subSp]
  apply tracks.turn.adjust numbered (by omega) (by omega) _ fits
  exact (sub_sub_eq_add_sub _ _ _).trans (add_sub_right_comm _ _ _)

omit expected slot in
theorem Tracks.raise
    (is : instruction = .addSp amount ∨ ∃ scale, instruction = .leaSp scale amount) (step : before.Step instruction after) :
    engine.Tracks cfa (frame.next before instruction) after.regs
      (engine.readInstruction (instruction.encode engine.size ++ rest) analysis) := by
  obtain ⟨low, high⟩ := displacement_bounds amount
  have moves : cfa - (before.regs sp + word amount) =
      cfa - before.regs sp + BitVec.ofInt engine.size.bits (-amount.toInt) := by
    rw [BitVec.ofInt_neg, sub_add_eq_sub_sub, sub_eq_add_neg]
    rfl
  rcases is with rfl | ⟨scale, rfl⟩
  · obtain rfl := step
    have raised := tracks.turn.adjust numbered (by omega) (by omega) moves fits
    rw [readInstruction_addSp]
    exact ⟨raised.stands, raised.lists⟩
  · obtain rfl := step
    have raised := tracks.turn.adjust numbered (by omega) (by omega) moves fits
    rw [readInstruction_leaSp]
    exact ⟨raised.stands, raised.lists⟩

omit slot in
theorem Tracks.leaBp (is : instruction = .leaBpSp amount) (step : before.Step instruction after) :
    engine.Tracks cfa (frame.next before instruction) after.regs
      (engine.readInstruction (instruction.encode engine.size ++ rest) analysis) := by
  subst is
  obtain rfl := step
  rw [readInstruction_leaBpSp]
  exact tracks.turn.leaBpSp numbered amount expected fits

omit slot in
theorem Tracks.leave (is : instruction = .leave) (step : before.Step instruction after) :
    engine.Tracks cfa (frame.next before instruction) after.regs
      (engine.readInstruction (instruction.encode engine.size ++ rest) analysis) := by
  subst is
  obtain ⟨value, -, popped⟩ := step
  have place : after.regs sp = before.regs bp + wordBytes engine.size := by
    rw [popped]
    dsimp only
    simp [Function.update_of_ne bp_ne_sp.symm]
  rw [readInstruction_leave]
  exact tracks.turn.leaveFrame numbered expected place (fits rfl)

omit fits in
theorem Tracks.storeReg {src base : Register} {displacement : Displacement}
    (is : instruction = .store src base displacement) (addressable : Addressable engine.size src)
    (step : before.Step instruction after) :
    engine.Tracks cfa (frame.next before instruction) after.regs
      (engine.readInstruction (instruction.encode engine.size ++ rest) analysis) := by
  subst is
  obtain rfl := step
  rw [readInstruction_store engine rest analysis src base addressable, next_store]
  unfold saved at slot
  by_cases local_ : low base = 5 ∧ displacement.toInt ≤ 0
  · obtain ⟨isLow, below⟩ := local_
    simp only [isLow, below, true_and] at slot ⊢
    apply tracks.turn.store numbered addressable displacement (expected isLow below)
    intro unsaved
    rw [if_pos unsaved] at slot
    exact slot _ _ rfl
  · rw [if_neg local_, if_neg fun all => local_ ⟨all.1, all.2.1⟩]
    exact tracks.turn

theorem Tracks.step (listed : Listed engine.size instruction) (step : before.Step instruction after) :
    engine.Tracks cfa (frame.next before instruction) after.regs
      (engine.readInstruction (instruction.encode engine.size ++ rest) analysis) := by
  cases instruction with
  | pushReg reg => exact tracks.pushReg numbered expected slot fits rest rfl listed step
  | popReg reg => exact tracks.popReg numbered expected fits rest rfl listed step
  | pushImm value => exact tracks.pushImm numbered expected fits rest rfl step
  | pushRm rex mode rm operand => exact tracks.pushRm numbered expected fits rest rfl listed step
  | movSpBp load =>
    obtain rfl := step
    rw [readInstruction_movSpBp]
    exact tracks.movSpBp expected rfl rfl rfl rfl
  | subSp amount => exact tracks.subSp numbered fits rest rfl step
  | addSp amount => exact tracks.raise numbered fits rest (.inl rfl) step
  | leaSp scale amount => exact tracks.raise numbered fits rest (.inr ⟨scale, rfl⟩) step
  | leaBpSp amount => exact tracks.leaBp numbered expected fits rest rfl step
  | leave => exact tracks.leave numbered expected fits rest rfl step
  | ret => exact step.elim
  | retImm amount => exact step.elim
  | store src base displacement => exact tracks.storeReg numbered expected slot rest rfl listed.1 step
  | callNext => exact listed.elim
  | other bytes => exact listed.elim

end Step

end Lldb.X86AssemblyInspectionEngine
