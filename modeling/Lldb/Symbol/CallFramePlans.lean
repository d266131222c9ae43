import Lldb.Symbol.CallFrameRows

/-! The plans of whole FDEs: what `FDEToUnwindPlan` makes of a section that holds encoded
instructions, and for which FDEs the plan is the one the instructions describe.
-/

set_option autoImplicit false

namespace Lldb

open Library DWARFCallFrameInfo UnwindPlan List Option

/-! The initial row of a CIE. -/

def encodeInitial (initial : List RowInstruction) : List UInt8 := initial.flatMap RowInstruction.encode

variable {initial : List RowInstruction} {offset : Nat} {info : DWARFCallFrameInfo}
    {instructions : List FrameInstruction}

theorem initialInstructions_at {data : DataExtractor} {endOffset fuel : Nat}
    (dataAlign : Int) (row : Row) (at_ : data.At offset (encodeInitial initial))
    (ends : endOffset = offset + (encodeInitial initial).length) (enough : initial.length < fuel) :
    initialInstructions data endOffset dataAlign fuel row offset = if ∀ instruction ∈ initial, instruction.Readable then
        some (initial.foldl (fun row instruction => instruction.apply dataAlign row) row, endOffset)
      else none := by
  induction initial generalizing offset fuel row with
  | nil =>
    obtain ⟨fuel, rfl⟩ : ∃ less, fuel = less + 1 := ⟨fuel - 1, by simp at enough; omega⟩
    subst ends
    exact if_neg (lt_irrefl _)
  | cons instruction rest ih =>
    obtain ⟨fuel, rfl⟩ : ∃ less, fuel = less + 1 := ⟨fuel - 1, by simp at enough; omega⟩
    simp only [encodeInitial, flatMap_cons, length_append] at at_ ends
    have here : data.At offset ([instruction.opcode] ++ instruction.operands) := at_.left
    have operands := here.right
    have size : instruction.encode.length = 1 + instruction.operands.length := by
      simp only [RowInstruction.encode, length_cons]
      omega
    rw [length_singleton] at operands
    refine (if_pos (by omega)).trans ?_
    change (data.getU8 offset).bind (fun read => Option.bind
      (handleCommonDwarfOpcode data (read.1 &&& 0xc0) (read.1 &&& 0x3f) dataAlign row read.2) fun handled => _) = _
    rw [DataExtractor.getU8_at here.left, bind_some, handleCommonDwarfOpcode_at dataAlign row operands]
    simp only [forall_mem_cons, foldl_cons]
    by_cases readable : instruction.Readable
    · rw [if_pos readable, add_assoc, ← size]
      have later : initialInstructions data endOffset dataAlign fuel (instruction.apply dataAlign row)
          (offset + instruction.encode.length) = _ :=
        ih (instruction.apply dataAlign row) at_.right (by simp only [encodeInitial]; omega)
          (by simp only [length_cons] at enough; omega)
      exact later.trans (by simp [readable])
    · rw [if_neg readable, if_neg (fun all => readable all.1)]
      rfl

theorem foldl_apply_rules {dataAlign : Int} {row : Row} {rules : CfaRules}
    (fits : ∀ instruction ∈ initial, instruction.Fits dataAlign)
    (made : initial.foldlM (fun rules instruction => instruction.step dataAlign rules) row.rules = some rules) :
    (initial.foldl (fun row instruction => instruction.apply dataAlign row) row).rules = rules := by
  induction initial generalizing row with
  | nil => exact Option.some.inj made
  | cons instruction rest ih =>
    obtain ⟨next, step, later⟩ := bind_eq_some_iff.mp made
    have same := (RowInstruction.apply_rules_iff step).mpr (fits instruction mem_cons_self)
    rw [← same] at later
    exact ih (fun other member => fits other (mem_cons_of_mem _ member)) later

theorem foldl_apply_offset (dataAlign : Int) (initial : List RowInstruction) (row : Row) :
    (initial.foldl (fun row instruction => instruction.apply dataAlign row) row).offset = row.offset := by
  induction initial generalizing row with
  | nil => rfl
  | cons instruction rest ih =>
    rw [foldl_cons, ih]
    cases instruction <;> rfl

/-! Sections that hold a CIE and an FDE. -/

structure DescribesCIE (info : DWARFCallFrameInfo) (cie : CIE) (initial : List RowInstruction) : Prop where
  parsed : parseCIE info cie.cieOffset = some (some cie)
  encoded : ∃ fields endOffset offset, parseCIEHeader info cie.cieOffset cie.cieOffset = some ((some fields, endOffset), offset) ∧
    info.cfiData.At offset (encodeInitial initial) ∧ endOffset = offset + (encodeInitial initial).length

structure DescribesFDE (info : DWARFCallFrameInfo) (dwarfOffset : Nat) (header : FDEHeader) (offset : Nat)
    (initial : List RowInstruction) (instructions : List FrameInstruction) : Prop where
  fde : parseFDEHeader info dwarfOffset dwarfOffset = some (header, offset)
  cie : DescribesCIE info header.cie initial
  encoded : info.cfiData.At offset (encodeAll info.cfiData.byteOrder instructions)
  ends : header.endOffset = offset + (encodeAll info.cfiData.byteOrder instructions).length

theorem length_le_encodeInitial (initial : List RowInstruction) : initial.length ≤ (encodeInitial initial).length := by
  induction initial with
  | nil => simp
  | cons instruction rest ih =>
    simp only [encodeInitial, RowInstruction.encode, flatMap_cons, length_append, length_cons] at ih ⊢
    omega

theorem length_le_encodeAll (order : ByteOrder) (instructions : List FrameInstruction) :
    instructions.length ≤ (encodeAll order instructions).length := by
  induction instructions with
  | nil => simp
  | cons instruction rest ih =>
    simp only [encodeAll, FrameInstruction.encode, flatMap_cons, length_append, length_cons] at ih ⊢
    omega

theorem DescribesCIE.initialRow {cie : CIE} {rules : CfaRules}
    (describes : DescribesCIE info cie initial) (fits : ∀ instruction ∈ initial, instruction.Fits cie.dataAlign)
    (made : initialRules cie.dataAlign initial = some rules) : cie.initialRow.rules = rules ∧ cie.initialRow.offset = 0 := by
  obtain ⟨fields, endOffset, offset, header, at_, ends⟩ := describes.encoded
  have parsed := describes.parsed
  have bound := at_.bound
  have enough := length_le_encodeInitial initial
  rw [parseCIE, header] at parsed
  change Option.bind (initialInstructions info.cfiData endOffset _ (info.cfiData.bytes.length + 1) .empty offset) _ = _ at parsed
  rw [initialInstructions_at _ Row.empty at_ ends (by omega)] at parsed
  split at parsed
  · have same := Option.some.inj (Option.some.inj parsed)
    have row := congrArg CIE.initialRow same
    have align := congrArg CIE.dataAlign same
    rw [align] at row
    rw [← row, foldl_apply_offset]
    exact ⟨foldl_apply_rules fits made, rfl⟩
  · exact absurd parsed (by simp)

/-! Plans. -/

/-- Every offset into the function that an int can hold has a row, with the machine's rules. -/
def PlanFollows (context : CfaContext) (size : Nat) (plan : Option UnwindPlan) (instructions : List FrameInstruction) : Prop :=
  ∃ made, plan = some made ∧ ∀ offset : Nat, offset < size → offset < 2 ^ 31 →
    (getRowForFunctionOffset made.rowList offset).map Row.rules =
      (CfaMachine.start context).rulesAt context offset instructions

def DWARFCallFrameInfo.FDEHeader.cut (header : FDEHeader) (offset length : Nat) : FDEHeader := { header with endOffset := offset + length }

theorem getRowForFunctionOffset_natCast (rowList : List Row) (small : offset < 2 ^ 31) :
    getRowForFunctionOffset rowList offset = bestRow offset none rowList := by
  have keeps : ((offset : Int) % 2 ^ 64).toNat = offset := by omega
  rw [getRowForFunctionOffset, if_neg (by omega), keeps]

theorem planRows_at {header : FDEHeader}
    (startFileAddress : Nat) (at_ : info.cfiData.At offset (encodeAll info.cfiData.byteOrder instructions))
    (ends : header.endOffset = offset + (encodeAll info.cfiData.byteOrder instructions).length) :
    planRows info header.cie offset header.endOffset startFileAddress =
      if ∀ instruction ∈ instructions, instruction.Readable then
        let state := applyAll header.cie.codeAlign header.cie.dataAlign ⟨[], header.cie.initialRow, []⟩ instructions
        some (appendRow state.rowList state.row)
      else none := by
  have bound := at_.bound
  have enough := length_le_encodeAll info.cfiData.byteOrder instructions
  have short : instructions.length < info.cfiData.bytes.length + 1 := by omega
  change Option.bind (fdeInstructions info.cfiData header.cie header.endOffset startFileAddress
    (info.cfiData.bytes.length + 1) ⟨[], header.cie.initialRow, []⟩ offset) _ = _
  rw [fdeInstructions_at startFileAddress ⟨[], header.cie.initialRow, []⟩ at_ ends short]
  split <;> rfl

theorem planFollows_iff {header : FDEHeader}
    {context : CfaContext} (startFileAddress : Nat) (sameCode : context.codeAlign = header.cie.codeAlign)
    (sameData : context.dataAlign = header.cie.dataAlign)
    (at_ : info.cfiData.At offset (encodeAll info.cfiData.byteOrder instructions))
    (ends : header.endOffset = offset + (encodeAll info.cfiData.byteOrder instructions).length) :
    PlanFollows context header.rangeLen (makePlan info header offset startFileAddress) instructions ↔
      (∀ instruction ∈ instructions, instruction.Readable) ∧
        RowsAgree context (min header.rangeLen (2 ^ 31)) ⟨[], header.cie.initialRow, []⟩ (.start context) instructions := by
  have rows := planRows_at startFileAddress at_ ends
  rw [← sameCode, ← sameData] at rows
  by_cases readable : ∀ instruction ∈ instructions, instruction.Readable
  · rw [if_pos readable] at rows
    rw [and_iff_right readable]
    constructor
    · rintro ⟨made, plan, follows⟩ next - inside
      rw [makePlan, rows] at plan
      have found := follows next (by omega) (by omega)
      rw [← Option.some.inj plan, getRowForFunctionOffset_natCast _ (by omega)] at found
      exact found
    · intro agrees
      refine ⟨_, by rw [makePlan, rows]; rfl, ?_⟩
      intro next inside small
      rw [getRowForFunctionOffset_natCast _ small]
      exact agrees next (Nat.zero_le _) (by omega)
  · rw [if_neg readable] at rows
    refine iff_of_false ?_ fun both => readable both.1
    rintro ⟨made, plan, -⟩
    rw [makePlan, rows] at plan
    exact absurd plan (by simp)

/-- The plan of an FDE, and of each FDE that is cut short behind one of its instructions, follows
the machine exactly when all operands can be read, the offsets fit, and each register that is
restored has its initial rule in the first row, or no rule there and its initial rule already. -/
theorem rows_follow_cfa_machine_iff {info : DWARFCallFrameInfo} {dwarfOffset : Nat} {header : FDEHeader} {offset : Nat}
    {initial : List RowInstruction} {instructions : List FrameInstruction} {context : CfaContext} {last : CfaMachine}
    (startFileAddress : Nat) (describes : DescribesFDE info dwarfOffset header offset initial instructions)
    (fits : ∀ instruction ∈ initial, instruction.Fits header.cie.dataAlign)
    (codeAlign : context.codeAlign = header.cie.codeAlign) (dataAlign : context.dataAlign = header.cie.dataAlign)
    (rules : initialRules header.cie.dataAlign initial = some context.initial)
    (run : (CfaMachine.start context).run context instructions = some last) (narrow : last.location < 2 ^ 32) :
    (PlanFollows context header.rangeLen (fdeToUnwindPlan info dwarfOffset startFileAddress) instructions ∧
      ∀ count < instructions.length,
        let first := instructions.take count
        let header := header.cut offset (encodeAll info.cfiData.byteOrder first).length
        PlanFollows context header.rangeLen (makePlan info header offset startFileAddress) first) ↔
      (∀ instruction ∈ instructions, instruction.Readable) ∧
        FaithfulRun context (min header.rangeLen (2 ^ 31)) none (.start context) instructions := by
  obtain ⟨initialRow, zero⟩ := describes.cie.initialRow fits rules
  have located : PlanLocated ⟨[], header.cie.initialRow, []⟩ (.start context) := ⟨zero, by simp⟩
  have simulates : PlanSimulates ⟨[], header.cie.initialRow, []⟩ (.start context) none := ⟨initialRow, rfl, zero, rfl⟩
  have plan : fdeToUnwindPlan info dwarfOffset startFileAddress = makePlan info header offset startFileAddress := by
    simp [fdeToUnwindPlan, describes.fde]
  have cut (count : Nat) : info.cfiData.At offset (encodeAll info.cfiData.byteOrder (instructions.take count)) := by
    have whole := describes.encoded
    rw [← take_append_drop count instructions, encodeAll, flatMap_append] at whole
    exact whole.left
  have cutFollows (count : Nat) :
      let header := header.cut offset (encodeAll info.cfiData.byteOrder (instructions.take count)).length
      PlanFollows context header.rangeLen (makePlan info header offset startFileAddress) (instructions.take count) ↔ _ :=
    planFollows_iff startFileAddress codeAlign dataAlign (cut count) rfl
  rw [plan, planFollows_iff startFileAddress codeAlign dataAlign describes.encoded describes.ends,
    ← agrees_iff located simulates run narrow]
  constructor
  · rintro ⟨⟨readable, whole⟩, prefixes⟩
    refine ⟨readable, ?_⟩
    intro count within
    rcases lt_or_eq_of_le within with less | rfl
    · exact ((cutFollows count).mp (prefixes count less)).2
    · rwa [take_length]
  · rintro ⟨readable, agrees⟩
    refine ⟨⟨readable, by simpa using agrees instructions.length le_rfl⟩, ?_⟩
    intro count less
    refine (cutFollows count).mpr ⟨?_, agrees count less.le⟩
    exact fun instruction member => readable instruction (mem_of_mem_take member)

/-! A function that saves register 6 and restores it. -/

def oneByte (value : Fin 128) : Leb128 := ⟨[], value⟩

/-- A section with a CIE that gives the CFA and register 16, and an FDE for 16 bytes. -/
def sampleSection (instructions : List FrameInstruction) : DWARFCallFrameInfo where
  cfiData := ⟨[0x0e, 0, 0, 0, 0, 0, 0, 0, 0x01, 0x00, 0x01, 0x78, 0x10, 0x0c, 0x07, 0x08, 0x90, 0x01] ++
    [UInt8.ofNat (20 + (encodeAll .little instructions).length), 0, 0, 0, 0x16, 0, 0, 0] ++
    [0, 0x10, 0, 0, 0, 0, 0, 0, 0x10, 0, 0, 0, 0, 0, 0, 0] ++ encodeAll .little instructions, .little, 8⟩
  type := .eh
  sectionFileAddress := 0
  cieMap := [0]

def sampleInitial : List RowInstruction := [.defCfa ⟨oneByte 7, by decide⟩ (oneByte 8), .offset 16 (oneByte 1)]

def saving : List FrameInstruction := [.advanceLoc 1, .row (.defCfaOffset (oneByte 16)), .row (.offset 6 (oneByte 2))]

def savingAndRestoring : List FrameInstruction :=
  saving ++ [.advanceLoc 3, .restore 6, .row (.defCfaOffset (oneByte 8))]

theorem saving_parsed : (parseFDEHeader (sampleSection saving) 18 18).isSome := by decide

def savingHeader : FDEHeader := ((parseFDEHeader (sampleSection saving) 18 18).get saving_parsed).1

theorem describes_saving : DescribesFDE (sampleSection saving) 18 savingHeader 42 sampleInitial saving where
  fde := by
    have next : ((parseFDEHeader (sampleSection saving) 18 18).get saving_parsed).2 = 42 := by decide
    exact (some_get saving_parsed).symm.trans (congrArg some (Prod.ext rfl next))
  cie := ⟨rfl, _, _, _, rfl, ⟨_, rfl⟩, rfl⟩
  encoded := ⟨[], rfl⟩
  ends := by decide

def sampleContext : CfaContext where
  codeAlign := 1
  dataAlign := -8
  initial := (CfaRules.empty.setCFA (.isRegisterPlusOffset 7 8)).setRegister 16 (.atCFAPlusOffset (-8))

theorem FaithfulRun.cons {context : CfaContext} {limit : Nat} {first : Option CfaRules} {machine next : CfaMachine}
    {instruction : FrameInstruction} {rest : List FrameInstruction} (step : machine.step context instruction = some next)
    (exact_ : instruction.Exact context first machine.rules)
    (onward : FaithfulRun context limit (firstRow first machine instruction) next rest) :
    FaithfulRun context limit first machine (instruction :: rest) := by
  refine ⟨fun _ => exact_, ?_⟩
  intro other same
  rw [step, Option.some.injEq] at same
  rwa [← same]

/-- Saving a register, without restoring it, is followed. -/
theorem rows_follow_cfa_machine_iff_saving :
    PlanFollows sampleContext savingHeader.rangeLen (fdeToUnwindPlan (sampleSection saving) 18 0x1000) saving := by
  have align : savingHeader.cie.dataAlign = -8 := by decide
  have fits : ∀ instruction ∈ sampleInitial, instruction.Fits (-8) := by decide
  have grows : RowInstruction.Fits (-8) (.defCfaOffset (oneByte 16)) := by decide
  have saves : RowInstruction.Fits (-8) (.offset 6 (oneByte 2)) := by decide
  have faithful : FaithfulRun sampleContext (min savingHeader.rangeLen (2 ^ 31)) none (.start sampleContext) saving :=
    .cons rfl trivial (.cons rfl grows (.cons rfl saves trivial))
  exact ((rows_follow_cfa_machine_iff 0x1000 describes_saving (by rwa [align]) (by decide) (by rw [align]; rfl)
    (by rw [align]; rfl) rfl (by decide)).mpr ⟨by decide, faithful⟩).1

/-! The same function restores the register. -/

theorem restoring_parsed : (parseFDEHeader (sampleSection savingAndRestoring) 18 18).isSome := by decide

def restoringHeader : FDEHeader := ((parseFDEHeader (sampleSection savingAndRestoring) 18 18).get restoring_parsed).1

theorem describes_restoring :
    DescribesFDE (sampleSection savingAndRestoring) 18 restoringHeader 42 sampleInitial savingAndRestoring where
  fde := by
    have next : ((parseFDEHeader (sampleSection savingAndRestoring) 18 18).get restoring_parsed).2 = 42 := by decide
    exact (some_get restoring_parsed).symm.trans (congrArg some (Prod.ext rfl next))
  cie := ⟨rfl, _, _, _, rfl, ⟨_, rfl⟩, rfl⟩
  encoded := ⟨[], rfl⟩
  ends := by decide

/-- After `DW_CFA_restore` the plan still finds the register where it was saved; the CIE has no rule for it. -/
theorem rows_not_always_follow_cfa_machine :
    DescribesFDE (sampleSection savingAndRestoring) 18 restoringHeader 42 sampleInitial savingAndRestoring ∧
      initialRules restoringHeader.cie.dataAlign sampleInitial = some sampleContext.initial ∧ 4 < restoringHeader.rangeLen ∧
      (((CfaMachine.start sampleContext).rulesAt sampleContext 4 savingAndRestoring).map fun rules => rules.registers 6) =
        some none ∧
      ((fdeToUnwindPlan (sampleSection savingAndRestoring) 18 0x1000).bind fun plan =>
        (getRowForFunctionOffset plan.rowList 4).map fun row => row.registerLocations 6) =
        some (some (.atCFAPlusOffset (-16))) ∧
      ¬ PlanFollows sampleContext restoringHeader.rangeLen (fdeToUnwindPlan (sampleSection savingAndRestoring) 18 0x1000)
        savingAndRestoring := by
  have align : restoringHeader.cie.dataAlign = -8 := by decide
  have restored : (((CfaMachine.start sampleContext).rulesAt sampleContext 4 savingAndRestoring).map
      fun rules => rules.registers 6) = some none := by decide
  have kept : ((fdeToUnwindPlan (sampleSection savingAndRestoring) 18 0x1000).bind fun plan =>
      (getRowForFunctionOffset plan.rowList 4).map fun row => row.registerLocations 6) =
      some (some (.atCFAPlusOffset (-16))) := by decide
  refine ⟨describes_restoring, by rw [align]; rfl, by decide, restored, kept, ?_⟩
  rintro ⟨made, plan, follows⟩
  have same := congrArg (fun rules => rules.map fun rules => rules.registers 6) (follows 4 (by decide) (by decide))
  rw [plan] at kept
  simp only [Option.map_map] at same
  exact absurd (kept.symm.trans same) (by decide)

end Lldb
