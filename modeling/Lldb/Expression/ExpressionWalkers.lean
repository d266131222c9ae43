import Lldb.Expression.OperandSizes
import Lldb.Utility.DataEncoder

/-! The functions that step from opcode to opcode without an evaluation, and where they come to. -/

set_option autoImplicit false

namespace Lldb.Evaluate

open DataExtractor List

/-- A round of a walk: on to what is behind an opcode, or back to the caller. -/
inductive WalkStep (σ ρ : Type) where
  | goesOn (after : σ)
  | returns (result : ρ)

section

variable {σ ρ : Type} (step : σ → WalkStep σ ρ)

/-- `none` if `fuel` rounds do not suffice. -/
def walk : Nat → σ → Option ρ
  | 0, _ => none
  | fuel + 1, state =>
    match step state with
    | .goesOn after => walk fuel after
    | .returns result => some result

def walked : Nat → σ → Option σ
  | 0, state => some state
  | count + 1, state =>
    match step state with
    | .goesOn after => walked count after
    | .returns _ => none

variable {step}

theorem walk_of_walked {count : Nat} {state after : σ} (there : walked step count state = some after) (fuel : Nat) :
    walk step (count + fuel) state = walk step fuel after := by
  induction count generalizing state with
  | zero =>
    cases there
    rw [zero_add]
  | succ count ih =>
    rw [walked] at there
    rw [Nat.succ_add, walk]
    split at there
    · exact ih there
    · cases there

theorem exists_walk {measure : σ → Nat}
    (falls : ∀ state after, step state = .goesOn after → measure after < measure state)
    {fuel : Nat} {state : σ} (enough : measure state < fuel) : ∃ result, walk step fuel state = some result := by
  induction fuel generalizing state with
  | zero => exact absurd enough (Nat.not_lt_zero _)
  | succ fuel ih =>
    rw [walk]
    split
    · rename_i after is
      exact ih (Nat.lt_of_lt_of_le (falls state after is) (Nat.le_of_lt_succ enough))
    · exact ⟨_, rfl⟩

end

section

variable (data : DataExtractor)

def opcodeOf (offset : Nat) : Nat × Nat := (data.getU8 offset).getD (0, offset)

def scan {ρ : Type} (found : Nat → Nat → Option ρ) (failed : ρ) (offset : Nat) : WalkStep Nat ρ :=
  if data.validOffset offset then
    let (op, offset) := opcodeOf data offset
    match found op offset with
    | some result => .returns result
    | none =>
      match getOpcodeDataSize data offset op with
      | none => .returns failed
      | some size => .goesOn (offset + size)
  else .returns failed

def containsThreadLocalStorageStep : Nat → WalkStep Nat Bool :=
  scan data (fun op _ => if op = 0x9b ∨ op = 0xe0 then some true else none) false

def containsThreadLocalStorage (isLocationList : Bool) : Option Bool :=
  if isLocationList then some false else walk (containsThreadLocalStorageStep data) (data.bytes.length + 1) 0

end

section

variable (host : ByteOrder) (encoder : DataEncoder) (fileAddr : UInt64)

/-- The address is put into a copy of the data; `none` for a size of addresses that cannot be put. -/
def putAddress (offset : Nat) : Option (Option DataExtractor) :=
  (encoder.putMaxU64 host offset encoder.addrSize fileAddr).map fun (next, after) =>
    if next = DataEncoder.uint32Max then none else some after.extractor

def updateDwOpAddrStep : Nat → WalkStep Nat (Option (Option DataExtractor)) :=
  scan encoder.extractor (fun op offset => if op = 0x03 then some (putAddress host encoder fileAddr offset) else none)
    (some none)

def updateDwOpAddr (isLocationList : Bool) : Option (Option (Option DataExtractor)) :=
  if isLocationList then some (some none)
  else walk (updateDwOpAddrStep host encoder fileAddr) (encoder.bytes.length + 1) 0

end

section

variable (data : DataExtractor) (dwarfUnit : Option LocationUnit) (overlong : Nat → Nat) (opAddrIdx : Nat)

/-- The offset, with how many addresses have been met. Returns an address and whether there was an error. -/
def getLocationDwOpAddrStep (state : Nat × Nat) : WalkStep (Nat × Nat) (Nat × Bool) :=
  let (offset, currOpAddrIdx) := state
  if data.validOffset offset then
    let (op, offset) := opcodeOf data offset
    if op = 0x03 then
      let (opFileAddr, offset) := (data.getAddress offset).getD (0, offset)
      if currOpAddrIdx = opAddrIdx then .returns (opFileAddr, false) else .goesOn (offset, currOpAddrIdx + 1)
    else if op = 0xfb then
      let (index, offset) :=
        (data.getULEB128 offset).getD (overlong offset, offset + lebLength (data.bytes.drop offset))
      if currOpAddrIdx = opAddrIdx then
        match dwarfUnit with
        | none => .returns (invalidAddress, true)
        | some unit => .returns (((unit.readAddressFromDebugAddrSection index 0).map Prod.fst).getD 0, false)
      else .goesOn (offset, currOpAddrIdx + 1)
    else
      match getOpcodeDataSize data offset op with
      | none => .returns (invalidAddress, true)
      | some size => .goesOn (offset + size, currOpAddrIdx)
  else .returns (invalidAddress, false)

def getLocationDwOpAddr (isLocationList : Bool) : Option (Nat × Bool) :=
  if isLocationList then some (invalidAddress, false)
  else walk (getLocationDwOpAddrStep data dwarfUnit overlong opAddrIdx) (data.bytes.length + 1) (0, 0)

end

/-! The walks end. -/

variable {data : DataExtractor}

theorem opcodeOf_eq {offset : Nat} (valid : data.validOffset offset = true) :
    ∃ op, opcodeOf data offset = (op, offset + 1) := by
  have inside : offset < data.bytes.length := of_decide_eq_true valid
  refine ⟨data.bytes[offset].toNat, ?_⟩
  rw [opcodeOf, getU8_inside (getElem?_eq_getElem inside)]
  rfl

theorem scan_falls {ρ : Type} {found : Nat → Nat → Option ρ} {failed : ρ} (offset after : Nat)
    (is : scan data found failed offset = .goesOn after) :
    data.bytes.length - after < data.bytes.length - offset := by
  unfold scan at is
  split at is
  · rename_i valid
    have inside : offset < data.bytes.length := of_decide_eq_true valid
    obtain ⟨op, read⟩ := opcodeOf_eq valid
    rw [read] at is
    dsimp only at is
    split at is
    · cases is
    · split at is
      · cases is
      · cases is
        omega
  · cases is

theorem exists_scan {ρ : Type} (found : Nat → Nat → Option ρ) (failed : ρ) :
    ∃ result, walk (scan data found failed) (data.bytes.length + 1) 0 = some result :=
  exists_walk scan_falls (Nat.lt_succ_self _)

theorem getLocationDwOpAddrStep_falls {dwarfUnit : Option LocationUnit} {overlong : Nat → Nat} {opAddrIdx : Nat}
    (state after : Nat × Nat) (is : getLocationDwOpAddrStep data dwarfUnit overlong opAddrIdx state = .goesOn after) :
    data.bytes.length - after.1 < data.bytes.length - state.1 := by
  obtain ⟨offset, currOpAddrIdx⟩ := state
  unfold getLocationDwOpAddrStep at is
  dsimp only at is
  split at is
  · rename_i valid
    have inside : offset < data.bytes.length := of_decide_eq_true valid
    obtain ⟨op, read⟩ := opcodeOf_eq valid
    rw [read] at is
    have ahead : offset < after.1 := by
      split_ifs at is
      · cases is
        obtain ⟨value, next, address⟩ := exists_getMaxU64 data data.addrSize (offset + 1)
        have moves := forward_getMaxU64 _ _ _ _ address
        rw [getAddress, address]
        exact moves
      · split at is <;> cases is
      · cases is
        cases index : data.getULEB128 (offset + 1) with
        | none => exact Nat.lt_of_lt_of_le (Nat.lt_succ_self _) (Nat.le_add_right _ _)
        | some found => exact forward_getULEB128 _ _ _ index
      · split at is
        · cases is
        · cases is
          exact Nat.lt_of_lt_of_le (Nat.lt_succ_self _) (Nat.le_add_right _ _)
    omega
  · cases is

theorem exists_containsThreadLocalStorage (isLocationList : Bool) :
    ∃ result, containsThreadLocalStorage data isLocationList = some result := by
  unfold containsThreadLocalStorage
  split
  · exact ⟨_, rfl⟩
  · exact exists_scan _ _

theorem exists_updateDwOpAddr (host : ByteOrder) (encoder : DataEncoder) (fileAddr : UInt64) (isLocationList : Bool) :
    ∃ result, updateDwOpAddr host encoder fileAddr isLocationList = some result := by
  unfold updateDwOpAddr
  split
  · exact ⟨_, rfl⟩
  · exact exists_scan _ _

theorem exists_getLocationDwOpAddr (dwarfUnit : Option LocationUnit) (overlong : Nat → Nat) (opAddrIdx : Nat)
    (isLocationList : Bool) :
    ∃ result, getLocationDwOpAddr data dwarfUnit overlong opAddrIdx isLocationList = some result := by
  unfold getLocationDwOpAddr
  split
  · exact ⟨_, rfl⟩
  · exact exists_walk getLocationDwOpAddrStep_falls (Nat.lt_succ_self _)

/-! The walks beside an evaluation. -/

/-- Rounds of the evaluation that take no branch, by their opcodes, all of which the two switches agree on. -/
inductive Environment.Straight (env : Environment) : List Nat → EvaluateState → EvaluateState → Prop where
  | done (state : EvaluateState) : env.Straight [] state state
  | round {ops : List Nat} {state after final : EvaluateState} (goesOn : env.goesOn state = true)
      (branches : ¬ env.Branches (env.opcodeAt state) (Environment.atOperands state))
      (agreeable : Agreeable env.opcodes (state.offset + 1) (env.opcodeAt state))
      (is : env.evaluateNext state = .ok ((), after)) (rest : env.Straight ops after final) :
      env.Straight (env.opcodeAt state :: ops) state final

/-- As long as they do not find what they look for, the walks come to the opcodes that are evaluated. -/
structure Environment.WalkersFollow (env : Environment) : Prop where
  contains : ∀ ops final, env.Straight ops env.start final → (∀ op ∈ ops, op ≠ 0x9b ∧ op ≠ 0xe0) →
    walked (containsThreadLocalStorageStep env.opcodes) ops.length env.opcodesOffset = some final.offset
  updates : ∀ ops final, env.Straight ops env.start final → 0x03 ∉ ops →
    ∀ (host : ByteOrder) (encoder : DataEncoder) (fileAddr : UInt64), encoder.extractor = env.opcodes →
      walked (updateDwOpAddrStep host encoder fileAddr) ops.length env.opcodesOffset = some final.offset
  locates : ∀ ops final, env.Straight ops env.start final →
    ∀ opAddrIdx, ops.countP (fun op => op = 0x03 ∨ op = 0xfb) ≤ opAddrIdx →
      walked (getLocationDwOpAddrStep env.opcodes env.dwarfUnit env.overlong opAddrIdx) ops.length
        (env.opcodesOffset, 0) = some (final.offset, ops.countP fun op => op = 0x03 ∨ op = 0xfb)

namespace Environment

variable {env : Environment} {state after final : EvaluateState} {ops : List Nat}

theorem opcodeOf_state (goesOn : env.goesOn state = true) :
    opcodeOf env.opcodes state.offset = (env.opcodeAt state, state.offset + 1) := by
  have inside : state.offset < env.opcodes.bytes.length := of_decide_eq_true (Bool.and_eq_true_iff.mp goesOn).1
  obtain ⟨op, read⟩ := opcodeOf_eq (decide_eq_true inside)
  have same : op = env.opcodeAt state := (congrArg Prod.fst read).symm
  rw [read, same]

theorem exists_size (goesOn : env.goesOn state = true)
    (branches : ¬ env.Branches (env.opcodeAt state) (atOperands state))
    (agreeable : Agreeable env.opcodes (state.offset + 1) (env.opcodeAt state))
    (is : env.evaluateNext state = .ok ((), after)) :
    ∃ size, getOpcodeDataSize env.opcodes (state.offset + 1) (env.opcodeAt state) = some size ∧
      after.offset = state.offset + 1 + size := by
  rw [evaluateNext_eq goesOn] at is
  exact (SizesAgree.of_agreeable agreeable).evaluated env (atOperands state) after rfl rfl branches is

theorem Straight.scan {ρ : Type} {found : Nat → Nat → Option ρ} {failed : ρ} (straight : env.Straight ops state final)
    (passes : ∀ op ∈ ops, ∀ offset, found op offset = none) :
    walked (scan env.opcodes found failed) ops.length state.offset = some final.offset := by
  induction straight with
  | done => rfl
  | round goesOn branches agreeable is rest ih =>
    obtain ⟨size, sized, moved⟩ := exists_size goesOn branches agreeable is
    rw [forall_mem_cons] at passes
    have valid := (Bool.and_eq_true_iff.mp goesOn).1
    have on := ih passes.2
    rw [moved] at on
    rw [length_cons, walked, Evaluate.scan, if_pos valid, opcodeOf_state goesOn]
    dsimp only
    rw [passes.1, sized]
    exact on

theorem operandsEnd_of_round (goesOn : env.goesOn state = true)
    (branches : ¬ env.Branches (env.opcodeAt state) (atOperands state))
    (is : env.evaluateNext state = .ok ((), after)) :
    after.offset = env.operandsEnd (evaluateOperands (env.opcodeAt state)) (state.offset + 1) := by
  rw [evaluateNext_eq goesOn] at is
  exact (offset_of_evaluateOpcode is).2 branches

theorem Straight.locates (straight : env.Straight ops state final) {opAddrIdx currOpAddrIdx : Nat}
    (before : currOpAddrIdx + ops.countP (fun op => op = 0x03 ∨ op = 0xfb) ≤ opAddrIdx) :
    walked (getLocationDwOpAddrStep env.opcodes env.dwarfUnit env.overlong opAddrIdx) ops.length
      (state.offset, currOpAddrIdx) =
        some (final.offset, currOpAddrIdx + ops.countP fun op => op = 0x03 ∨ op = 0xfb) := by
  induction straight generalizing currOpAddrIdx with
  | done => rfl
  | @round ops state after final goesOn branches agreeable is rest ih =>
    have valid := (Bool.and_eq_true_iff.mp goesOn).1
    rw [countP_cons] at before ⊢
    rw [length_cons, walked, getLocationDwOpAddrStep, if_pos valid, opcodeOf_state goesOn]
    by_cases address : env.opcodeAt state = 0x03
    · have moved := operandsEnd_of_round goesOn branches is
      simp only [address, true_or, decide_true, if_true] at before moved ⊢
      change after.offset = env.fixedEnd env.opcodes.addrSize (state.offset + 1) at moved
      rw [getAddress, getMaxU64_eq, Option.getD_some]
      rw [if_neg (by omega)]
      dsimp only
      rw [← moved, ih (by omega)]
      congr 2
      omega
    by_cases index : env.opcodeAt state = 0xfb
    · have moved := operandsEnd_of_round goesOn branches is
      simp only [index, or_true, decide_true, if_true] at before moved ⊢
      change after.offset = env.skipped (state.offset + 1) at moved
      have read := env.getULEB128_eq (state.offset + 1)
      unfold skipped at read
      rw [if_neg (by decide), read]
      rw [if_neg (by omega)]
      dsimp only
      rw [skipped] at moved
      rw [← moved, ih (by omega)]
      congr 2
      omega
    · obtain ⟨size, sized, moved⟩ := exists_size goesOn branches agreeable is
      simp only [address, index, or_self, decide_false, Bool.false_eq_true, if_false, add_zero] at before ⊢
      rw [sized]
      dsimp only
      rw [← moved, ih before]

theorem walkersFollow (env : Environment) : env.WalkersFollow where
  contains ops final straight passes :=
    straight.scan fun op member _ => if_neg fun found => found.elim (passes op member).1 (passes op member).2
  updates ops final straight passes host encoder fileAddr same := by
    rw [updateDwOpAddrStep, same]
    exact straight.scan fun op member _ => if_neg fun (found : op = 0x03) => passes (found ▸ member)
  locates ops final straight opAddrIdx before := by
    have follows := @Straight.locates env _ final ops straight opAddrIdx 0 (by omega)
    rw [zero_add] at follows
    exact follows

end Environment

/-- The sizes of the two switches, and those of DWARF, agree just on the opcodes that the evaluation has a case for,
with operands of a fixed size that are there as a whole; and where they agree the walks come to what is evaluated. -/
theorem sizesAgree_iff (env : Environment) (offset op : Nat) :
    (SizesAgree env.opcodes offset op ↔ Agreeable env.opcodes offset op) ∧ env.WalkersFollow :=
  ⟨⟨SizesAgree.agreeable, SizesAgree.of_agreeable⟩, env.walkersFollow⟩

/-- A block of two bytes is counted as none, and a constant that is cut off is stepped over. -/
theorem not_sizesAgree :
    ¬ SizesAgree ⟨[0x9e, 2, 0x11, 0x22], .little, 8⟩ 1 0x9e ∧ ¬ SizesAgree ⟨[0x0c, 0x30], .little, 8⟩ 1 0x0c := by
  constructor
  · intro agree
    have size := agree.assigned .block [2, 0x11, 0x22] rfl ⟨⟨[], 2⟩, [0x11, 0x22], rfl, rfl⟩ ⟨[], rfl⟩
    cases size
  · intro agree
    obtain ⟨size, found, moved⟩ := agree.evaluated (Environment.reading ⟨[0x0c, 0x30], .little, 8⟩)
      ⟨1, [], .empty, 0, .empty, none⟩ _ rfl rfl (by simp [Environment.Branches]) rfl
    cases found
    cases moved

end Lldb.Evaluate
