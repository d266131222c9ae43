import Lldb.Expression.EvaluateRuns
import Mathlib.Algebra.Order.BigOperators.Group.List

/-! Composite locations: pieces of values, each at a location of its own, which `DW_OP_piece` appends to a buffer. -/

set_option autoImplicit false

namespace Lldb.Evaluate

open Library List
open Library.Stoppable (Leads)
open Stoppable ByteOrder DataExtractor DataExtractor.At APInt Option

inductive PieceSource where
  | loadAddress (address : Nat)
  | scalar (scalar : ValueScalar)
  | unavailable

/-- The opcodes of the location, and the size of the piece as it is encoded. -/
structure Piece where
  location : List UInt8
  source : PieceSource
  number : Leb128

namespace Piece

variable (piece : Piece)

def size : Nat := piece.number.unsigned % 2 ^ 64

def bytes : List UInt8 := piece.location ++ 0x93 :: piece.number.bytes

def Located : Prop := piece.source ≠ .unavailable

instance : Decidable piece.Located := by
  unfold Located
  cases piece.source with
  | unavailable => exact isFalse fun located => located rfl
  | loadAddress address => exact isTrue PieceSource.noConfusion
  | scalar scalar => exact isTrue PieceSource.noConfusion

end Piece

namespace Environment

variable (env : Environment)

def Shows (value : Value) : PieceSource → Prop
  | .loadAddress address => value.valueType = .loadAddress ∧ env.uLongLong value.scalar invalidAddress = address
  | .scalar scalar => value.valueType = .scalar ∧ value.scalar = scalar
  | .unavailable => False

/-- The opcodes put one value onto the empty stack, and leave the pieces as they are. -/
def Pushes (location : List UInt8) (source : PieceSource) : Prop :=
  ∀ state : EvaluateState, env.opcodes.At state.offset location → state.offset + location.length ≤ env.endOffset →
    state.stack = [] →
    ∃ after value, env.rounds.Reaches state after ∧ after.offset = state.offset + location.length ∧
      after.stack = [value] ∧ env.Shows value source ∧ after.pieces = state.pieces ∧
      after.opPieceOffset = state.opPieceOffset

/-- A piece at a load address that can be read, of a scalar that is at least as wide, or of nothing. -/
structure Simple (piece : Piece) : Prop where
  leaves : piece.source = .unavailable ∧ piece.location = [] ∨ env.Pushes piece.location piece.source
  readable : piece.number.size ≤ 10
  positive : 0 < piece.size
  reads : ∀ address, piece.source = .loadAddress address →
    ∃ process, env.process = some process ∧ (process.read address piece.size).length = piece.size
  wide : ∀ scalar, piece.source = .scalar scalar → piece.size ≤ scalar.getByteSize
  /-- The bits are counted in 32 bits. -/
  narrow : ∀ scalar, piece.source = .scalar scalar → scalar.getByteSize < 2 ^ 29

def lowBytes (size : Nat) : ValueScalar → List UInt8
  | .integer scalar => env.hostByteOrder.encode size scalar.integer.bits.toNat
  | .float bytes =>
    match env.hostByteOrder with
    | .little => bytes.take size
    | .big => bytes.drop (bytes.length - size)

def pieceData (piece : Piece) : List UInt8 :=
  match piece.source with
  | .loadAddress address => (env.process.map fun process => process.read address piece.size).getD []
  | .scalar scalar => env.lowBytes piece.size scalar
  | .unavailable => replicate piece.size 0

def contribution (piece : Piece) : Option (List UInt8) :=
  match piece.source with
  | .loadAddress address => env.process.map fun process => process.read address piece.size
  | .scalar scalar => (env.extractBitfield scalar (piece.size * 8) 0).map env.memoryData
  | .unavailable => some (replicate piece.size 0)

def Exact (piece : Piece) : Prop :=
  ∀ scalar, piece.source = .scalar scalar → ∃ integer, scalar = .integer integer ∧ integer.getByteSize = piece.size

variable {env} {piece : Piece}

theorem memoryData_integer (scalar : IntegerScalar) :
    env.memoryData (.integer scalar) = env.hostByteOrder.encode scalar.getByteSize scalar.integer.bits.toNat := by
  unfold memoryData
  dsimp only
  rcases eq_zero_or_pos scalar.getByteSize with none_ | positive
  · unfold IntegerScalar.getAsMemoryData IntegerScalar.getData
    rw [none_]
    cases env.hostByteOrder <;> rfl
  · have room : replicate scalar.getByteSize (0 : UInt8) ≠ [] := by
      rw [Ne, replicate_eq_nil_iff]
      exact positive.ne'
    rw [Inferior.getAsMemoryData_eq _ _ room, if_neg positive.ne', length_replicate]
    rw [fit, take_of_length_le (by rw [length_littleBytes]), length_littleBytes,
      Nat.sub_self, List.replicate_zero, List.append_nil, ← encode_eq_arrange]

def lowPart (scalar : IntegerScalar) (size : Nat) : IntegerScalar :=
  { scalar with
    integer :=
      if scalar.type.isSigned then (scalar.integer.sextOrTrunc (8 * size)).sextOrSelf (8 * scalar.getByteSize)
      else (scalar.integer.zextOrTrunc (8 * size)).zextOrSelf (8 * scalar.getByteSize) }

theorem extractBitfield_low {scalar : IntegerScalar} {size : Nat} (positive : 0 < size) (typed : scalar.type ≠ .void) :
    scalar.extractBitfield (8 * size) 0 = some (true, lowPart scalar size) := by
  have ashr : scalar.integer.ashr 0 = some scalar.integer := by
    simp [ashr]
  unfold IntegerScalar.extractBitfield lowPart
  rw [if_neg (by omega), if_neg typed, ashr]
  cases scalar.type.isSigned <;> rfl

theorem encode_truncated {width : Nat} (order : ByteOrder) (bits : BitVec width) (size : Nat) :
    order.encode size (bits.setWidth (8 * size)).toNat = order.encode size bits.toNat := by
  have power : 2 ^ (8 * size) = 256 ^ size := by rw [Nat.pow_mul]
  simp [power, encode_eq_arrange, littleBytes_mod]

/-- An integer keeps its width when a part of it is extracted, and its bytes when all of it is. -/
theorem extractBitfield_integer {scalar : IntegerScalar} {size : Nat} (positive : 0 < size)
    (wide : size ≤ scalar.getByteSize) (narrow : scalar.getByteSize < 2 ^ 29) :
    ∃ extracted, env.extractBitfield (.integer scalar) (size * 8) 0 = some (.integer extracted) ∧
      extracted.getByteSize = scalar.getByteSize ∧
      (scalar.getByteSize = size → env.hostByteOrder.encode size extracted.integer.bits.toNat =
        env.hostByteOrder.encode size scalar.integer.bits.toNat) := by
  have typed : scalar.type ≠ .void := by
    intro void
    rw [IntegerScalar.getByteSize, if_pos void] at wide
    omega
  have bytes : scalar.getByteSize = scalar.integer.width / 8 := if_neg typed
  have count : size * 8 % 2 ^ 32 = 8 * size := by omega
  refine ⟨lowPart scalar size, ?_, ?_, ?_⟩
  · unfold extractBitfield
    dsimp only
    rw [count, Nat.zero_mod, extractBitfield_low positive typed]
  · have still : (lowPart scalar size).getByteSize = (lowPart scalar size).integer.width / 8 := if_neg typed
    rw [still, lowPart]
    split
    · rw [width_sextOrSelf, width_sextOrTrunc]
      omega
    · rw [width_zextOrSelf, width_zextOrTrunc]
      omega
  · intro same
    rw [lowPart, same]
    cases scalar.type.isSigned with
    | true =>
      rw [if_pos rfl, sextOrSelf, width_sextOrTrunc, if_neg (lt_irrefl _), sextOrTrunc]
      rw [BitVec.signExtend_eq_setWidth_of_le _ (by omega), encode_truncated]
    | false =>
      rw [if_neg Bool.false_ne_true, zextOrSelf, width_zextOrTrunc, if_neg (lt_irrefl _),
        zextOrTrunc, encode_truncated]

theorem extractBitfield_float {bytes : List UInt8} {size : Nat} (positive : 0 < size) (wide : size ≤ bytes.length)
    (narrow : bytes.length < 2 ^ 29) : env.extractBitfield (.float bytes) (size * 8) 0 = none := by
  have some_ : size * 8 % 2 ^ 32 ≠ 0 := by omega
  exact if_neg some_

/-- A simple piece contributes what it is of, unless its scalar is wider, or not an integer. -/
theorem contribution_of_exact (simple : env.Simple piece) (exact_ : Exact piece) :
    env.contribution piece = some (env.pieceData piece) := by
  unfold contribution pieceData
  cases source : piece.source with
  | unavailable => rfl
  | loadAddress address =>
    obtain ⟨process, running, -⟩ := simple.reads address source
    rw [running]
    rfl
  | scalar scalar =>
    obtain ⟨integer, rfl, width⟩ := exact_ scalar source
    obtain ⟨extracted, is, sized, same⟩ := extractBitfield_integer simple.positive width.ge
      (simple.narrow _ source)
    dsimp only
    rw [is, map_some, memoryData_integer, sized, width, same width]
    rfl

theorem le_contribution (simple : env.Simple piece) {bytes : List UInt8} (is : env.contribution piece = some bytes) :
    piece.size ≤ bytes.length ∧ (bytes.length = piece.size → Exact piece) := by
  unfold contribution at is
  cases source : piece.source with
  | unavailable =>
    rw [source] at is
    cases is
    refine ⟨(length_replicate ..).ge, fun _ scalar other => ?_⟩
    rw [source] at other
    cases other
  | loadAddress address =>
    rw [source] at is
    obtain ⟨process, running, length⟩ := simple.reads address source
    rw [running] at is
    cases is
    refine ⟨length.ge, fun _ scalar other => ?_⟩
    rw [source] at other
    cases other
  | scalar scalar =>
    rw [source] at is
    dsimp only at is
    cases scalar with
    | float bytes =>
      rw [extractBitfield_float simple.positive (simple.wide _ source) (simple.narrow _ source)] at is
      cases is
    | integer integer =>
      have wide := simple.wide _ source
      obtain ⟨extracted, extracts, sized, -⟩ := extractBitfield_integer simple.positive wide
        (simple.narrow _ source)
      rw [extracts, map_some, memoryData_integer] at is
      cases is
      rw [length_encode, sized]
      refine ⟨wide, fun width scalar same => ?_⟩
      rw [source] at same
      cases same
      exact ⟨integer, rfl, width⟩

theorem length_pieceData (simple : env.Simple piece) : (env.pieceData piece).length = piece.size := by
  unfold pieceData
  cases source : piece.source with
  | unavailable => exact length_replicate ..
  | loadAddress address =>
    obtain ⟨process, running, length⟩ := simple.reads address source
    rw [running]
    exact length
  | scalar scalar =>
    have wide := simple.wide scalar source
    cases scalar with
    | integer integer => exact length_encode ..
    | float bytes =>
      change piece.size ≤ bytes.length at wide
      dsimp only [lowBytes]
      cases env.hostByteOrder with
      | little => exact length_take_of_le wide
      | big =>
        rw [length_drop]
        omega

/-! The buffer and the running offset. -/

variable (env) in
def append (state : List UInt8 × Nat) (piece : Piece) : Option (List UInt8 × Nat) :=
  if piece.Located ∧ state.2 ≠ 0 ∧ state.1.length ≠ state.2 then none
  else
    (env.contribution piece).map fun bytes =>
      (state.1 ++ bytes, if piece.Located then state.2 + piece.size else state.2)

theorem append_offset_le {before after : List UInt8 × Nat} (is : env.append before piece = some after) :
    after.2 ≤ before.2 + piece.size := by
  unfold append at is
  split at is
  · cases is
  · obtain ⟨bytes, -, rfl⟩ := map_eq_some_iff.mp is
    split_ifs
    · exact le_refl _
    · exact Nat.le_add_right _ _

/-- In front of every located piece there are only such pieces, or none of them. -/
def InStep (pieces : List Piece) : Prop :=
  ∀ index piece, pieces[index]? = some piece → piece.Located →
    (∀ other ∈ pieces.take index, ¬ other.Located) ∨ ∀ other ∈ pieces.take index, other.Located

def totalSize (pieces : List Piece) : Nat := (pieces.map Piece.size).sum

def locatedSize (pieces : List Piece) : Nat := (pieces.map fun piece => if piece.Located then piece.size else 0).sum

variable {pieces : List Piece}

variable (simple : ∀ piece ∈ pieces, env.Simple piece)
include simple

theorem length_data : (pieces.flatMap env.pieceData).length = totalSize pieces := by
  rw [length_flatMap]
  congr 1
  exact map_congr_left fun piece member => length_pieceData (simple piece member)

theorem locatedSize_eq_zero_iff : locatedSize pieces = 0 ↔ ∀ other ∈ pieces, ¬ other.Located := by
  rw [locatedSize, List.sum_eq_zero_iff, List.forall_mem_map]
  apply forall₂_congr
  intro piece member
  have positive := (simple piece member).positive
  split_ifs with located
  · exact iff_of_false (by omega) (not_not.mpr located)
  · exact iff_of_true rfl located

theorem totalSize_eq_iff : totalSize pieces = locatedSize pieces ↔ ∀ other ∈ pieces, other.Located := by
  induction pieces with
  | nil => exact iff_of_true rfl fun _ member => absurd member not_mem_nil
  | cons piece rest ih =>
    rw [forall_mem_cons] at simple ⊢
    have positive := simple.1.positive
    have tail := ih simple.2
    have below : locatedSize rest ≤ totalSize rest := by
      apply sum_le_sum
      intro other _
      split_ifs
      · exact le_refl _
      · exact Nat.zero_le _
    have total : totalSize (piece :: rest) = piece.size + totalSize rest := sum_cons ..
    have located : locatedSize (piece :: rest) = (if piece.Located then piece.size else 0) + locatedSize rest :=
      sum_cons ..
    rw [located, ← tail]
    split_ifs with here
    · exact ⟨fun same => ⟨here, by omega⟩, fun both => by omega⟩
    · exact iff_of_false (by omega) fun both => here both.1

omit simple

theorem inStep_append_singleton : InStep (pieces ++ [piece]) ↔
      InStep pieces ∧ (piece.Located → (∀ other ∈ pieces, ¬ other.Located) ∨ ∀ other ∈ pieces, other.Located) := by
  constructor
  · intro steps
    constructor
    · intro index other there
      have inside := (List.getElem?_eq_some_iff.mp there).1
      have step := steps index other (by rwa [getElem?_append_left inside])
      rwa [take_append_of_le_length inside.le] at step
    · have step := steps pieces.length piece getElem?_concat_length
      rwa [take_left' rfl] at step
  · rintro ⟨steps, last⟩ index other there
    have inside := (List.getElem?_eq_some_iff.mp there).1
    rw [length_append] at inside
    rcases Nat.lt_or_eq_of_le (Nat.le_of_lt_succ inside) with before | rfl
    · rw [getElem?_append_left before] at there
      rw [take_append_of_le_length before.le]
      exact steps index other there
    · rw [getElem?_concat_length] at there
      cases there
      rwa [take_left' rfl]

variable (simple : ∀ piece ∈ pieces, env.Simple piece)
include simple

theorem foldlM_exact (exact_ : ∀ piece ∈ pieces, Exact piece) :
    (InStep pieces → pieces.foldlM env.append ([], 0) = some (pieces.flatMap env.pieceData, locatedSize pieces)) ∧
      (¬ InStep pieces → pieces.foldlM env.append ([], 0) = none) := by
  induction pieces using reverseRecOn with
  | nil => exact ⟨fun _ => rfl, fun out => absurd (fun index piece there => by simp at there) out⟩
  | append_singleton pieces piece ih =>
    rw [forall_mem_append, forall_mem_singleton] at simple exact_
    obtain ⟨inside, outside⟩ := ih simple.1 exact_.1
    rw [foldlM_append, inStep_append_singleton]
    by_cases steps : InStep pieces
    · rw [and_iff_right steps, inside steps]
      change (_ → (env.append _ piece).bind some = _) ∧ (_ → (env.append _ piece).bind some = _)
      rw [bind_fun_some, append, contribution_of_exact simple.2 exact_.2]
      have refused : (piece.Located ∧ locatedSize pieces ≠ 0 ∧
            (pieces.flatMap env.pieceData).length ≠ locatedSize pieces) ↔
          ¬ (piece.Located → (∀ other ∈ pieces, ¬ other.Located) ∨ ∀ other ∈ pieces, other.Located) := by
        simp [length_data simple.1, ← locatedSize_eq_zero_iff simple.1, ← totalSize_eq_iff simple.1]
      constructor
      · intro last
        rw [if_neg (refused.not.mpr (not_not.mpr last)), flatMap_append, flatMap_singleton,
          locatedSize, locatedSize, map_append, sum_append, map_singleton]
        split_ifs <;> rfl
      · intro last
        rw [if_pos (refused.mpr last)]
    · rw [outside steps]
      exact ⟨fun both => absurd both.1 steps, fun _ => rfl⟩

theorem foldlM_length {state after : List UInt8 × Nat} (is : pieces.foldlM env.append state = some after) :
    state.1.length + totalSize pieces ≤ after.1.length ∧
      (after.1.length = state.1.length + totalSize pieces → ∀ piece ∈ pieces, Exact piece) := by
  induction pieces generalizing state with
  | nil =>
    cases is
    exact ⟨le_refl _, fun _ _ member => absurd member not_mem_nil⟩
  | cons piece rest ih =>
    rw [forall_mem_cons] at simple
    obtain ⟨middle, first, further⟩ := bind_eq_some_iff.mp is
    obtain ⟨grows, exact_⟩ := ih simple.2 further
    have total : totalSize (piece :: rest) = piece.size + totalSize rest := sum_cons ..
    unfold append at first
    split at first
    · cases first
    · obtain ⟨bytes, contributed, rfl⟩ := map_eq_some_iff.mp first
      obtain ⟨wide, same⟩ := le_contribution simple.1 contributed
      rw [length_append] at grows exact_
      rw [forall_mem_cons]
      exact ⟨by omega, fun equal => ⟨same (by omega), exact_ (by omega)⟩⟩

theorem foldlM_iff : (∃ offset, pieces.foldlM env.append ([], 0) = some (pieces.flatMap env.pieceData, offset)) ↔
      (∀ piece ∈ pieces, Exact piece) ∧ InStep pieces := by
  constructor
  · rintro ⟨offset, is⟩
    have exact_ : ∀ piece ∈ pieces, Exact piece :=
      (foldlM_length simple is).2 (by simp [length_data simple])
    refine ⟨exact_, ?_⟩
    by_contra out
    rw [(foldlM_exact simple exact_).2 out] at is
    cases is
  · rintro ⟨exact_, steps⟩
    exact ⟨_, (foldlM_exact simple exact_).1 steps⟩

omit simple

/-! What the opcode does. -/

theorem appendDataToHostBuffer_address {rhs : Value} (value : Value) (type : rhs.valueType = .hostAddress)
    (some_ : 0 < rhs.buffer.length) :
    (env.appendDataToHostBuffer value rhs).1 = rhs.buffer.length ∧
      (env.appendDataToHostBuffer value rhs).2.buffer = value.buffer ++ rhs.buffer := by
  unfold appendDataToHostBuffer
  rw [type]
  rw [if_pos some_]
  exact ⟨rfl, rfl⟩

theorem appendDataToHostBuffer_scalar {rhs : Value} {scalar : IntegerScalar} (value : Value)
    (type : rhs.valueType = .scalar) (is : rhs.scalar = .integer scalar) (some_ : 0 < scalar.getByteSize) :
    (env.appendDataToHostBuffer value rhs).1 = (env.memoryData rhs.scalar).length ∧
      (env.appendDataToHostBuffer value rhs).2.buffer = value.buffer ++ env.memoryData rhs.scalar := by
  have length : 0 < (env.memoryData (.integer scalar)).length := by
    rw [memoryData_integer, length_encode]
    exact some_
  have size : 0 < (ValueScalar.integer scalar).getByteSize := some_
  unfold appendDataToHostBuffer
  rw [type, is]
  rw [if_pos size, if_pos length]
  exact ⟨rfl, rfl⟩

theorem currPiece_some (simple : env.Simple piece) {value : Value} (shows_ : env.Shows value piece.source)
    {bytes : List UInt8} (is : env.contribution piece = some bytes) :
    ∃ curr, env.currPiece value piece.size = .ok curr ∧ ∀ pieces,
      (env.appendDataToHostBuffer pieces curr).1 = bytes.length ∧
        (env.appendDataToHostBuffer pieces curr).2.buffer = pieces.buffer ++ bytes := by
  have positive := simple.positive
  unfold contribution at is
  unfold currPiece
  cases source : piece.source with
  | unavailable =>
    rw [source] at shows_
    exact shows_.elim
  | loadAddress address =>
    rw [source] at shows_ is
    obtain ⟨type, at_⟩ := shows_
    obtain ⟨process, running, length⟩ := simple.reads address source
    rw [running] at is
    cases is
    rw [type, running, at_]
    dsimp only
    rw [if_neg (not_not.mpr length)]
    refine ⟨_, rfl, fun pieces => appendDataToHostBuffer_address pieces rfl ?_⟩
    rw [length]
    exact positive
  | scalar scalar =>
    rw [source] at shows_ is
    obtain ⟨type, at_⟩ := shows_
    obtain ⟨extracted, extracts, rfl⟩ := map_eq_some_iff.mp is
    rw [type, at_, extracts]
    refine ⟨_, rfl, fun pieces => ?_⟩
    cases scalar with
    | float bytes =>
      rw [extractBitfield_float positive (simple.wide _ source) (simple.narrow _ source)] at extracts
      cases extracts
    | integer integer =>
      obtain ⟨part, extracts', sized, -⟩ := extractBitfield_integer positive (simple.wide _ source)
        (simple.narrow _ source)
      rw [extracts] at extracts'
      cases extracts'
      exact appendDataToHostBuffer_scalar pieces rfl rfl
        (sized ▸ lt_of_lt_of_le positive (simple.wide _ source))

theorem currPiece_none (simple : env.Simple piece) {value : Value} (shows_ : env.Shows value piece.source)
    (is : env.contribution piece = none) : ∃ text, env.currPiece value piece.size = .error text := by
  unfold contribution at is
  unfold currPiece
  cases source : piece.source with
  | unavailable =>
    rw [source] at shows_
    exact shows_.elim
  | loadAddress address =>
    obtain ⟨process, running, -⟩ := simple.reads address source
    rw [source] at is
    rw [running] at is
    cases is
  | scalar scalar =>
    rw [source] at shows_ is
    obtain ⟨type, at_⟩ := shows_
    rw [type, at_, map_eq_none_iff.mp is]
    exact ⟨_, rfl⟩

theorem leads_piece (simple : env.Simple piece) {state : EvaluateState}
    (sized : env.ulebValue state.offset = piece.size) (small : state.opPieceOffset + piece.size < 2 ^ 64)
    (stack : piece.source = .unavailable ∧ state.stack = [] ∨
      ∃ value, state.stack = [value] ∧ env.Shows value piece.source) :
    (∀ after, env.append (state.pieces.buffer, state.opPieceOffset) piece = some after →
      Leads env.piece state (fun _ => False) fun _ reached => reached.offset = env.skipped state.offset ∧
        reached.stack = [] ∧ (reached.pieces.buffer, reached.opPieceOffset) = after) ∧
    (env.append (state.pieces.buffer, state.opPieceOffset) piece = none →
      Leads env.piece state Stop.Returns fun _ _ => False) := by
  obtain ⟨offset, stack_, tmp, opPieceOffset, pieces, error⟩ := state
  have positive := simple.positive
  rcases stack with ⟨source, rfl⟩ | ⟨value, rfl, shows_⟩
  · have gap : ¬ piece.Located := not_not.mpr source
    have zeros : env.contribution piece = some (replicate piece.size 0) := by
      rw [contribution, source]
    have hosted : (env.resizeData .empty piece.size).valueType = .hostAddress := rfl
    have appended := env.appendDataToHostBuffer_address pieces hosted
      (by simpa [resizeData, Value.empty, Value.ofScalar] using positive)
    have filler : (env.resizeData .empty piece.size).buffer = replicate piece.size 0 := by
      simp [resizeData, Value.empty, Value.ofScalar]
    rw [append, if_neg fun refused => gap refused.1, zeros, if_neg gap]
    constructor
    · intro after is
      cases is
      simp [Environment.piece, sized, appended.2, filler]
    · intro is
      cases is
  · have located : piece.Located := by
      intro source
      rw [source] at shows_
      exact shows_
    cases contributed : env.contribution piece with
    | none =>
      obtain ⟨text, found⟩ := currPiece_none simple shows_ contributed
      constructor
      · intro after is
        rw [append, contributed] at is
        split at is <;> cases is
      · intro _
        simp only [Environment.piece, leads_bind, leads_getULEB128, sized, leads_ite, Stack.leads_size,
          Stack.leads_back, Stack.leads_popBack, found]
        exact ⟨fun _ => ⟨fun empty => absurd empty one_ne_zero, fun _ => leads_fail _ _⟩,
          fun none_ => absurd positive none_⟩
    | some bytes =>
      obtain ⟨curr, found, appends⟩ := currPiece_some simple shows_ contributed
      obtain ⟨count, buffer⟩ := appends pieces
      have wide := (le_contribution simple contributed).1
      have some_ : bytes.length ≠ 0 := by omega
      constructor
      · intro after is
        rw [append, contributed] at is
        split at is
        · cases is
        · rename_i step
          cases is
          rcases eq_zero_or_pos opPieceOffset with rfl | later
          · simpa [Environment.piece, sized, positive, positive.ne', found, appendPiece, count, buffer, some_] using
              small
          · have same : pieces.buffer.length = opPieceOffset := by
              by_contra other
              exact step ⟨located, later.ne', other⟩
            simpa [Environment.piece, sized, positive, positive.ne', found, appendPiece, count, buffer,
              some_,
              same] using small
      · intro is
        rw [append, contributed] at is
        split at is
        · rename_i refused
          obtain ⟨-, later, other⟩ := refused
          simp [Environment.piece, sized, positive.ne', found, later, other]
        · cases is

/-! Runs over pieces. -/

variable {number : Leb128} {regNum : Nat}

theorem ulebValue_at {offset : Nat} (at_ : env.opcodes.At offset number.bytes) (short : number.size ≤ 10) :
    env.ulebValue offset = number.unsigned % 2 ^ 64 ∧ env.skipped offset = offset + number.bytes.length := by
  have read := getULEB128_at at_
  rw [if_pos short] at read
  have moved := getULEB128_moves read
  rw [ulebValue, read, Leb128.length_bytes]
  exact ⟨rfl, moved.symm⟩

variable {state : EvaluateState}

theorem exists_evaluateLoop {reached : EvaluateState} {outcome : Outcome} (reaches : env.rounds.Reaches state reached)
    (ends : ∃ fuel, env.evaluateLoop fuel reached = some outcome) :
    ∃ fuel, env.evaluateLoop fuel state = some outcome := by
  induction reaches using Relation.ReflTransGen.head_induction_on with
  | refl => exact ends
  | head round _ ih =>
    obtain ⟨fuel, ends⟩ := ih
    obtain ⟨goesOn, is⟩ := round_iff.mp round
    refine ⟨fuel + 1, ?_⟩
    rw [evaluateLoop, if_pos goesOn, is]
    exact ends

theorem evaluateLoop_unique {fuel more : Nat} {outcome other : Outcome}
    (first : env.evaluateLoop fuel state = some outcome) (second : env.evaluateLoop more state = some other) :
    outcome = other := by
  induction fuel generalizing state more with
  | zero => cases first
  | succ fuel ih =>
    cases more with
    | zero => cases second
    | succ more =>
      rw [evaluateLoop] at first second
      split at first
      · rename_i goesOn
        rw [if_pos goesOn] at second
        split at first
        · rename_i after is
          rw [is] at second
          exact ih first second
        · rename_i stop is
          rw [is] at second
          cases first
          cases second
          rfl
      · rename_i last
        rw [if_neg last] at second
        cases first
        cases second
        rfl

theorem goesOn_of_at {rest : List UInt8} {op : UInt8} (at_ : env.opcodes.At state.offset (op :: rest))
    (within : state.offset < env.endOffset) : env.goesOn state = true ∧ env.opcodeAt state = op.toNat := by
  have room := at_.bound
  rw [length_cons] at room
  have valid : env.opcodes.validOffset state.offset = true := decide_eq_true (by omega)
  have single : env.opcodes.At state.offset [op] := left at_
  have read := getU8_at single
  refine ⟨Bool.and_eq_true_iff.mpr ⟨valid, decide_eq_true within⟩, ?_⟩
  change ((env.opcodes.getU8 state.offset).getD (0, state.offset)).1 = _
  rw [read]
  rfl

/-- A piece comes to the state that `append` has, or the evaluation returns false. -/
theorem run_piece (simple : env.Simple piece) (at_ : env.opcodes.At state.offset piece.bytes)
    (within : state.offset + piece.bytes.length ≤ env.endOffset) (empty : state.stack = [])
    (small : state.opPieceOffset + piece.size < 2 ^ 64) :
    (∀ after, env.append (state.pieces.buffer, state.opPieceOffset) piece = some after →
      ∃ reached, env.rounds.Reaches state reached ∧ reached.offset = state.offset + piece.bytes.length ∧
        reached.stack = [] ∧ (reached.pieces.buffer, reached.opPieceOffset) = after) ∧
    (env.append (state.pieces.buffer, state.opPieceOffset) piece = none →
      ∃ fuel error, env.evaluateLoop fuel state = some (.stopped (.returnsFalse error))) := by
  have length : piece.bytes.length = piece.location.length + (1 + piece.number.bytes.length) := by
    simp [Piece.bytes, add_comm 1]
  have behind : env.opcodes.At (state.offset + piece.location.length) (0x93 :: piece.number.bytes) :=
    right at_
  -- the location comes first
  obtain ⟨located, reaches, offset, buffer, running, stack⟩ : ∃ located, env.rounds.Reaches state located ∧
      located.offset = state.offset + piece.location.length ∧ located.pieces = state.pieces ∧
      located.opPieceOffset = state.opPieceOffset ∧
      (piece.source = .unavailable ∧ located.stack = [] ∨
        ∃ value, located.stack = [value] ∧ env.Shows value piece.source) := by
    rcases simple.leaves with ⟨source, none_⟩ | pushes
    · exact ⟨state, .refl, by rw [none_]; rfl, rfl, rfl, .inl ⟨source, empty⟩⟩
    · obtain ⟨after, value, reaches, offset, stack, shows_, pieces, running⟩ :=
        pushes state (left at_) (by omega) empty
      exact ⟨after, reaches, offset, pieces, running, .inr ⟨value, stack, shows_⟩⟩
  rw [← offset] at behind
  obtain ⟨goesOn, opcode⟩ := goesOn_of_at behind (by omega)
  have number : env.opcodes.At (located.offset + 1) piece.number.bytes := tail behind
  obtain ⟨sized, skipped_⟩ := ulebValue_at number simple.readable
  change env.ulebValue (atOperands located).offset = piece.size at sized
  have next : env.evaluateNext located = env.piece (atOperands located) := by
    rw [evaluateNext_eq goesOn, opcode]
    rfl
  rw [← running] at small
  rw [← buffer, ← running]
  obtain ⟨goes, stops⟩ := leads_piece simple sized small stack
  constructor
  · intro after is
    have leads := goes after is
    cases through : env.piece (atOperands located) with
    | error stop => exact (leads.error through).elim
    | ok read =>
      obtain ⟨moved, stack', same⟩ := leads.ok through
      have round : env.rounds.Round located read.2 := round_iff.mpr ⟨goesOn, next.trans through⟩
      refine ⟨read.2, reaches.tail round, ?_, stack', same⟩
      have there : read.2.offset = located.offset + 1 + piece.number.bytes.length := moved.trans skipped_
      omega
  · intro is
    have leads := stops is
    cases through : env.piece (atOperands located) with
    | ok read => exact (leads.ok through).elim
    | error stop =>
      have returns := leads.error through
      cases stop with
      | fault fault => exact returns.elim
      | returnsFalse error =>
        obtain ⟨fuel, ends⟩ := exists_evaluateLoop reaches
          ⟨1, by rw [evaluateLoop, if_pos goesOn, next, through]⟩
        exact ⟨fuel, error, ends⟩

/-- The pieces come to the buffer that they are appended to one after the other, or the evaluation returns false. -/
theorem run_pieces (simple : ∀ piece ∈ pieces, env.Simple piece)
    (at_ : env.opcodes.At state.offset (pieces.flatMap Piece.bytes))
    (within : state.offset + (pieces.flatMap Piece.bytes).length ≤ env.endOffset) (empty : state.stack = [])
    (small : state.opPieceOffset + totalSize pieces < 2 ^ 64) :
    (∀ after, pieces.foldlM env.append (state.pieces.buffer, state.opPieceOffset) = some after →
      ∃ reached, env.rounds.Reaches state reached ∧
        reached.offset = state.offset + (pieces.flatMap Piece.bytes).length ∧ reached.stack = [] ∧
        (reached.pieces.buffer, reached.opPieceOffset) = after) ∧
    (pieces.foldlM env.append (state.pieces.buffer, state.opPieceOffset) = none →
      ∃ fuel error, env.evaluateLoop fuel state = some (.stopped (.returnsFalse error))) := by
  induction pieces generalizing state with
  | nil =>
    constructor
    · intro after is
      cases is
      exact ⟨state, .refl, rfl, empty, rfl⟩
    · intro is
      cases is
  | cons piece rest ih =>
    rw [forall_mem_cons] at simple
    rw [flatMap_cons] at at_ within ⊢
    rw [length_append] at within ⊢
    have total : totalSize (piece :: rest) = piece.size + totalSize rest := sum_cons ..
    obtain ⟨goes, stops⟩ := run_piece simple.1 at_.left (by omega) empty (by omega)
    rw [foldlM_cons]
    cases first : env.append (state.pieces.buffer, state.opPieceOffset) piece with
    | none => exact ⟨fun after is => (some_ne_none after is.symm).elim, fun _ => stops first⟩
    | some middle =>
      obtain ⟨reached, reaches, offset, stack, same⟩ := goes middle first
      have running : reached.opPieceOffset ≤ state.opPieceOffset + piece.size := by
        have le := append_offset_le first
        rw [← same] at le
        exact le
      have there : env.opcodes.At reached.offset (rest.flatMap Piece.bytes) := by
        rw [offset]
        exact at_.right
      obtain ⟨on, out⟩ := ih simple.2 there (by omega) stack (by omega)
      rw [same] at on out
      constructor
      · intro after is
        obtain ⟨final, further, end_, last⟩ := on after is
        exact ⟨final, reaches.trans further, by omega, last⟩
      · intro is
        obtain ⟨fuel, error, ends⟩ := out is
        obtain ⟨more, all⟩ := exists_evaluateLoop reaches ⟨fuel, ends⟩
        exact ⟨more, error, all⟩

/-! Locations of one opcode. -/

theorem pushes_of_leads {op : UInt8} {operands : List UInt8} {source : PieceSource}
    (leads : ∀ state : EvaluateState, state.stack = [] → env.opcodes.At state.offset operands →
      Leads (env.evaluateOpcode op.toNat) state (fun _ => False) fun _ after =>
        after.offset = state.offset + operands.length ∧ after.pieces = state.pieces ∧
          after.opPieceOffset = state.opPieceOffset ∧ ∃ value, after.stack = [value] ∧ env.Shows value source) :
    env.Pushes (op :: operands) source := by
  intro state at_ within empty
  rw [length_cons] at within ⊢
  obtain ⟨goesOn, opcode⟩ := goesOn_of_at at_ (by omega)
  have there := leads (atOperands state) empty (tail at_)
  have next : env.evaluateNext state = env.evaluateOpcode op.toNat (atOperands state) := by
    rw [evaluateNext_eq goesOn, opcode]
  cases through : env.evaluateOpcode op.toNat (atOperands state) with
  | error stop => exact (there.error through).elim
  | ok read =>
    obtain ⟨moved, pieces, running, value, stack, shows_⟩ := there.ok through
    refine ⟨read.2, value, .single (round_iff.mpr ⟨goesOn, next.trans through⟩), ?_, stack, shows_, pieces, running⟩
    rw [moved, atOperands]
    dsimp only
    omega

variable {read : Nat → RegisterRead} {scalar : ValueScalar}

variable (registers : env.registers = some read)
include registers

theorem leads_reg (is : read regNum = .scalar scalar) (empty : state.stack = []) :
    Leads (env.reg regNum) state (fun _ => False) fun _ after =>
      after.offset = state.offset ∧ after.pieces = state.pieces ∧ after.opPieceOffset = state.opPieceOffset ∧
        ∃ value, after.stack = [value] ∧ env.Shows value (.scalar scalar) := by
  simp only [reg, readRegisterValueAsScalar, registers, is, leads_bind, leads_modify, leads_getTmp,
    Stack.leads_pushBack, empty]
  exact ⟨trivial, trivial, trivial, _, rfl, rfl, rfl⟩

theorem pushes_reg (small : regNum < 32)
    (is : read regNum = .scalar scalar) : env.Pushes [UInt8.ofNat (0x50 + regNum)] (.scalar scalar) := by
  apply pushes_of_leads
  intro state empty _
  have opcode : (UInt8.ofNat (0x50 + regNum)).toNat = 0x50 + regNum := by
    rw [UInt8.toNat_ofNat']
    omega
  have case_ : env.evaluateOpcode (0x50 + regNum) = env.reg regNum := by
    interval_cases regNum <;> rfl
  rw [opcode, case_]
  exact leads_reg registers is empty

omit registers

variable (env) in
def Assembles (pieces : List Piece) : Prop :=
  ∃ fuel result error, env.evaluate fuel = some (.returnsTrue result error) ∧
    result.buffer = pieces.flatMap env.pieceData

end Environment

/-- An expression of nothing but pieces, which no buffer is too small for. -/
structure Composite (env : Environment) where
  pieces : List Piece
  simple : ∀ piece ∈ pieces, env.Simple piece
  encoded : env.opcodes.At env.opcodesOffset (pieces.flatMap Piece.bytes)
  whole : env.opcodesLength = (pieces.flatMap Piece.bytes).length
  alone : env.initialValue = none
  small : Environment.totalSize pieces < 2 ^ 64

namespace Environment

/-- A composite location is put together just if each scalar has as many bytes as its piece, and no piece that is not
available comes between located ones, or in front of more than one.
-/
theorem assembles_iff (env : Environment) (composite : Composite env) : env.Assembles composite.pieces ↔
      composite.pieces ≠ [] ∧ (∀ piece ∈ composite.pieces, Exact piece) ∧ InStep composite.pieces := by
  obtain ⟨pieces, simple, encoded, whole, alone, small⟩ := composite
  rw [← foldlM_iff simple]
  cases pieces with
  | nil =>
    refine iff_of_false ?_ fun both => both.1 rfl
    rintro ⟨fuel, result, error, ends, -⟩
    have none_ : env.opcodesLength = 0 := whole
    rw [evaluate, if_pos none_] at ends
    cases ends
  | cons piece rest =>
    rw [and_iff_right (cons_ne_nil piece rest)]
    generalize pieces_ : piece :: rest = pieces at *
    have room := encoded.bound
    have some_ : 0 < (pieces.flatMap Piece.bytes).length := by
      rw [← pieces_, flatMap_cons, length_append, Piece.bytes, length_append, length_cons]
      omega
    have data : 0 < totalSize pieces := by
      rw [← pieces_, totalSize, map_cons, sum_cons]
      have positive := (simple piece (pieces_ ▸ mem_cons_self)).positive
      omega
    have loops : ∀ fuel, env.evaluate fuel = env.evaluateLoop fuel env.start := by
      intro fuel
      have valid : env.opcodes.validOffsetForDataOfSize env.opcodesOffset env.opcodesLength = true :=
        decide_eq_true (by omega)
      rw [evaluate, if_neg (by omega), if_neg (not_not.mpr valid)]
    have empty : env.start.stack = [] := by rw [start, alone]; rfl
    have within : env.start.offset + (pieces.flatMap Piece.bytes).length ≤ env.endOffset := by
      rw [endOffset, whole]
      exact le_refl _
    obtain ⟨goes, stops⟩ := run_pieces simple encoded within empty
      (lt_of_le_of_lt (zero_add _).le small)
    unfold Assembles
    simp only [loops]
    cases is : pieces.foldlM env.append (env.start.pieces.buffer, env.start.opPieceOffset) with
    | none =>
      obtain ⟨fuel, error, ends⟩ := stops is
      refine iff_of_false ?_ ?_
      · rintro ⟨more, result, error, returns, -⟩
        cases evaluateLoop_unique ends returns
      · rintro ⟨offset, found⟩
        cases is.symm.trans found
    | some after =>
      obtain ⟨reached, reaches, offset, stack, same⟩ := goes after is
      have grown := (foldlM_length simple is).1
      rw [← same] at grown
      have last : ¬ env.goesOn reached = true := by
        intro goesOn
        have inside : reached.offset < env.endOffset := of_decide_eq_true (Bool.and_eq_true_iff.mp goesOn).2
        rw [offset, endOffset, whole] at inside
        exact lt_irrefl _ inside
      have finishes : finish reached = .returnsTrue reached.pieces reached.error := by
        have large : 0 < reached.pieces.buffer.length := by
          dsimp only at grown
          omega
        rw [finish, stack]
        exact if_pos large
      obtain ⟨fuel, ends⟩ := exists_evaluateLoop reaches
        ⟨1, by rw [evaluateLoop, if_neg last]⟩
      rw [finishes] at ends
      constructor
      · rintro ⟨more, result, error, returns, buffer⟩
        cases evaluateLoop_unique ends returns
        refine ⟨after.2, is.trans ?_⟩
        rw [← buffer, ← same]
      · rintro ⟨total, found⟩
        have both := Option.some.inj (is.symm.trans found)
        refine ⟨fuel, reached.pieces, reached.error, ends, ?_⟩
        rw [both] at same
        exact (Prod.mk.inj same).1

def withRegisters (bytes : List UInt8) (scalar : ValueScalar) : Environment :=
  { bare bytes with registers := some fun _ => .scalar scalar }

def registerPiece (scalar : ValueScalar) (size : Fin 128) : Piece := ⟨[0x50], .scalar scalar, ⟨[], size⟩⟩

def unavailablePiece (size : Fin 128) : Piece := ⟨[], .unavailable, ⟨[], size⟩⟩

theorem size_of_digit (location : List UInt8) (source : PieceSource) (size : Fin 128) :
    (⟨location, source, ⟨[], size⟩⟩ : Piece).size = size.val := by
  have digit : (⟨[], size⟩ : Leb128).unsigned = size.val := by simp [Leb128.unsigned, Leb128.value]
  rw [Piece.size, digit]
  omega

theorem simple_registerPiece {bytes : List UInt8} {scalar : ValueScalar} {size : Fin 128} (positive : 0 < size.val)
    (wide : size.val ≤ scalar.getByteSize) (narrow : scalar.getByteSize < 2 ^ 29) :
    (withRegisters bytes scalar).Simple (registerPiece scalar size) where
  leaves := .inr (pushes_reg rfl (show 0 < 32 by decide) rfl)
  readable := show 1 ≤ 10 by decide
  positive := (size_of_digit _ _ _).symm ▸ positive
  reads address is := by cases is
  wide other is := by
    cases is
    exact (size_of_digit _ _ _).symm ▸ wide
  narrow other is := by
    cases is
    exact narrow

theorem simple_unavailablePiece {env : Environment} {size : Fin 128} (positive : 0 < size.val) :
    env.Simple (unavailablePiece size) where
  leaves := .inl ⟨rfl, rfl⟩
  readable := show 1 ≤ 10 by decide
  positive := (size_of_digit _ _ _).symm ▸ positive
  reads address is := by cases is
  wide other is := by cases is
  narrow other is := by cases is

def lowerHalf : Composite (withRegisters [0x50, 0x93, 4] (.ofULong 0x1122334455667788)) where
  pieces := [registerPiece (.ofULong 0x1122334455667788) 4]
  simple := by
    rw [forall_mem_singleton]
    exact simple_registerPiece (by decide) (by decide) (by decide)
  encoded := ⟨[], rfl⟩
  whole := rfl
  alone := rfl
  small := by
    change Piece.size _ + 0 < _
    rw [registerPiece, size_of_digit]
    decide

def gapped : Composite (withRegisters [0x50, 0x93, 8, 0x93, 4, 0x50, 0x93, 8] (.ofULong 0x1122334455667788)) where
  pieces :=
    [registerPiece (.ofULong 0x1122334455667788) 8, unavailablePiece 4, registerPiece (.ofULong 0x1122334455667788) 8]
  simple := by
    have register : (withRegisters [0x50, 0x93, 8, 0x93, 4, 0x50, 0x93, 8] (.ofULong 0x1122334455667788)).Simple
        (registerPiece (.ofULong 0x1122334455667788) 8) :=
      simple_registerPiece (by decide) (by decide) (by decide)
    simp only [forall_mem_cons]
    exact ⟨register, simple_unavailablePiece (by decide), register, fun _ member => absurd member not_mem_nil⟩
  encoded := ⟨[], rfl⟩
  whole := rfl
  alone := rfl
  small := by
    change Piece.size _ + (Piece.size _ + (Piece.size _ + 0)) < _
    rw [registerPiece, unavailablePiece, size_of_digit, size_of_digit]
    decide

theorem evaluate_unique {env : Environment} {fuel more : Nat} {outcome other : Outcome}
    (first : env.evaluate fuel = some outcome) (second : env.evaluate more = some other) : outcome = other := by
  unfold evaluate at first second
  split_ifs at first second
  · exact Option.some.inj (first.symm.trans second)
  · exact evaluateLoop_unique first second
  · exact Option.some.inj (first.symm.trans second)

/-- Eight bytes come for four, and what is not available is forgotten by the next piece. -/
theorem not_assembles : ¬ (withRegisters [0x50, 0x93, 4] (.ofULong 0x1122334455667788)).Assembles lowerHalf.pieces ∧
      ¬ (withRegisters [0x50, 0x93, 8, 0x93, 4, 0x50, 0x93, 8] (.ofULong 0x1122334455667788)).Assembles
        gapped.pieces := by
  constructor
  · rintro ⟨fuel, result, error, ends, buffer⟩
    obtain ⟨other, text, returns, long⟩ : ∃ other text,
        (withRegisters [0x50, 0x93, 4] (.ofULong 0x1122334455667788)).evaluate 3 = some (.returnsTrue other text) ∧
          other.buffer.length = 8 := ⟨_, _, rfl, rfl⟩
    cases evaluate_unique ends returns
    rw [buffer] at long
    cases long
  · rintro ⟨fuel, result, error, ends, -⟩
    obtain ⟨text, returns⟩ : ∃ text,
        (withRegisters [0x50, 0x93, 8, 0x93, 4, 0x50, 0x93, 8] (.ofULong 0x1122334455667788)).evaluate 5 =
          some (.stopped (.returnsFalse text)) := ⟨_, rfl⟩
    cases evaluate_unique ends returns

end Environment

end Lldb.Evaluate
