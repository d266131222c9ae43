import Lldb.Symbol.DWARFCallFrameInfo
import Mathlib.Data.Nat.Bitwise

/-! Pointers in the encodings of `.eh_frame`: what `GetGNUEHPointer` makes of them. -/

set_option autoImplicit false

namespace Lldb

namespace EHPointer

open Library DWARFCallFrameInfo DataExtractor CallFrame List

inductive Application where
  | absptr
  | pcrel
  | textrel
  | datarel
  | funcrel
  | aligned
  deriving DecidableEq, Repr

inductive AddressSize where
  | four
  | eight
  deriving DecidableEq, Repr

inductive Value where
  | absptr (address : Nat)
  | uleb128 (number : Leb128)
  | udata2 (value : BitVec 16)
  | udata4 (value : BitVec 32)
  | udata8 (value : BitVec 64)
  | sleb128 (number : Leb128)
  | sdata2 (value : BitVec 16)
  | sdata4 (value : BitVec 32)
  | sdata8 (value : BitVec 64)
  deriving DecidableEq, Repr

def AddressSize.bytes : AddressSize → Nat
  | four => 4
  | eight => 8

namespace Application

def code : Application → Nat
  | absptr => 0x00
  | pcrel => 0x10
  | textrel => 0x20
  | datarel => 0x30
  | funcrel => 0x40
  | aligned => 0x50

def start (application : Application) (addressSize offset : Nat) : Nat :=
  match application with
  | aligned => offset + (addressSize - offset % addressSize) % addressSize
  | _ => offset

def base (application : Application) (pcRelAddr textAddr dataAddr offset : Nat) : Nat :=
  match application with
  | pcrel => offset + if pcRelAddr ≠ CallFrame.invalidAddress then pcRelAddr else 0
  | textrel => if textAddr ≠ CallFrame.invalidAddress then textAddr else 0
  | datarel => if dataAddr ≠ CallFrame.invalidAddress then dataAddr else 0
  | absptr | funcrel | aligned => 0

def relative : Application → Bool
  | pcrel | textrel | datarel | funcrel => true
  | absptr | aligned => false

end Application

namespace Value

def format : Value → Nat
  | absptr _ => 0x0
  | uleb128 _ => 0x1
  | udata2 _ => 0x2
  | udata4 _ => 0x3
  | udata8 _ => 0x4
  | sleb128 _ => 0x9
  | sdata2 _ => 0xa
  | sdata4 _ => 0xb
  | sdata8 _ => 0xc

def bytes (order : ByteOrder) (addressSize : Nat) : Value → List UInt8
  | absptr address => order.encode addressSize address
  | uleb128 number | sleb128 number => number.bytes
  | udata2 value | sdata2 value => order.encode 2 value.toNat
  | udata4 value | sdata4 value => order.encode 4 value.toNat
  | udata8 value | sdata8 value => order.encode 8 value.toNat

def toInt : Value → Int
  | absptr address => address
  | uleb128 number => number.unsigned
  | udata2 value => value.toNat
  | udata4 value => value.toNat
  | udata8 value => value.toNat
  | sleb128 number => number.signed
  | sdata2 value => value.toInt
  | sdata4 value => value.toInt
  | sdata8 value => value.toInt

def Fits (addressSize : Nat) : Value → Prop
  | absptr address => address < 256 ^ addressSize
  | _ => True

def Readable : Value → Prop
  | uleb128 number => number.size ≤ 10
  | sleb128 number => SignedReadable number
  | _ => True

instance (value : Value) : Decidable value.Readable := by
  cases value <;> unfold Readable <;> infer_instance

end Value

def pointer (application : Application) (addressSize : AddressSize) (pcRelAddr textAddr dataAddr offset : Nat)
    (value : Value) : Nat :=
  ((application.base pcRelAddr textAddr dataAddr offset + value.toInt) % 2 ^ (8 * addressSize.bytes)).toNat

/-! What the code reads. -/

theorem signExtended_eq {width : Nat} (value : BitVec width) :
    signExtended width value.toNat = (value.toInt % 2 ^ 64).toNat := by
  rw [signExtended, BitVec.toInt_eq_toNat_bmod]

theorem toNat_eq {width : Nat} (value : BitVec width) (small : width ≤ 64) :
    ((value.toNat : Int) % 2 ^ 64).toNat = value.toNat := by
  have room : 2 ^ width ≤ 2 ^ 64 := Nat.pow_le_pow_right (by decide) small
  omega

theorem bmod_emod (value : Int) : value.bmod (2 ^ 64) % 2 ^ 64 = value % 2 ^ 64 := @Int.bmod_emod value (2 ^ 64)

variable {data : DataExtractor} {offset : Nat}

/-- A value of fixed size, which is read as what `make` makes of it. -/
theorem read_fixed_eq {size value : Nat} (fits : value < 256 ^ size)
    (at_ : data.At offset (data.byteOrder.encode size value)) {make : Nat → Nat} {whole : Int}
    (same : make value = (whole % 2 ^ 64).toNat) :
    (do return make (← data.getMaxU64 size) : Cursor Nat) offset =
      some ((whole % 2 ^ 64).toNat, offset + (data.byteOrder.encode size value).length) := by
  rw [read_fixed fits at_, same]

theorem getEncodedValue_at {value : Value} (fits : value.Fits data.addrSize)
    (at_ : data.At offset (value.bytes data.byteOrder data.addrSize)) (narrow : data.addrSize ≤ 8) :
    getEncodedValue data value.format offset = if value.Readable then some ((value.toInt % 2 ^ 64).toNat,
        offset + (value.bytes data.byteOrder data.addrSize).length)
      else none := by
  have plain (size : Nat) : (do return id (← data.getMaxU64 size) : Cursor Nat) = data.getMaxU64 size := bind_pure _
  cases value with
  | absptr address =>
    have bound : 256 ^ data.addrSize ≤ 256 ^ 8 := Nat.pow_le_pow_right (by decide) narrow
    have small : address < 256 ^ data.addrSize := fits
    refine (congrFun (plain data.addrSize).symm offset).trans (read_fixed_eq fits at_ ?_)
    change address = ((address : Int) % 2 ^ 64).toNat
    omega
  | uleb128 number =>
    change data.getULEB128 offset =
      if number.size ≤ 10 then some (((number.unsigned : Int) % 2 ^ 64).toNat, offset + number.bytes.length) else none
    rw [getULEB128_at at_, Leb128.length_bytes]
    norm_cast
  | udata2 value =>
    exact (congrFun (plain 2).symm offset).trans
      (read_fixed_eq value.isLt at_ (toNat_eq value (by decide)).symm)
  | udata4 value =>
    exact (congrFun (plain 4).symm offset).trans
      (read_fixed_eq value.isLt at_ (toNat_eq value (by decide)).symm)
  | udata8 value =>
    exact (congrFun (plain 8).symm offset).trans
      (read_fixed_eq value.isLt at_ (toNat_eq value (by decide)).symm)
  | sleb128 number =>
    change (do return ((← data.getSLEB128) % 2 ^ 64).toNat : Cursor Nat) offset =
      if SignedReadable number then some ((number.signed % 2 ^ 64).toNat, offset + number.bytes.length) else none
    refine (read_signed at_ fun read => (read % 2 ^ 64).toNat).trans ?_
    rw [bmod_emod]
  | sdata2 value => exact read_fixed_eq value.isLt at_ (signExtended_eq value)
  | sdata4 value => exact read_fixed_eq value.isLt at_ (signExtended_eq value)
  | sdata8 value =>
    refine (congrFun (plain 8).symm offset).trans (read_fixed_eq value.isLt at_ ?_)
    change value.toNat = (value.toInt % 2 ^ 64).toNat
    rw [BitVec.toInt_eq_toNat_bmod, bmod_emod, toNat_eq value le_rfl]

/-! What the code adds up. -/

def negative (value : Int) : Bool := (value % 2 ^ 64).toNat.testBit 31

/-- The value as it is added to a base: with addresses of four bytes, bit 31 of it is its sign. -/
def promoted (application : Application) (addressSize : AddressSize) (value : Int) : Int :=
  if application.relative && addressSize = .four && negative value then value.bmod (2 ^ 32) else value

def InRange (application : Application) (addressSize : AddressSize) (pcRelAddr textAddr dataAddr offset : Nat)
    (value : Value) : Prop :=
  addressSize = .eight ∨
    (application.base pcRelAddr textAddr dataAddr offset + promoted application addressSize value.toInt) %
      2 ^ 64 < 2 ^ 32

instance (application : Application) (addressSize : AddressSize) (pcRelAddr textAddr dataAddr offset : Nat)
    (value : Value) :
    Decidable (InRange application addressSize pcRelAddr textAddr dataAddr offset value) :=
      inferInstanceAs (Decidable (_ ∨ _))

theorem or_mask {value : Nat} (bound : value < 2 ^ 64) :
    value ||| (2 ^ 64 - 2 ^ 31) = 2 ^ 64 - 2 ^ 31 + value % 2 ^ 31 := by
  have low : value % 2 ^ 31 < 2 ^ 31 := Nat.mod_lt _ (by decide)
  rw [show 2 ^ 64 - 2 ^ 31 = 2 ^ 31 * (2 ^ 33 - 1) by decide, Nat.two_pow_add_eq_or_of_lt low]
  apply Nat.eq_of_testBit_eq
  intro index
  rw [Nat.testBit_or, Nat.testBit_or, Nat.testBit_two_pow_mul, Nat.testBit_two_pow_sub_one, Nat.testBit_mod_two_pow]
  by_cases early : index < 31
  · have outside : decide (31 ≤ index) = false := decide_eq_false (by omega)
    simp [outside, decide_eq_true early]
  · by_cases inside : index < 64
    · have set_ : (decide (31 ≤ index) && decide (index - 31 < 33)) = true := by
        rw [Bool.and_eq_true, decide_eq_true_eq, decide_eq_true_eq]
        omega
      simp [set_]
    · have clear : value.testBit index = false :=
        Nat.testBit_lt_two_pow (bound.trans_le (Nat.pow_le_pow_right (by decide) (Nat.le_of_not_lt inside)))
      simp [clear]

theorem or_mask_emod {value : Int} (isNegative : negative value = true) :
    (((value % 2 ^ 64).toNat ||| (2 ^ 64 - 2 ^ 31) : Nat) : Int) = value.bmod (2 ^ 32) % 2 ^ 64 := by
  have bound : (value % 2 ^ 64).toNat < 2 ^ 64 := by omega
  have bit : (value % 2 ^ 64).toNat / 2 ^ 31 % 2 = 1 := by
    have is : (value % 2 ^ 64).toNat.testBit 31 = true := isNegative
    rw [Nat.testBit_eq_decide_div_mod_eq, decide_eq_true_eq] at is
    exact is
  rw [or_mask bound, Int.bmod_def]
  omega

variable (application : Application)

theorem sum_eq (addressSize : AddressSize) (base : Nat) (value : Int) :
    (if application.relative = true ∧ addressSize.bytes < 8 ∧
      2 ^ (addressSize.bytes * 8 - 1) &&& (value % 2 ^ 64).toNat ≠ 0 then
      (base + ((value % 2 ^ 64).toNat ||| (2 ^ 64 - 2 ^ (addressSize.bytes * 8 - 1)))) % 2 ^ 64
    else (base + (value % 2 ^ 64).toNat) % 2 ^ 64) =
      ((base + promoted application addressSize value) % 2 ^ 64).toNat := by
  have plain : (base + (value % 2 ^ 64).toNat) % 2 ^ 64 = ((base + value) % 2 ^ 64).toNat := by omega
  unfold promoted
  cases addressSize with
  | eight =>
    have wide : ¬ (application.relative && decide (AddressSize.eight = .four) && negative value) = true := by
      rw [decide_eq_false (by decide), Bool.and_false]
      exact Bool.false_ne_true
    rw [if_neg fun both => absurd both.2.1 (by decide), if_neg wide, plain]
  | four =>
    have bit : 2 ^ (AddressSize.four.bytes * 8 - 1) &&& (value % 2 ^ 64).toNat ≠ 0 ↔ negative value = true := by
      rw [Nat.and_comm, show AddressSize.four.bytes * 8 - 1 = 31 from rfl, Nat.and_two_pow, negative]
      cases (value % 2 ^ 64).toNat.testBit 31 <;> simp
    have same : (application.relative && decide (AddressSize.four = .four) && negative value) = true ↔
        application.relative = true ∧ AddressSize.four.bytes < 8 ∧
          2 ^ (AddressSize.four.bytes * 8 - 1) &&& (value % 2 ^ 64).toNat ≠ 0 := by
      rw [bit, decide_eq_true rfl, Bool.and_true, Bool.and_eq_true]
      exact and_congr_right fun _ => (and_iff_right (by decide)).symm
    by_cases extends_ : application.relative = true ∧ AddressSize.four.bytes < 8 ∧
        2 ^ (AddressSize.four.bytes * 8 - 1) &&& (value % 2 ^ 64).toNat ≠ 0
    · have mask := or_mask_emod (bit.mp extends_.2.2)
      rw [if_pos extends_, if_pos (same.mpr extends_), show AddressSize.four.bytes * 8 - 1 = 31 from rfl]
      omega
    · rw [if_neg extends_, if_neg (mt same.mp extends_), plain]

/-! The encodings. -/

def encoding (application : Application) (value : Value) : Nat := application.code ||| value.format

theorem encoding_parts (value : Value) :
    encoding application value &&& 0x70 = application.code ∧ encoding application value &&& 0x0f = value.format ∧
      encoding application value ≠ 0xff := by
  have parts : ∀ application : Application, ∀ format ∈ [0x0, 0x1, 0x2, 0x3, 0x4, 0x9, 0xa, 0xb, 0xc],
      (application.code ||| format) &&& 0x70 = application.code ∧ (application.code ||| format) &&& 0x0f = format ∧
        application.code ||| format ≠ 0xff := by
    intro application
    cases application <;> decide
  have known : value.format ∈ [0x0, 0x1, 0x2, 0x3, 0x4, 0x9, 0xa, 0xb, 0xc] := by
    cases value <;> simp [Value.format]
  exact parts application value.format known

theorem code_relative :
    application.code ∈ [0x10, 0x20, 0x30, 0x40] ↔ application.relative = true := by
  cases application <;> decide

theorem start_of_aligned {application : Application} {addressSize : Nat}
    (aligned : application = .aligned → offset % addressSize = 0) :
    application.start addressSize offset = offset := by
  cases application with
  | aligned =>
    simp [Application.start, aligned rfl]
  | absptr | pcrel | textrel | datarel | funcrel => rfl

/-- What the code makes of an encoded pointer; it does not come behind the padding of an aligned one. -/
theorem getGNUEHPointer_eq {addressSize : AddressSize} (size : data.addrSize = addressSize.bytes)
    {application : Application} {value : Value} (fits : value.Fits addressSize.bytes)
    (at_ : data.At (application.start addressSize.bytes offset) (value.bytes data.byteOrder addressSize.bytes))
    (pcRelAddr textAddr dataAddr : Nat) :
    getGNUEHPointer data (encoding application value) pcRelAddr textAddr dataAddr offset =
      if application = .aligned ∧ offset % addressSize.bytes ≠ 0 then none
      else if value.Readable then
        some (((application.base pcRelAddr textAddr dataAddr offset + promoted application addressSize value.toInt) %
          2 ^ 64).toNat,
          offset + (value.bytes data.byteOrder addressSize.bytes).length)
      else none := by
  obtain ⟨applied, formatted, notOmitted⟩ := encoding_parts application value
  have positive : data.addrSize ≠ 0 := by
    rw [size]
    cases addressSize <;> decide
  have isAligned : application.code = 0x50 ↔ application = .aligned := by cases application <;> decide
  have stuck : (application.code = 0x50 ∧ data.addrSize ≠ 0 ∧ offset % data.addrSize ≠ 0) ↔
      application = .aligned ∧ offset % addressSize.bytes ≠ 0 := by
    rw [isAligned, and_iff_right positive, size]
  unfold getGNUEHPointer
  rw [if_neg notOmitted]
  simp only [applied, formatted, stuck, code_relative]
  by_cases misaligned : application = .aligned ∧ offset % addressSize.bytes ≠ 0
  · simp [if_pos misaligned]
  · rw [if_neg misaligned, if_neg misaligned]
    rw [start_of_aligned fun isAligned => by_contra fun other => misaligned ⟨isAligned, other⟩, ← size] at at_
    rw [getEncodedValue_at (size ▸ fits) at_ (by rw [size]; cases addressSize <;> decide), size]
    by_cases readable : value.Readable
    · have sum := sum_eq application addressSize (application.base pcRelAddr textAddr dataAddr offset) value.toInt
      rw [if_pos readable, ← sum]
      change (if application.relative = true ∧ addressSize.bytes < 8 ∧
          2 ^ (addressSize.bytes * 8 - 1) &&& (value.toInt % 2 ^ 64).toNat ≠ 0 then some (_, _) else some (_, _)) = _
      -- The base of the code is that of the application.
      split
      all_goals
        refine congrArg (fun base => some ((base + _) % 2 ^ 64, _)) ?_
        cases application with
        | pcrel =>
          change (if pcRelAddr ≠ CallFrame.invalidAddress then offset + pcRelAddr else offset) =
            offset + if pcRelAddr ≠ CallFrame.invalidAddress then pcRelAddr else 0
          split <;> rfl
        | absptr | textrel | datarel | funcrel | aligned => rfl
    · simp [if_neg readable]

theorem promoted_bmod (value : Int) :
    promoted application .four value % 2 ^ 32 = value % 2 ^ 32 := by
  unfold promoted
  split
  · exact @Int.bmod_emod value (2 ^ 32)
  · rfl

theorem sum_eq_pointer_iff (addressSize : AddressSize)
    (pcRelAddr textAddr dataAddr offset : Nat)
    (value : Value) :
    ((application.base pcRelAddr textAddr dataAddr offset + promoted application addressSize value.toInt) %
      2 ^ 64).toNat = pointer application addressSize pcRelAddr textAddr dataAddr offset value ↔
      InRange application addressSize pcRelAddr textAddr dataAddr offset value := by
  unfold pointer InRange
  cases addressSize with
  | eight =>
    have same : promoted application .eight value.toInt = value.toInt := by
      rw [promoted, decide_eq_false (by decide), Bool.and_false, Bool.false_and, if_neg Bool.false_ne_true]
    rw [same]
    exact iff_of_true rfl (.inl rfl)
  | four =>
    have same := promoted_bmod application value.toInt
    rw [show 8 * AddressSize.four.bytes = 32 from rfl]
    constructor
    · intro equal
      exact .inr (by omega)
    · rintro (wide | small)
      · cases wide
      · omega

/-- What an encoded pointer decodes to, and when the code gives that. -/
theorem getGNUEHPointer_iff (front padding back : List UInt8) (order : ByteOrder) (addressSize : AddressSize)
    (application : Application)
    (value : Value) (pcRelAddr textAddr dataAddr : Nat) (fits : value.Fits addressSize.bytes)
    (padded : front.length + padding.length = application.start addressSize.bytes front.length) :
    getGNUEHPointer ⟨front ++ padding ++ value.bytes order addressSize.bytes ++ back, order, addressSize.bytes⟩
        (encoding application value) pcRelAddr textAddr dataAddr front.length =
      some (pointer application addressSize pcRelAddr textAddr dataAddr front.length value,
        front.length + padding.length + (value.bytes order addressSize.bytes).length) ↔
      (application = .aligned → padding = []) ∧ value.Readable ∧
        InRange application addressSize pcRelAddr textAddr dataAddr front.length value := by
  have at_ : (⟨front ++ padding ++ value.bytes order addressSize.bytes ++ back, order, addressSize.bytes⟩ :
    DataExtractor).At
      (application.start addressSize.bytes front.length) (value.bytes order addressSize.bytes) := by
    rw [← padded, ← length_append]
    refine ⟨back, ?_⟩
    simp
  have unpadded : ¬ (application = .aligned ∧ front.length % addressSize.bytes ≠ 0) ↔
      (application = .aligned → padding = []) := by
    rw [not_and]
    refine forall_congr' fun isAligned => ?_
    rw [isAligned, Application.start] at padded
    rw [← length_eq_zero_iff]
    cases addressSize with
    | four =>
      rw [show AddressSize.four.bytes = 4 from rfl] at padded ⊢
      omega
    | eight =>
      rw [show AddressSize.eight.bytes = 8 from rfl] at padded ⊢
      omega
  rw [getGNUEHPointer_eq rfl fits at_, ← unpadded, ← sum_eq_pointer_iff]
  by_cases misaligned : application = .aligned ∧ front.length % addressSize.bytes ≠ 0
  · rw [if_pos misaligned]
    exact iff_of_false nofun fun both => both.1 misaligned
  · have none_ : padding.length = 0 := by
      cases application with
      | aligned => rw [unpadded.mp misaligned rfl]; rfl
      | absptr | pcrel | textrel | datarel | funcrel =>
        change front.length + padding.length = front.length at padded
        omega
    rw [if_neg misaligned, none_, and_iff_right misaligned]
    by_cases readable : value.Readable
    · rw [if_pos readable, and_iff_right readable, Option.some_inj, Prod.mk.injEq]
      exact and_iff_left rfl
    · rw [if_neg readable]
      exact iff_of_false nofun fun both => readable both.1

theorem getGNUEHPointer_iff_pcrel :
    getGNUEHPointer ⟨[] ++ [] ++ (Value.sdata4 (-0x20)).bytes .little 4 ++ [], .little, 4⟩
        (encoding .pcrel (.sdata4 (-0x20))) 0x1000 CallFrame.invalidAddress CallFrame.invalidAddress 0 =
      some (pointer .pcrel .four 0x1000 CallFrame.invalidAddress CallFrame.invalidAddress 0 (.sdata4 (-0x20)), 0 + 0 + 4) :=
  (getGNUEHPointer_iff [] [] [] .little .four .pcrel (.sdata4 (-0x20)) 0x1000 CallFrame.invalidAddress
    CallFrame.invalidAddress trivial
    rfl).mpr ⟨nofun, trivial, by decide⟩

/-- Behind padding, an aligned pointer is read through a pointer that has been moved itself; a negative
number is not cut to the size of an address. -/
theorem getGNUEHPointer_not_exact : getGNUEHPointer ⟨[0xff, 0, 0, 0, 0, 0, 0, 0, 1, 0, 0, 0, 0, 0, 0, 0], .little, 8⟩
      (encoding .aligned (.absptr 1)) 0 0 0 1 ≠
        some (pointer .aligned .eight 0 0 0 1 (.absptr 1), 16) ∧
      getGNUEHPointer ⟨[0xff, 0xff, 0xff, 0xff], .little, 4⟩ (encoding .absptr (.sdata4 0xffffffff)) 0 0 0 0 =
        some (2 ^ 64 - 1, 4) ∧
      pointer .absptr .four 0 0 0 0 (.sdata4 0xffffffff) = 2 ^ 32 - 1 := by
  decide

end EHPointer

end Lldb
