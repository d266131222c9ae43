import Mathlib.Data.BitVec

/-! `Scalar`: integers of the C types that the integer opcodes of an expression make, where
`uint64_t` is `unsigned long`. Their `APInt`s are bit vectors in two's complement.
-/

set_option autoImplicit false

namespace Lldb

inductive ScalarType where
  | void
  | sint
  | uint
  | slong
  | ulong
  deriving DecidableEq, Repr

namespace ScalarType

def width : ScalarType → Nat
  | void => 1
  | sint | uint => 32
  | slong | ulong => 64

def isSigned : ScalarType → Bool
  | sint | slong => true
  | void | uint | ulong => false

def rank : ScalarType → Nat
  | void => 0
  | sint => 1
  | uint => 2
  | slong => 3
  | ulong => 4

end ScalarType

structure Scalar where
  type : ScalarType
  integer : BitVec type.width
  deriving DecidableEq, Repr

namespace Scalar

def void : Scalar := ⟨.void, 0⟩

def ofInt (value : BitVec 32) : Scalar := ⟨.sint, value⟩

def ofUInt (value : BitVec 32) : Scalar := ⟨.uint, value⟩

def ofLong (value : BitVec 64) : Scalar := ⟨.slong, value⟩

def ofULong (value : BitVec 64) : Scalar := ⟨.ulong, value⟩

/-- `true` and `false` are assigned as ints. -/
def ofBool (value : Bool) : Scalar := ofInt (if value then 1 else 0)

variable (scalar : Scalar)

def isValid : Bool := scalar.type ≠ .void

def isZero : Bool := scalar.type ≠ .void ∧ scalar.integer = 0

def extend (type : ScalarType) : BitVec type.width :=
  if scalar.type.isSigned then scalar.integer.signExtend type.width else scalar.integer.setWidth type.width

def promote (type : ScalarType) : Option Scalar :=
  if scalar.type ≠ .void ∧ scalar.type.rank ≤ type.rank then some ⟨type, scalar.extend type⟩ else none

/-- The type of both operands once the one of lower rank is promoted, or `void`. -/
def promoteToMaxType (lhs rhs : Scalar) : ScalarType :=
  if lhs.type.rank > rhs.type.rank then if (rhs.promote lhs.type).isSome then lhs.type else .void
  else if lhs.type.rank < rhs.type.rank then if (lhs.promote rhs.type).isSome then rhs.type else .void
  else lhs.type

def arithmetic (operation : (width : Nat) → BitVec width → BitVec width → BitVec width) (lhs rhs : Scalar) : Scalar :=
  let type := promoteToMaxType lhs rhs
  if type = .void then void else ⟨type, operation type.width (lhs.extend type) (rhs.extend type)⟩

def add : Scalar → Scalar → Scalar := arithmetic fun _ a b => a + b

def sub : Scalar → Scalar → Scalar := arithmetic fun _ a b => a - b

def mul : Scalar → Scalar → Scalar := arithmetic fun _ a b => a * b

def and : Scalar → Scalar → Scalar := arithmetic fun _ a b => a &&& b

def or : Scalar → Scalar → Scalar := arithmetic fun _ a b => a ||| b

def xor : Scalar → Scalar → Scalar := arithmetic fun _ a b => a ^^^ b

/-- Division and remainder: signed or unsigned by the type, and `void` for a zero. -/
def divide (signed unsigned : (width : Nat) → BitVec width → BitVec width → BitVec width) (lhs rhs : Scalar) : Scalar :=
  let type := promoteToMaxType lhs rhs
  if type = .void ∨ rhs.extend type = 0 then void
  else if type.isSigned then ⟨type, signed type.width (lhs.extend type) (rhs.extend type)⟩
  else ⟨type, unsigned type.width (lhs.extend type) (rhs.extend type)⟩

def div : Scalar → Scalar → Scalar := divide (fun _ a b => a.sdiv b) fun _ a b => a.udiv b

def rem : Scalar → Scalar → Scalar := divide (fun _ a b => a.srem b) fun _ a b => a.umod b

def shift (operation : (width : Nat) → BitVec width → Nat → BitVec width) (lhs rhs : Scalar) : Scalar :=
  if lhs.type = .void ∨ rhs.type = .void then void else ⟨lhs.type, operation lhs.type.width lhs.integer rhs.integer.toNat⟩

def shiftLeft : Scalar → Scalar → Scalar := shift fun _ a count => a <<< count

def shiftRight : Scalar → Scalar → Scalar := shift fun _ a count => a.sshiftRight count

def shiftRightLogical : Scalar → Scalar → Scalar := shift fun _ a count => a >>> count

def absoluteValue : Option Scalar :=
  if scalar.type = .void then none
  else if scalar.type.isSigned ∧ scalar.integer.msb then some ⟨scalar.type, -scalar.integer⟩
  else some scalar

def unaryNegate : Option Scalar :=
  if scalar.type = .void then none else some ⟨scalar.type, -scalar.integer⟩

def onesComplement : Option Scalar :=
  if scalar.type = .void then none else some ⟨scalar.type, ~~~scalar.integer⟩

def compare (signed unsigned : (width : Nat) → BitVec width → BitVec width → Bool) (lhs rhs : Scalar) : Bool :=
  let type := promoteToMaxType lhs rhs
  if type = .void then false
  else if type.isSigned then signed type.width (lhs.extend type) (rhs.extend type)
  else unsigned type.width (lhs.extend type) (rhs.extend type)

/-- Types that are both `void` are equal. -/
def eq (lhs rhs : Scalar) : Bool :=
  if lhs.type = .void ∨ rhs.type = .void then lhs.type = rhs.type
  else compare (fun _ a b => a == b) (fun _ a b => a == b) lhs rhs

def ne (lhs rhs : Scalar) : Bool := !eq lhs rhs

def lt : Scalar → Scalar → Bool := compare (fun _ a b => a.slt b) fun _ a b => a.ult b

def le : Scalar → Scalar → Bool := compare (fun _ a b => a.sle b) fun _ a b => a.ule b

def gt : Scalar → Scalar → Bool := compare (fun _ a b => b.slt a) fun _ a b => b.ult a

def ge : Scalar → Scalar → Bool := compare (fun _ a b => b.sle a) fun _ a b => b.ule a

end Scalar

end Lldb
