import Lldb.Utility.DataExtractor

/-! The stack machine of DWARF expressions on a target with 64-bit addresses: words of 64 bits,
and branches to the beginning of another operation.
-/

set_option autoImplicit false

namespace Lldb.DWARFExpression

open Library

abbrev Word := BitVec 64

inductive Constant where
  | lit (value : Fin 32)
  | const1u (value : BitVec 8)
  | const1s (value : BitVec 8)
  | const2u (value : BitVec 16)
  | const2s (value : BitVec 16)
  | const4u (value : BitVec 32)
  | const4s (value : BitVec 32)
  | const8u (value : BitVec 64)
  | const8s (value : BitVec 64)
  | constu (value : Leb128)
  | consts (value : Leb128)
  deriving DecidableEq, Repr

inductive UnaryOp where
  | abs
  | neg
  | not
  deriving DecidableEq, Repr

inductive BinaryOp where
  | and
  | div
  | minus
  | mod
  | mul
  | or
  | plus
  | shl
  | shr
  | shra
  | xor
  | eq
  | ge
  | gt
  | le
  | lt
  | ne
  deriving DecidableEq, Repr

inductive Operation where
  | constant (value : Constant)
  | dup
  | drop
  | over_
  | pick (index : BitVec 8)
  | swap
  | rot
  | unary (op : UnaryOp)
  | binary (op : BinaryOp)
  | plusUconst (value : Leb128)
  | skip (delta : BitVec 16)
  | bra (delta : BitVec 16)
  | nop
  deriving DecidableEq, Repr

namespace Constant

def opcode : Constant → UInt8
  | lit value => UInt8.ofNat (0x30 + value.val)
  | const1u _ => 0x08
  | const1s _ => 0x09
  | const2u _ => 0x0a
  | const2s _ => 0x0b
  | const4u _ => 0x0c
  | const4s _ => 0x0d
  | const8u _ => 0x0e
  | const8s _ => 0x0f
  | constu _ => 0x10
  | consts _ => 0x11

def operand (order : ByteOrder) : Constant → List UInt8
  | lit _ => []
  | const1u value | const1s value => order.encode 1 value.toNat
  | const2u value | const2s value => order.encode 2 value.toNat
  | const4u value | const4s value => order.encode 4 value.toNat
  | const8u value | const8s value => order.encode 8 value.toNat
  | constu value | consts value => value.bytes

def word : Constant → Word
  | lit value => BitVec.ofNat 64 value.val
  | const1u value => value.setWidth 64
  | const1s value => value.signExtend 64
  | const2u value => value.setWidth 64
  | const2s value => value.signExtend 64
  | const4u value => value.setWidth 64
  | const4s value => value.signExtend 64
  | const8u value | const8s value => value
  | constu value => BitVec.ofNat 64 value.unsigned
  | consts value => BitVec.ofInt 64 value.signed

end Constant

namespace UnaryOp

def opcode : UnaryOp → UInt8
  | abs => 0x19
  | neg => 0x1f
  | not => 0x20

def word (value : Word) : UnaryOp → Word
  | abs => if value.msb then -value else value
  | neg => -value
  | not => ~~~value

end UnaryOp

namespace BinaryOp

def opcode : BinaryOp → UInt8
  | and => 0x1a
  | div => 0x1b
  | minus => 0x1c
  | mod => 0x1d
  | mul => 0x1e
  | or => 0x21
  | plus => 0x22
  | shl => 0x24
  | shr => 0x25
  | shra => 0x26
  | xor => 0x27
  | eq => 0x29
  | ge => 0x2a
  | gt => 0x2b
  | le => 0x2c
  | lt => 0x2d
  | ne => 0x2e

def truth (holds : Bool) : Word := if holds then 1 else 0

def word (second top : Word) : BinaryOp → Word
  | and => second &&& top
  | div => second.sdiv top
  | minus => second - top
  | mod => second.umod top
  | mul => second * top
  | or => second ||| top
  | plus => second + top
  | shl => second <<< top.toNat
  | shr => second >>> top.toNat
  | shra => second.sshiftRight top.toNat
  | xor => second ^^^ top
  | eq => truth (second == top)
  | ge => truth (top.sle second)
  | gt => truth (top.slt second)
  | le => truth (second.sle top)
  | lt => truth (second.slt top)
  | ne => truth (second != top)

def divides : BinaryOp → Bool
  | div | mod => true
  | _ => false

end BinaryOp

namespace Operation

def opcode : Operation → UInt8
  | constant value => value.opcode
  | dup => 0x12
  | drop => 0x13
  | over_ => 0x14
  | pick _ => 0x15
  | swap => 0x16
  | rot => 0x17
  | unary op => op.opcode
  | binary op => op.opcode
  | plusUconst _ => 0x23
  | skip _ => 0x2f
  | bra _ => 0x28
  | nop => 0x96

def operand (order : ByteOrder) : Operation → List UInt8
  | constant value => value.operand order
  | pick index => order.encode 1 index.toNat
  | plusUconst value => value.bytes
  | skip delta | bra delta => order.encode 2 delta.toNat
  | dup | drop | over_ | swap | rot | unary _ | binary _ | nop => []

def encode (order : ByteOrder) (operation : Operation) : List UInt8 := operation.opcode :: operation.operand order

def stackAfter : Operation → List Word → Option (List Word)
  | constant value, stack => some (value.word :: stack)
  | dup, top :: rest => some (top :: top :: rest)
  | drop, _ :: rest => some rest
  | over_, top :: second :: rest => some (second :: top :: second :: rest)
  | pick index, stack => stack[index.toNat]?.map (· :: stack)
  | swap, top :: second :: rest => some (second :: top :: rest)
  | rot, top :: second :: third :: rest => some (second :: third :: top :: rest)
  | unary op, top :: rest => some (op.word top :: rest)
  | binary op, top :: second :: rest => if op.divides ∧ top = 0 then none else some (op.word second top :: rest)
  | plusUconst value, top :: rest => some ((top + BitVec.ofNat 64 value.unsigned) :: rest)
  | skip _, stack => some stack
  | bra _, _ :: rest => some rest
  | nop, stack => some stack
  | _, _ => none

def jump : Operation → List Word → Option (BitVec 16)
  | skip delta, _ => some delta
  | bra delta, top :: _ => if top = 0 then none else some delta
  | _, _ => none

end Operation

def encodeAll (order : ByteOrder) (expression : List Operation) : List UInt8 := expression.flatMap (Operation.encode order)

def offsetOf (order : ByteOrder) (expression : List Operation) (index : Nat) : Nat :=
  (encodeAll order (expression.take index)).length

def indexAt (order : ByteOrder) (expression : List Operation) (offset : Int) : Option Nat :=
  (List.range expression.length).find? fun index => offsetOf order expression index = offset

structure Machine where
  index : Nat
  stack : List Word
  deriving DecidableEq, Repr

namespace Machine

variable (order : ByteOrder) (expression : List Operation)

def start : Machine := ⟨0, []⟩

def nextIndex (machine : Machine) (operation : Operation) : Option Nat :=
  match operation.jump machine.stack with
  | none => some (machine.index + 1)
  | some delta => indexAt order expression (offsetOf order expression (machine.index + 1) + delta.toInt)

/-- The next state; `none` at the end, and where the machine has no meaning to give. -/
def step (machine : Machine) : Option Machine := do
  let operation ← expression[machine.index]?
  let stack ← operation.stackAfter machine.stack
  let index ← machine.nextIndex order expression operation
  return ⟨index, stack⟩

def run : Nat → Machine → Option Machine
  | 0, machine => some machine
  | count + 1, machine => do run count (← machine.step order expression)

end Machine

end Lldb.DWARFExpression
