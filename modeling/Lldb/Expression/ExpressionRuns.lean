import Lldb.Expression.ExpressionSteps

/-! Runs of the evaluation: while every operation finds exact scalars, the stacks stand for those
of the stack machine, and the value on top is the machine's.
-/

set_option autoImplicit false

namespace Lldb.DWARFExpression

open Library DataExtractor List Option

section Layout

variable (order : ByteOrder) (expression : List Operation)

theorem encodeAll_append (front back : List Operation) :
    encodeAll order (front ++ back) = encodeAll order front ++ encodeAll order back := flatMap_append

variable {order expression}

variable {index : Nat}

theorem encodeAll_split {operation : Operation} (there : expression[index]? = some operation) :
    encodeAll order expression = encodeAll order (expression.take index) ++
      (operation.encode order ++ encodeAll order (expression.drop (index + 1))) := by
  obtain ⟨inside, rfl⟩ := List.getElem?_eq_some_iff.mp there
  calc encodeAll order expression = encodeAll order (expression.take index ++ expression.drop index) := by
        rw [take_append_drop]
    _ = encodeAll order (expression.take index) ++ encodeAll order (expression.drop index) := encodeAll_append _ _ _
    _ = _ := by
        rw [drop_eq_getElem_cons inside]
        rfl

theorem offsetOf_succ {operation : Operation} (there : expression[index]? = some operation) :
    offsetOf order expression (index + 1) = offsetOf order expression index + (operation.encode order).length := by
  unfold offsetOf
  rw [take_add_one, there]
  simp [encodeAll]

theorem offsetOf_length : offsetOf order expression expression.length = (encodeAll order expression).length := by
  unfold offsetOf
  rw [take_length]

theorem offsetOf_lt (inside : index < expression.length) :
    offsetOf order expression index < (encodeAll order expression).length := by
  have split : encodeAll order expression = _ := encodeAll_split (getElem?_eq_getElem inside)
  have lengths := congrArg List.length split
  simp only [length_append, Operation.encode, length_cons] at lengths
  unfold offsetOf
  omega

theorem indexAt_some {offset : Int} (found : indexAt order expression offset = some index) :
    index < expression.length ∧ offsetOf order expression index = offset := by
  have there := find?_some found
  exact ⟨mem_range.mp (mem_of_find?_eq_some found), of_decide_eq_true there⟩

end Layout

structure Holds (data : DataExtractor) (opcodesOffset : Nat) (expression : List Operation) : Prop where
  encoded : data.At opcodesOffset (encodeAll data.byteOrder expression)
  small : data.bytes.length < 2 ^ 64

structure Follows (data : DataExtractor) (opcodesOffset : Nat) (expression : List Operation) (machine : Machine)
    (stack : Stack) (offset : Nat) : Prop where
  offset : offset = opcodesOffset + offsetOf data.byteOrder expression machine.index
  words : Words stack machine.stack

variable {data : DataExtractor} {opcodesOffset : Nat} {expression : List Operation}

variable (holds : Holds data opcodesOffset expression)
include holds

theorem Holds.operation_at {index : Nat} {operation : Operation} (there : expression[index]? = some operation) :
    data.At (opcodesOffset + offsetOf data.byteOrder expression index) (operation.encode data.byteOrder) := by
  have encoded := holds.encoded
  rw [encodeAll_split there] at encoded
  exact encoded.right.left

theorem Holds.bound {index : Nat} (inside : index < expression.length) :
    opcodesOffset + offsetOf data.byteOrder expression index < 2 ^ 64 := by
  have bound := holds.encoded.bound
  have below : offsetOf data.byteOrder expression index < _ := offsetOf_lt inside
  have small := holds.small
  omega

variable {other : Nat → Stack → Evaluation Stack}

variable {machine next : Machine} {stack : Stack} {offset count : Nat}

theorem evaluateNext_follows (follows : Follows data opcodesOffset expression machine stack offset)
    (exact_ : ∀ operation, expression[machine.index]? = some operation → operation.Exact stack)
    (steps : machine.step data.byteOrder expression = some next) :
    ∃ after target, evaluateNext data opcodesOffset (opcodesOffset + (encodeAll data.byteOrder expression).length) other
        stack offset = some (.ok after, target) ∧ Follows data opcodesOffset expression next after target := by
  obtain ⟨operation, there, steps⟩ := bind_eq_some_iff.mp steps
  obtain ⟨words, becomes, steps⟩ := bind_eq_some_iff.mp steps
  obtain ⟨index, leads, made⟩ := bind_eq_some_iff.mp steps
  cases made
  obtain ⟨rfl, words_⟩ := follows
  have encoded : data.At _ ([operation.opcode] ++ operation.operand data.byteOrder) := holds.operation_at there
  have ends : offsetOf data.byteOrder expression (machine.index + 1) = _ := offsetOf_succ there
  have falls : operation.jump machine.stack = none → opcodesOffset + offsetOf data.byteOrder expression index =
      opcodesOffset + offsetOf data.byteOrder expression machine.index + 1 + (operation.operand data.byteOrder).length := by
    intro stays
    rw [Machine.nextIndex, stays] at leads
    cases leads
    rw [ends, Operation.encode, length_cons]
    omega
  have branches (delta : BitVec 16) (jumps : operation.jump machine.stack = some delta) :
      Branches opcodesOffset (opcodesOffset + (encodeAll data.byteOrder expression).length)
        (opcodesOffset + offsetOf data.byteOrder expression machine.index + 1 + (operation.operand data.byteOrder).length)
        (opcodesOffset + offsetOf data.byteOrder expression index) delta := by
    rw [Machine.nextIndex, jumps] at leads
    obtain ⟨inside, lands⟩ := indexAt_some leads
    rw [Operation.encode, length_cons] at ends
    exact ⟨by omega, holds.bound inside, by omega, Nat.add_lt_add_left (offsetOf_lt inside) _⟩
  obtain ⟨after, result, denotes⟩ :=
    evaluateOpcode_at words_ becomes (exact_ operation there) encoded.right falls branches
  exact ⟨after, _, (read_then _ (getU8_at encoded.left)).trans result, rfl, denotes⟩

omit holds

variable (data opcodesOffset expression other) in
def rounds : Nat → Stack → Evaluation Stack
  | 0, stack => return stack
  | count + 1, stack => do
    rounds count (← evaluateNext data opcodesOffset (opcodesOffset + (encodeAll data.byteOrder expression).length) other
      stack)

variable (data opcodesOffset expression other) in
/-- Before each of the first rounds, the scalars on the stack suit the operation. -/
def ExactRun (count : Nat) (machine : Machine) (stack : Stack) (offset : Nat) : Prop :=
  ∀ k < count, ∀ reached before place operation, machine.run data.byteOrder expression k = some reached →
    rounds data opcodesOffset expression other k stack offset = some (.ok before, place) →
    expression[reached.index]? = some operation → operation.Exact before

theorem ExactRun.first (exact_ : ExactRun data opcodesOffset expression other (count + 1) machine stack offset) :
    ∀ operation, expression[machine.index]? = some operation → operation.Exact stack :=
  fun operation there => exact_ 0 (Nat.succ_pos count) machine stack offset operation rfl rfl there

theorem ExactRun.rest {target : Nat} {after : Stack}
    (exact_ : ExactRun data opcodesOffset expression other (count + 1) machine stack offset)
    (steps : machine.step data.byteOrder expression = some next)
    (round : evaluateNext data opcodesOffset (opcodesOffset + (encodeAll data.byteOrder expression).length) other
      stack offset = some (.ok after, target)) :
    ExactRun data opcodesOffset expression other count next after target := by
  intro k below reached before place operation runs reads there
  refine exact_ (k + 1) (Nat.succ_lt_succ below) reached before place operation ?_ ?_ there
  · rw [Machine.run, steps]
    exact runs
  · refine Eq.trans ?_ reads
    change (evaluateNext data opcodesOffset _ other stack offset).bind _ = _
    rw [round]
    rfl

theorem rounds_follow (holds : Holds data opcodesOffset expression) {final : Machine}
    (follows : Follows data opcodesOffset expression machine stack offset)
    (exact_ : ExactRun data opcodesOffset expression other count machine stack offset)
    (runs : machine.run data.byteOrder expression count = some final) :
    ∃ after target, rounds data opcodesOffset expression other count stack offset = some (.ok after, target) ∧
      Follows data opcodesOffset expression final after target := by
  induction count generalizing machine stack offset with
  | zero =>
    cases runs
    exact ⟨stack, offset, rfl, follows⟩
  | succ count ih =>
    obtain ⟨next, steps, runs⟩ := bind_eq_some_iff.mp runs
    obtain ⟨after, target, round, follows⟩ := evaluateNext_follows holds follows exact_.first steps
    obtain ⟨last, place, reads, follows⟩ := ih follows (exact_.rest steps round) runs
    refine ⟨last, place, ?_, follows⟩
    change (evaluateNext data opcodesOffset _ other stack offset).bind _ = _
    rw [round]
    exact reads

theorem index_lt_of_step {order : ByteOrder}
    (steps : machine.step order expression = some next) : machine.index < expression.length := by
  obtain ⟨operation, there, -⟩ := bind_eq_some_iff.mp steps
  exact (List.getElem?_eq_some_iff.mp there).1

theorem evaluateLoop_follows (holds : Holds data opcodesOffset expression) {fuel : Nat} {final : Machine}
    (follows : Follows data opcodesOffset expression machine stack offset)
    (exact_ : ExactRun data opcodesOffset expression other count machine stack offset)
    (runs : machine.run data.byteOrder expression count = some final) (ends : final.index = expression.length)
    (enough : count < fuel) :
    ∃ after target, evaluateLoop data opcodesOffset (opcodesOffset + (encodeAll data.byteOrder expression).length) other
        fuel stack offset = some (.ok after, target) ∧ Words after final.stack := by
  obtain ⟨fuel, rfl⟩ : ∃ less, fuel = less + 1 := ⟨fuel - 1, by omega⟩
  induction count generalizing machine stack offset fuel with
  | zero =>
    cases runs
    have stops : ¬ offset < opcodesOffset + (encodeAll data.byteOrder expression).length := by
      rw [follows.offset, ends, offsetOf_length]
      exact lt_irrefl _
    refine ⟨stack, offset, ?_, follows.words⟩
    change (if _ ∧ _ then _ else _ : Evaluation Stack) offset = _
    rw [if_neg fun goes => stops goes.2]
    rfl
  | succ count ih =>
    obtain ⟨next, steps, runs⟩ := bind_eq_some_iff.mp runs
    obtain ⟨after, target, round, further⟩ := evaluateNext_follows holds follows exact_.first steps
    obtain ⟨fuel, rfl⟩ : ∃ less, fuel = less + 1 := ⟨fuel - 1, by omega⟩
    obtain ⟨last, place, reads, words⟩ := ih further (exact_.rest steps round) runs fuel (by omega)
    have below : offsetOf data.byteOrder expression machine.index < _ := offsetOf_lt (index_lt_of_step steps)
    have bound := holds.encoded.bound
    have valid : data.validOffset offset := by
      rw [validOffset, decide_eq_true_iff, follows.offset]
      omega
    have inside : offset < opcodesOffset + (encodeAll data.byteOrder expression).length := by
      rw [follows.offset]
      omega
    refine ⟨last, place, ?_, words⟩
    change (if _ ∧ _ then _ else _ : Evaluation Stack) offset = _
    rw [if_pos ⟨valid, inside⟩]
    change (evaluateNext data opcodesOffset _ other stack offset).bind _ = _
    rw [round]
    exact reads

theorem evaluate_eq (holds : Holds data opcodesOffset expression) (nonempty : expression ≠ [])
    {initialValue : Option Scalar} {fuel target : Nat} {top : Scalar} {rest : Stack}
    (loop : evaluateLoop data opcodesOffset (opcodesOffset + (encodeAll data.byteOrder expression).length) other fuel
      initialValue.toList opcodesOffset = some (.ok (top :: rest), target)) :
    evaluate data opcodesOffset other (encodeAll data.byteOrder expression).length initialValue fuel = some (.ok top) := by
  have some_ : offsetOf data.byteOrder expression 0 < _ := offsetOf_lt (length_pos_iff.mpr nonempty)
  unfold evaluate
  have fits : data.validOffsetForDataOfSize opcodesOffset (encodeAll data.byteOrder expression).length :=
    decide_eq_true holds.encoded.bound
  rw [if_neg (by omega), if_neg (not_not.mpr fits), loop]
  rfl

/-- The value on top at the end is the machine's, and every stack before it stands for the
machine's, when each operation of the run finds scalars that suit it.
-/
theorem evaluate_follows_stack_machine (holds : Holds data opcodesOffset expression) (nonempty : expression ≠ [])
    {initialValue : Option Scalar} {words : List Word} (initial : Words initialValue.toList words)
    {count : Nat} {final : Machine} {word : Word} {rest : List Word}
    (runs : (Machine.mk 0 words).run data.byteOrder expression count = some final)
    (ends : final.index = expression.length) (top : final.stack = word :: rest)
    (exact_ : ExactRun data opcodesOffset expression other count ⟨0, words⟩ initialValue.toList opcodesOffset) :
    (∀ k ≤ count, ∀ reached, (Machine.mk 0 words).run data.byteOrder expression k = some reached →
      ∃ stack offset, rounds data opcodesOffset expression other k initialValue.toList opcodesOffset =
        some (.ok stack, offset) ∧ Words stack reached.stack) ∧
    ∀ fuel > count, ∃ scalar,
      evaluate data opcodesOffset other (encodeAll data.byteOrder expression).length initialValue fuel =
        some (.ok scalar) ∧ scalar.Denotes word := by
  have begins : Follows data opcodesOffset expression ⟨0, words⟩ initialValue.toList opcodesOffset := ⟨rfl, initial⟩
  constructor
  · intro k le reached runs
    have exact_ : ExactRun data opcodesOffset expression other k ⟨0, words⟩ initialValue.toList opcodesOffset :=
      fun earlier below => exact_ earlier (by omega)
    obtain ⟨stack, offset, reads, follows⟩ := rounds_follow holds begins exact_ runs
    exact ⟨stack, offset, reads, follows.words⟩
  · intro fuel enough
    obtain ⟨after, target, loop, follows⟩ := evaluateLoop_follows holds begins exact_ runs ends enough
    rw [top] at follows
    cases follows with
    | cons denotes _ => exact ⟨_, evaluate_eq holds nonempty loop, denotes⟩

/-- `lit5 const1u(7) plus` gives 12. -/
theorem evaluate_follows_stack_machine_plus : let data : DataExtractor := ⟨[0x35, 0x08, 7, 0x22], .little, 8⟩
    ∀ fuel > 3, ∃ scalar, evaluate data 0 (fun _ _ => throw "") 4 none fuel = some (.ok scalar) ∧ scalar.Denotes 12 := by
  intro data
  let expression : List Operation := [.constant (.lit 5), .constant (.const1u 7), .binary .plus]
  have holds : Holds data 0 expression := ⟨by unfold DataExtractor.At; decide, by decide⟩
  have runs : (Machine.mk 0 []).run .little expression 3 = some ⟨3, [12]⟩ := rfl
  refine (evaluate_follows_stack_machine holds (by decide) .nil runs rfl rfl ?_).2
  intro k below reached before place operation runs reads there
  interval_cases k
  · cases runs
    cases there
    trivial
  · cases runs
    cases there
    trivial
  · cases runs
    cases there
    cases reads
    decide

/-- `lit5 lit7 pick(0)` copies the value at the bottom, not the one on top. -/
theorem expression_not_always_follows_stack_machine : let data : DataExtractor := ⟨[0x35, 0x37, 0x15, 0], .little, 8⟩
    let expression : List Operation := [.constant (.lit 5), .constant (.lit 7), .pick 0]
    Holds data 0 expression ∧ Machine.start.run .little expression 3 = some ⟨3, [7, 7, 5]⟩ ∧
      ∀ other, evaluate data 0 other 4 none 4 = some (.ok (.ofInt 5)) ∧ ¬ (Scalar.ofInt 5).Denotes 7 := by
  refine ⟨⟨by unfold DataExtractor.At; decide, by decide⟩, by decide, fun other => ⟨rfl, ?_⟩⟩
  intro denotes
  exact absurd denotes.same (by decide)

end Lldb.DWARFExpression
