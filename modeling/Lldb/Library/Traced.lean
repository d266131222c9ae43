import Mathlib.Tactic.Common

/-! Computations that record what they do on the way to their value, and exact conditions for all of that
to be as it should: one rule for each way to build a computation, and one for a loop that may end early.
-/

set_option autoImplicit false

namespace Library

open List

structure Traced (ε α : Type) where
  value : α
  events : List ε
  deriving DecidableEq, Repr

namespace Traced

variable {ε α β σ : Type}

instance : Monad (Traced ε) where
  pure value := ⟨value, []⟩
  bind first next := ⟨(next first.value).value, first.events ++ (next first.value).events⟩

def record (event : ε) (value : α) : Traced ε α := ⟨value, [event]⟩

@[simp] theorem value_pure (value : α) : (pure value : Traced ε α).value = value := rfl

@[simp] theorem value_bind (first : Traced ε α) (next : α → Traced ε β) :
    (first >>= next).value = (next first.value).value := rfl

@[simp] theorem value_record (event : ε) (value : α) : (record event value).value = value := rfl

variable {first : Traced ε α} {Q : α → Prop}

theorem bind_congr {next other : α → Traced ε β} (same : next first.value = other first.value) :
    (first >>= next) = (first >>= other) := by
  change Traced.mk _ _ = Traced.mk _ _
  rw [same]

/-- Every event is one of `P`, and the value is one of `Q`. -/
def Meets (computation : Traced ε α) (P : ε → Prop) (Q : α → Prop) : Prop :=
  (∀ event ∈ computation.events, P event) ∧ Q computation.value

instance (computation : Traced ε α) (P : ε → Prop) (Q : α → Prop) [DecidablePred P] [DecidablePred Q] :
    Decidable (computation.Meets P Q) := inferInstanceAs (Decidable (_ ∧ _))

variable {P : ε → Prop}

@[simp] theorem meets_pure {value : α} : (pure value : Traced ε α).Meets P Q ↔ Q value := by
  constructor
  · intro meets
    exact meets.2
  · intro good
    exact ⟨fun _ member => absurd member not_mem_nil, good⟩

@[simp] theorem meets_record {event : ε} {value : α} : (record event value).Meets P Q ↔ P event ∧ Q value := by
  simp [Meets, record]

@[simp] theorem meets_bind {next : α → Traced ε β} {Q : β → Prop} :
    (first >>= next).Meets P Q ↔ first.Meets P fun value => (next value).Meets P Q := by
  constructor
  · intro meets
    exact ⟨fun event member => meets.1 event (mem_append_left _ member),
      fun event member => meets.1 event (mem_append_right _ member), meets.2⟩
  · intro meets
    refine ⟨fun event member => ?_, meets.2.2⟩
    rcases mem_append.mp member with inFirst | inNext
    · exact meets.1 event inFirst
    · exact meets.2.1 event inNext

theorem meets_ite {condition : Prop} [Decidable condition] {second : Traced ε α} :
    (if condition then first else second).Meets P Q ↔
      (condition → first.Meets P Q) ∧ (¬condition → second.Meets P Q) := by
  split <;> simp_all

theorem meets_value {computation : Traced ε α} :
    computation.Meets P Q ↔ computation.Meets P (fun _ => True) ∧ Q computation.value := by
  simp [Meets]

theorem meets_congr {computation : Traced ε α} {R : α → Prop} (same : ∀ value, Q value ↔ R value) :
    computation.Meets P Q ↔ computation.Meets P R :=
  and_congr_right' (same _)

inductive Turn (β σ : Type) where
  | done (result : β)
  | next (state : σ)
  deriving DecidableEq, Repr

/-- `count` turns from the one with number `first` on. -/
def loop (turn : Nat → σ → Traced ε (Turn β σ)) (first : Nat) : Nat → σ → Traced ε (Turn β σ)
  | 0, state => pure (.next state)
  | count + 1, state => do
      match ← turn first state with
      | .done result => pure (.done result)
      | .next state => loop turn (first + 1) count state

/-- The turns go through `states`, and the ones of `Stops` leave the loop. -/
structure Follows (turn : Nat → σ → Traced ε (Turn β σ)) (states : Nat → σ) (Stops : Nat → Prop) : Prop where
  stops : ∀ index, Stops index → ∃ result, (turn index (states index)).value = .done result
  goesOn : ∀ index, ¬Stops index → (turn index (states index)).value = .next (states (index + 1))

/-- A loop does as it should if every turn that it comes to does, and the state behind the last one is good. -/
theorem meets_loop {turn : Nat → σ → Traced ε (Turn β σ)} {states : Nat → σ} {Stops : Nat → Prop}
    (follows : Follows turn states Stops) {Q : Turn β σ → Prop} (first count : Nat) :
    (loop turn first count (states first)).Meets P Q ↔
      (∀ index, first ≤ index → index < first + count → (∀ before, first ≤ before → before < index → ¬Stops before) →
        (turn index (states index)).Meets P fun ending => ∀ result, ending = .done result → Q (.done result)) ∧
      ((∀ before, first ≤ before → before < first + count → ¬Stops before) → Q (.next (states (first + count)))) := by
  induction count generalizing first with
  | zero =>
      simp only [loop, meets_pure]
      constructor
      · intro good
        exact ⟨fun index low high => by omega, fun _ => good⟩
      · intro good
        exact good.2 fun before low high => by omega
  | succ count ih =>
      have unfolded : (loop turn first (count + 1) (states first)).Meets P Q ↔
          (turn first (states first)).Meets P (fun _ => True) ∧ (match (turn first (states first)).value with
              | .done result => pure (.done result)
              | .next state => loop turn (first + 1) count state : Traced ε (Turn β σ)).Meets P Q := by
        rw [loop, meets_bind, meets_value]
      rw [unfolded]
      by_cases stops : Stops first
      · obtain ⟨result, ended⟩ := follows.stops first stops
        rw [ended]
        rw [meets_pure]
        constructor
        · intro good
          refine ⟨fun index low high before => ?_, fun none_ => absurd stops (none_ first (by omega) (by omega))⟩
          have here : index = first := by
            by_contra other
            exact before first (by omega) (by omega) stops
          subst here
          refine ⟨good.1.1, fun found same => ?_⟩
          rw [ended] at same
          exact same ▸ good.2
        · intro good
          have turnGood := good.1 first (by omega) (by omega) fun before low high => by omega
          exact ⟨⟨turnGood.1, trivial⟩, turnGood.2 result ended⟩
      · have gone := follows.goesOn first stops
        rw [gone]
        rw [ih (first + 1), show first + 1 + count = first + (count + 1) by omega]
        constructor
        · intro good
          refine ⟨fun index low high before => ?_, fun none_ => good.2.2 fun before low high => none_ before (by omega) high⟩
          rcases Nat.eq_or_lt_of_le low with here | later
          · subst here
            refine ⟨good.1.1, fun result same => ?_⟩
            rw [gone] at same
            exact absurd same (by simp)
          · exact good.2.1 index later high fun earlier low' high' => before earlier (by omega) high'
        · intro good
          have turnGood := good.1 first (by omega) (by omega) fun before low high => by omega
          refine ⟨⟨turnGood.1, trivial⟩, fun index low high before => ?_, fun none_ => ?_⟩
          · refine good.1 index (by omega) high fun earlier low' high' => ?_
            rcases Nat.eq_or_lt_of_le low' with here | later
            · exact here ▸ stops
            · exact before earlier later high'
          · refine good.2 fun before low high => ?_
            rcases Nat.eq_or_lt_of_le low with here | later
            · exact here ▸ stops
            · exact none_ before later high

end Traced

end Library
