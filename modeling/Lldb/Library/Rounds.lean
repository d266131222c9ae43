import Mathlib.Logic.Relation
import Mathlib.Order.Basic
import Mathlib.Tactic.Common

/-! Loops that go on round by round, and when they end.

A loop that ends is one that finds a round from every state that it comes to, none of which leads
back to where it began.
-/

set_option autoImplicit false

namespace Library

open Option

/-- Whether the loop goes on in a state, and what is behind a round; `none` for a round without an end. -/
structure Rounds (σ : Type) where
  goesOn : σ → Bool
  next : σ → Option σ

namespace Rounds

variable {σ : Type} (rounds : Rounds σ)

/-- The loop ends within `fuel` rounds. -/
def ends : Nat → σ → Bool
  | 0, _ => false
  | fuel + 1, state => if rounds.goesOn state then (rounds.next state).any (ends fuel) else true

def Round (state after : σ) : Prop := rounds.goesOn state = true ∧ rounds.next state = some after

def Reaches : σ → σ → Prop := Relation.ReflTransGen rounds.Round

def Passes (start : σ) : Prop :=
  ∀ state, rounds.Reaches start state → rounds.goesOn state = true →
    ∃ after, rounds.next state = some after ∧ after ≠ state

variable {rounds}

theorem ends_succ (fuel : Nat) (state : σ) : rounds.ends (fuel + 1) state =
      if rounds.goesOn state then (rounds.next state).any (rounds.ends fuel) else true := rfl

variable {state start : σ} {fuel : Nat} {measure : σ → Nat}

theorem ends_round {after : σ} (round : rounds.Round state after) (fuel : Nat) :
    rounds.ends (fuel + 1) state = rounds.ends fuel after := by
  rw [ends_succ, if_pos round.1, round.2, any_some]

theorem Reaches.invariant (reaches : rounds.Reaches start state) (holds : σ → Prop)
    (first : holds start) (kept : ∀ state after, holds state → rounds.Round state after → holds after) :
      holds state := by
  induction reaches with
  | refl => exact first
  | tail _ round ih => exact kept _ _ ih round

theorem not_ends_of_stays (round : rounds.Round state state) (fuel : Nat) : rounds.ends fuel state = false := by
  induction fuel with
  | zero => rfl
  | succ fuel ih => rw [ends_round round, ih]

theorem exists_round_of_ends (ends : rounds.ends fuel state = true)
    (goesOn : rounds.goesOn state = true) : ∃ after, rounds.next state = some after ∧ after ≠ state := by
  cases fuel with
  | zero => cases ends
  | succ fuel =>
    have further := ends
    rw [ends_succ, if_pos goesOn, any_eq_true] at further
    obtain ⟨after, next, -⟩ := further
    refine ⟨after, next, fun same => ?_⟩
    rw [same] at next
    rw [not_ends_of_stays ⟨goesOn, next⟩] at ends
    cases ends

theorem Reaches.ends (reaches : rounds.Reaches start state)
    (ends_ : rounds.ends fuel start = true) : ∃ fuel, rounds.ends fuel state = true := by
  induction reaches with
  | refl => exact ⟨fuel, ends_⟩
  | tail _ round ih =>
    obtain ⟨fuel, ends_⟩ := ih
    cases fuel with
    | zero => cases ends_
    | succ fuel => exact ⟨fuel, (ends_round round fuel).symm.trans ends_⟩

theorem passes_of_ends (ends : rounds.ends fuel start = true) : rounds.Passes start := by
  intro state reaches goesOn
  obtain ⟨fuel, ends⟩ := reaches.ends ends
  exact exists_round_of_ends ends goesOn

/-- With a measure that falls with every round that leads elsewhere, passing is all that it takes to end. -/
theorem Passes.ends (passes : rounds.Passes start)
    (falls : ∀ state after, rounds.Round state after → after ≠ state → measure after < measure state)
    (enough : measure start < fuel) : rounds.ends fuel start = true := by
  induction fuel generalizing start with
  | zero => exact absurd enough (Nat.not_lt_zero _)
  | succ fuel ih =>
    rw [ends_succ]
    split
    · rename_i goesOn
      obtain ⟨after, next, leads⟩ := passes start .refl goesOn
      have round : rounds.Round start after := ⟨goesOn, next⟩
      rw [next]
      refine ih (fun state reaches => passes state (.head round reaches)) ?_
      exact Nat.lt_of_lt_of_le (falls start after round leads) (Nat.le_of_lt_succ enough)
    · rfl

theorem ends_iff (falls : ∀ state after, rounds.Round state after → after ≠ state → measure after < measure state)
    (enough : measure start < fuel) : rounds.ends fuel start = true ↔ rounds.Passes start :=
  ⟨passes_of_ends, fun passes => passes.ends falls enough⟩

/-! A loop may come back for a while, as long as it gets ahead in the end. -/

theorem ends_of_falls (leads : ∀ state, rounds.goesOn state = true → (rounds.next state).isSome = true)
    (falls : ∀ state after, rounds.Reaches start state → rounds.Round state after → measure after < measure state)
    (enough : measure start < fuel) : rounds.ends fuel start = true := by
  induction fuel generalizing start with
  | zero => exact absurd enough (Nat.not_lt_zero _)
  | succ fuel ih =>
    rw [ends_succ]
    split
    · rename_i goesOn
      obtain ⟨after, next⟩ := isSome_iff_exists.mp (leads start goesOn)
      have round : rounds.Round start after := ⟨goesOn, next⟩
      rw [next]
      apply ih fun state later reaches => falls state later (.head round reaches)
      exact Nat.lt_of_lt_of_le (falls start after .refl round) (Nat.le_of_lt_succ enough)
    · rfl

theorem Reaches.exists_ends {late : σ} (reaches : rounds.Reaches start late)
    (ends : ∃ fuel, rounds.ends fuel late = true) : ∃ fuel, rounds.ends fuel start = true := by
  induction reaches using Relation.ReflTransGen.head_induction_on with
  | refl => exact ends
  | head round _ ih =>
    obtain ⟨fuel, ends⟩ := ih
    exact ⟨fuel + 1, (ends_round round fuel).trans ends⟩

theorem exists_late_of_ends (ends : rounds.ends fuel start = true) :
    ∃ late, rounds.Reaches start late ∧ rounds.goesOn late = false := by
  induction fuel generalizing start with
  | zero => cases ends
  | succ fuel ih =>
    rw [ends_succ] at ends
    split at ends
    · rename_i goesOn
      obtain ⟨after, next, further⟩ := (any_eq_true _ _).mp ends
      obtain ⟨late, reaches, last⟩ := ih further
      exact ⟨late, .head ⟨goesOn, next⟩ reaches, last⟩
    · rename_i last
      exact ⟨start, .refl, Bool.eq_false_iff.mpr last⟩

/-- A loop whose rounds do not fail ends just if it gets ahead with every round from some state on. -/
theorem exists_ends_iff (measure : σ → Nat)
    (leads : ∀ state, rounds.goesOn state = true → (rounds.next state).isSome = true) :
    (∃ fuel, rounds.ends fuel start = true) ↔ ∃ late, rounds.Reaches start late ∧
        ∀ state after, rounds.Reaches late state → rounds.Round state after → measure after < measure state := by
  constructor
  · rintro ⟨fuel, ends⟩
    obtain ⟨late, reaches, last⟩ := exists_late_of_ends ends
    refine ⟨late, reaches, fun state after from_ round => ?_⟩
    rcases from_.cases_head with rfl | ⟨between, first, -⟩
    · exact absurd (last.symm.trans round.1) Bool.false_ne_true
    · exact absurd (last.symm.trans first.1) Bool.false_ne_true
  · rintro ⟨late, reaches, falls⟩
    exact reaches.exists_ends ⟨_, ends_of_falls leads falls (Nat.lt_succ_self _)⟩

end Rounds

end Library
