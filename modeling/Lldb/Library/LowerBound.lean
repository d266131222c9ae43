import Mathlib.Order.Nat
import Mathlib.Tactic.Common

/-! Binary search by halving: where a test that holds of a first part of the positions ends. -/

set_option autoImplicit false

namespace Library

open List

/-- The search among `length` positions from `first` on; the fuel is their number. -/
def lowerBoundFrom (below : Nat → Bool) : Nat → Nat → Nat → Nat
  | 0, first, _ => first
  | fuel + 1, first, length =>
    if length = 0 then first
    else if below (first + length / 2) then lowerBoundFrom below fuel (first + length / 2 + 1) (length - length / 2 - 1)
    else lowerBoundFrom below fuel first (length / 2)

/-- `std::lower_bound` over positions. -/
def lowerBound (below : Nat → Bool) (length : Nat) : Nat := lowerBoundFrom below length 0 length

theorem lowerBoundFrom_eq {below : Nat → Bool} {fuel first length split : Nat} (enough : length ≤ fuel)
    (after : first ≤ split) (before : split ≤ first + length)
    (splits : ∀ position, first ≤ position → position < first + length → (below position = true ↔ position < split)) :
    lowerBoundFrom below fuel first length = split := by
  induction fuel generalizing first length with
  | zero =>
    rw [lowerBoundFrom]
    omega
  | succ fuel ih =>
    rw [lowerBoundFrom]
    by_cases none_ : length = 0
    · rw [if_pos none_]
      omega
    · have middle := splits (first + length / 2) (Nat.le_add_right _ _) (by omega)
      rw [if_neg none_]
      by_cases here : below (first + length / 2) = true
      · rw [if_pos here]
        have inside := middle.mp here
        exact ih (by omega) (by omega) (by omega) fun position reached small => splits position (by omega) (by omega)
      · rw [if_neg here]
        have outside : ¬ first + length / 2 < split := fun inside => here (middle.mpr inside)
        exact ih (by omega) after (by omega) fun position reached small => splits position reached (by omega)

theorem lowerBound_eq {below : Nat → Bool} {length split : Nat} (inside : split ≤ length)
    (splits : ∀ position < length, (below position = true ↔ position < split)) : lowerBound below length = split :=
  lowerBoundFrom_eq le_rfl (Nat.zero_le _) (by omega) fun position _ small => splits position (by omega)

theorem lowerBoundFrom_edges (below : Nat → Bool) {fuel first length : Nat} (enough : length ≤ fuel) :
    ∃ result, lowerBoundFrom below fuel first length = result ∧ first ≤ result ∧ result ≤ first + length ∧
      (result = first ∨ below (result - 1) = true) ∧ (result = first + length ∨ below result = false) := by
  induction fuel generalizing first length with
  | zero => exact ⟨first, rfl, le_rfl, by omega, .inl rfl, .inl (by omega)⟩
  | succ fuel ih =>
    rw [lowerBoundFrom]
    by_cases none_ : length = 0
    · rw [if_pos none_]
      exact ⟨first, rfl, le_rfl, by omega, .inl rfl, .inl (by omega)⟩
    · rw [if_neg none_]
      by_cases here : below (first + length / 2) = true
      · rw [if_pos here]
        have shorter : length - length / 2 - 1 ≤ fuel := by omega
        obtain ⟨result, found, reached, inside, before, behind⟩ := @ih (first + length / 2 + 1) _ shorter
        refine ⟨result, found, by omega, by omega, .inr ?_, behind.imp_left fun same => by omega⟩
        rcases before with same | holds
        · rw [same]
          exact here
        · exact holds
      · rw [if_neg here]
        obtain ⟨result, found, reached, inside, before, behind⟩ := @ih first (length / 2) (by omega)
        refine ⟨result, found, reached, by omega, before, .inr ?_⟩
        rcases behind with same | fails
        · rw [same]
          exact Bool.eq_false_iff.mpr here
        · exact fails

theorem lowerBound_edges (below : Nat → Bool) (length : Nat) :
    lowerBound below length ≤ length ∧ (lowerBound below length = 0 ∨ below (lowerBound below length - 1) = true) ∧
      (lowerBound below length = length ∨ below (lowerBound below length) = false) := by
  obtain ⟨result, found, -, inside, before, behind⟩ := @lowerBoundFrom_edges below length 0 length le_rfl
  rw [lowerBound, found]
  rw [Nat.zero_add] at inside behind
  exact ⟨inside, before, behind⟩

theorem lowerBound_spec {below : Nat → Bool} {length : Nat}
    (down : ∀ earlier position, earlier ≤ position → position < length → below position = true → below earlier = true) :
    lowerBound below length ≤ length ∧
      ∀ position < length, (below position = true ↔ position < lowerBound below length) := by
  have stops : ∃ position, position = length ∨ below position = false := ⟨length, .inl rfl⟩
  have inside : Nat.find stops ≤ length := Nat.find_min' stops (.inl rfl)
  have splits : ∀ position < length, (below position = true ↔ position < Nat.find stops) := by
    intro position small
    constructor
    · intro holds
      rw [Nat.lt_find_iff]
      rintro earlier reached (rfl | fails)
      · omega
      · rw [down earlier position reached small holds] at fails
        cases fails
    · intro early
      have still := Nat.find_min stops early
      rw [not_or, Bool.not_eq_false] at still
      exact still.2
  rw [lowerBound_eq inside splits]
  exact ⟨inside, splits⟩

/-! The test on the elements of a list. -/

variable {α : Type} {below : α → Bool}

theorem lowerBound_append {front back : List α} (holds : ∀ element ∈ front, below element = true)
    (fails : ∀ element ∈ back, below element = false) :
    lowerBound (fun position => (front ++ back)[position]?.any below) (front ++ back).length = front.length := by
  refine lowerBound_eq (by rw [length_append]; exact Nat.le_add_right _ _) fun position small => ?_
  by_cases early : position < front.length
  · rw [getElem?_append_left early, getElem?_eq_getElem early]
    exact iff_of_true (holds _ (getElem_mem early)) early
  · rw [length_append] at small
    have late : position - front.length < back.length := by omega
    rw [getElem?_append_right (not_lt.mp early), getElem?_eq_getElem late, Option.any_some,
      fails _ (getElem_mem late)]
    exact iff_of_false Bool.false_ne_true early

theorem exists_parts {elements : List α}
    (down : elements.Pairwise fun earlier later => below later = true → below earlier = true) :
    ∃ front back, elements = front ++ back ∧ (∀ element ∈ front, below element = true) ∧
      ∀ element ∈ back, below element = false := by
  induction elements with
  | nil =>
    exact ⟨[], [], rfl, fun _ member => absurd member not_mem_nil, fun _ member => absurd member not_mem_nil⟩
  | cons first rest ih =>
    obtain ⟨head, tail⟩ := pairwise_cons.mp down
    by_cases here : below first = true
    · obtain ⟨front, back, rfl, holds, fails⟩ := ih tail
      exact ⟨first :: front, back, rfl, forall_mem_cons.mpr ⟨here, holds⟩, fails⟩
    · refine ⟨[], first :: rest, rfl, fun _ member => absurd member not_mem_nil, ?_⟩
      exact forall_mem_cons.mpr ⟨Bool.eq_false_iff.mpr here,
        fun later member => Bool.eq_false_iff.mpr fun holds => here (head later member holds)⟩

end Library
