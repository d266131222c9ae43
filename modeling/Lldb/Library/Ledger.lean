import Mathlib.Data.List.Basic

/-! A queue from which a request takes the first element that passes its test.

The ledger of the queue has everything that was ever put in, in order, each with the request that
took it, if one did.
-/

set_option autoImplicit false

namespace Library

open List

structure Ledger (ε φ : Type) where
  entries : List (ε × Option φ)

namespace Ledger

variable {ε φ : Type}

def empty : Ledger ε φ := ⟨[]⟩

def arrivals (ledger : Ledger ε φ) : List ε := ledger.entries.map Prod.fst

def pending (ledger : Ledger ε φ) : List ε := (ledger.entries.filter (·.2.isNone)).map Prod.fst

def taken [DecidableEq φ] (ledger : Ledger ε φ) (request : φ) : List ε :=
  (ledger.entries.filter (·.2 = some request)).map Prod.fst

def put (ledger : Ledger ε φ) (elements : List ε) : Ledger ε φ := ⟨ledger.entries ++ elements.map fun element => (element, none)⟩

def mark (passes : ε → Bool) (request : φ) : List (ε × Option φ) → List (ε × Option φ)
  | [] => []
  | (element, some earlier) :: rest => (element, some earlier) :: mark passes request rest
  | (element, none) :: rest =>
    if passes element then (element, some request) :: rest else (element, none) :: mark passes request rest

def take (passes : φ → ε → Bool) (ledger : Ledger ε φ) (request : φ) : Ledger ε φ :=
  ⟨mark (passes request) request ledger.entries⟩

@[simp] theorem arrivals_put (ledger : Ledger ε φ) (elements : List ε) :
    (ledger.put elements).arrivals = ledger.arrivals ++ elements := by
  simp [arrivals, put, Function.comp_def]

@[simp] theorem pending_put (ledger : Ledger ε φ) (elements : List ε) :
    (ledger.put elements).pending = ledger.pending ++ elements := by
  simp [pending, put, filter_map, Function.comp_def]

@[simp] theorem taken_put [DecidableEq φ] (ledger : Ledger ε φ) (elements : List ε) (request : φ) :
    (ledger.put elements).taken request = ledger.taken request := by
  simp [taken, put]

@[simp] theorem arrivals_take (passes : φ → ε → Bool) (ledger : Ledger ε φ) (request : φ) :
    (ledger.take passes request).arrivals = ledger.arrivals := by
  obtain ⟨entries⟩ := ledger
  unfold arrivals take
  induction entries with
  | nil => rfl
  | cons entry rest ih =>
    obtain ⟨element, _ | earlier⟩ := entry
    · by_cases passed : passes request element = true
      · simp [mark, passed]
      · simpa [mark, passed] using ih
    · simpa [mark] using ih

@[simp] theorem pending_take (passes : φ → ε → Bool) (ledger : Ledger ε φ) (request : φ) :
    (ledger.take passes request).pending = ledger.pending.eraseP (passes request) := by
  obtain ⟨entries⟩ := ledger
  unfold pending take
  induction entries with
  | nil => rfl
  | cons entry rest ih =>
    obtain ⟨element, _ | earlier⟩ := entry
    · by_cases passed : passes request element = true
      · simp [mark, passed]
      · simpa [mark, passed] using ih
    · simpa [mark] using ih

theorem taken_take_of_ne [DecidableEq φ] (passes : φ → ε → Bool) (ledger : Ledger ε φ) {request other : φ}
    (differ : other ≠ request) : (ledger.take passes request).taken other = ledger.taken other := by
  obtain ⟨entries⟩ := ledger
  unfold taken take
  induction entries with
  | nil => rfl
  | cons entry rest ih =>
    obtain ⟨element, _ | earlier⟩ := entry
    · by_cases passed : passes request element = true
      · simp [mark, passed, differ.symm]
      · simpa [mark, passed] using ih
    · by_cases same : earlier = other
      · simpa [mark, same] using ih
      · simpa [mark, same] using ih

/-- An element that is pending before one that a request took does not pass the request's test. -/
def Skipped (passes : φ → ε → Bool) (earlier later : ε × Option φ) : Prop :=
  earlier.2 = none → ∀ request, later.2 = some request → passes request earlier.1 = false

structure Orderly (passes : φ → ε → Bool) (ledger : Ledger ε φ) : Prop where
  passed : ∀ element request, (element, some request) ∈ ledger.entries → passes request element = true
  earliest : ledger.entries.Pairwise (Skipped passes)

namespace Orderly

variable {passes : φ → ε → Bool} {ledger : Ledger ε φ}

theorem empty : Orderly passes (Ledger.empty : Ledger ε φ) where
  passed _ _ held := absurd held not_mem_nil
  earliest := .nil

theorem put (orderly : Orderly passes ledger) (elements : List ε) : Orderly passes (ledger.put elements) where
  passed other request held := by
    rcases mem_append.mp held with before | new
    · exact orderly.passed other request before
    · obtain ⟨_, -, untaken⟩ := mem_map.mp new
      cases untaken
  earliest := by
    have untaken : ∀ later ∈ elements.map fun element => ((element, none) : ε × Option φ), later.2 = none := by
      intro later new
      obtain ⟨_, -, rfl⟩ := mem_map.mp new
      rfl
    refine pairwise_append.mpr ⟨orderly.earliest, pairwise_of_forall_mem_list ?_, ?_⟩
    · intro _ _ later new _ _ took
      cases (untaken later new).symm.trans took
    · intro _ _ later new _ _ took
      cases (untaken later new).symm.trans took

variable {request : φ} {entries : List (ε × Option φ)}

theorem mem_mark {test : ε → Bool} {entry : ε × Option φ} (held : entry ∈ mark test request entries) :
    entry ∈ entries ∨ (entry.1, none) ∈ entries ∧ entry.2 = some request ∧ test entry.1 = true := by
  induction entries with
  | nil => cases held
  | cons first rest ih =>
    obtain ⟨element, _ | earlier⟩ := first
    · by_cases passed : test element = true
      · rw [mark, if_pos passed] at held
        rcases mem_cons.mp held with rfl | held
        · exact .inr ⟨mem_cons_self, rfl, passed⟩
        · exact .inl (mem_cons_of_mem _ held)
      · rw [mark, if_neg passed] at held
        rcases mem_cons.mp held with rfl | held
        · exact .inl mem_cons_self
        · exact (ih held).imp (mem_cons_of_mem _) (.imp_left (mem_cons_of_mem _))
    · rcases mem_cons.mp held with rfl | held
      · exact .inl mem_cons_self
      · exact (ih held).imp (mem_cons_of_mem _) (.imp_left (mem_cons_of_mem _))

theorem earliest_mark (earliest : entries.Pairwise (Skipped passes)) :
    (mark (passes request) request entries).Pairwise (Skipped passes) := by
  induction entries with
  | nil => exact .nil
  | cons first rest ih =>
    obtain ⟨behind, others⟩ := pairwise_cons.mp earliest
    obtain ⟨element, _ | earlier⟩ := first
    · by_cases passed : passes request element = true
      · rw [mark, if_pos passed]
        exact .cons (fun _ _ none_ => by cases none_) others
      · rw [mark, if_neg passed]
        refine .cons ?_ (ih others)
        intro later held _ asked took
        rcases mem_mark held with held | ⟨-, marked, -⟩
        · exact behind later held rfl asked took
        · obtain rfl : request = asked := Option.some.inj (marked.symm.trans took)
          exact Bool.eq_false_iff.mpr passed
    · exact .cons (fun _ _ none_ => by cases none_) (ih others)

theorem take (orderly : Orderly passes ledger) (request : φ) : Orderly passes (ledger.take passes request) where
  passed element asked held := by
    rcases mem_mark held with held | ⟨-, marked, passed⟩
    · exact orderly.passed element asked held
    · obtain rfl : asked = request := Option.some.inj marked
      exact passed
  earliest := earliest_mark orderly.earliest

theorem taken_take [DecidableEq φ] (orderly : Orderly passes ledger) (request : φ) :
    (ledger.take passes request).taken request =
      ledger.taken request ++ (ledger.pending.find? (passes request)).toList := by
  obtain ⟨entries⟩ := ledger
  have earliest := orderly.earliest
  unfold taken pending Ledger.take
  clear orderly
  induction entries with
  | nil => rfl
  | cons first rest ih =>
    obtain ⟨behind, others⟩ := pairwise_cons.mp earliest
    obtain ⟨element, _ | earlier⟩ := first
    · by_cases passed : passes request element = true
      · -- behind the first pending element that passes, the request has taken nothing
        have nothing : rest.filter (·.2 = some request) = [] := by
          apply filter_eq_nil_iff.mpr
          intro later held took
          have failed := behind later held rfl request (of_decide_eq_true took)
          exact absurd passed (by rw [failed]; exact Bool.false_ne_true)
        simp [mark, passed, nothing]
      · simpa [mark, passed] using ih others
    · by_cases same : earlier = request
      · simpa [mark, same] using ih others
      · simpa [mark, same] using ih others

/-- When no other request took what passes, a request has taken all that passes but what is pending. -/
theorem taken_append_pending [DecidableEq φ] (orderly : Orderly passes ledger)
    (alone : ∀ other, other ≠ request → ∀ element ∈ ledger.taken other, passes request element = false) :
    ledger.taken request ++ ledger.pending.filter (passes request) = ledger.arrivals.filter (passes request) := by
  obtain ⟨entries⟩ := ledger
  obtain ⟨passed, earliest⟩ := orderly
  unfold taken pending arrivals at *
  induction entries with
  | nil => rfl
  | cons first rest ih =>
    obtain ⟨behind, others⟩ := pairwise_cons.mp earliest
    have fewer : ∀ other, other ≠ request →
        ∀ element ∈ (rest.filter (·.2 = some other)).map Prod.fst, passes request element = false := by
      intro other differ element held
      obtain ⟨entry, filtered, rfl⟩ := mem_map.mp held
      obtain ⟨inside, took⟩ := mem_filter.mp filtered
      exact alone other differ _ (mem_map_of_mem (mem_filter.mpr ⟨mem_cons_of_mem _ inside, took⟩))
    have further := ih fewer (fun element asked held => passed element asked (mem_cons_of_mem _ held)) others
    obtain ⟨element, _ | earlier⟩ := first
    · by_cases passes_ : passes request element = true
      · have nothing : rest.filter (·.2 = some request) = [] := by
          apply filter_eq_nil_iff.mpr
          intro later held took
          have failed := behind later held rfl request (of_decide_eq_true took)
          exact absurd passes_ (by rw [failed]; exact Bool.false_ne_true)
        simpa [passes_, nothing] using further
      · simpa [passes_] using further
    · by_cases same : earlier = request
      · subst same
        have passes_ := passed element earlier mem_cons_self
        simpa [passes_] using further
      · have failed := alone earlier same element (by simp)
        simpa [same, failed] using further

end Orderly

end Ledger

end Library
