import Mathlib.Tactic.Common

/-! Programs over a state that may stop before their end, and what holds after them. -/

set_option autoImplicit false

namespace Library

abbrev Stoppable (σ ε : Type) := StateT σ (Except ε)

namespace Stoppable

variable {σ ε α β : Type} {state : σ} {stops : ε → Prop}

/-- What holds of the value and the state if the program goes through, and of the stop if it does not. -/
def Leads (program : Stoppable σ ε α) (state : σ) (stops : ε → Prop) (holds : α → σ → Prop) : Prop :=
  match program state with
  | .ok (value, after) => holds value after
  | .error stop => stops stop

variable {program : Stoppable σ ε α} {holds : α → σ → Prop}

theorem Leads.ok {value : α} {after : σ}
    (leads : program.Leads state stops holds) (through : program state = .ok (value, after)) : holds value after := by
  unfold Leads at leads
  rwa [through] at leads

theorem Leads.error {stop : ε}
    (leads : program.Leads state stops holds) (stopped : program state = .error stop) : stops stop := by
  unfold Leads at leads
  rwa [stopped] at leads

@[simp] theorem leads_bind (first : Stoppable σ ε α) (next : α → Stoppable σ ε β) (holds : β → σ → Prop) :
    Leads (first >>= next) state stops holds ↔
      first.Leads state stops fun value after => (next value).Leads after stops holds := by
  unfold Leads
  change (match (first state).bind fun read => next read.1 read.2 with
    | .ok (value, after) => holds value after
    | .error stop => stops stop) ↔ _
  cases first state <;> rfl

@[simp] theorem leads_pure (value : α) (holds : α → σ → Prop) :
    Leads (pure value : Stoppable σ ε α) state stops holds ↔ holds value state := Iff.rfl

@[simp] theorem leads_get (holds : σ → σ → Prop) :
    Leads (get : Stoppable σ ε σ) state stops holds ↔ holds state state := Iff.rfl

@[simp] theorem leads_modify (change : σ → σ) (holds : PUnit → σ → Prop) :
    Leads (modify change : Stoppable σ ε PUnit) state stops holds ↔ holds ⟨⟩ (change state) := Iff.rfl

@[simp] theorem leads_throw (stop : ε) (holds : α → σ → Prop) :
    Leads (throw stop : Stoppable σ ε α) state stops holds ↔ stops stop := Iff.rfl

@[simp] theorem leads_ite (condition : Prop) [Decidable condition] (first second : Stoppable σ ε α)
    (holds : α → σ → Prop) : Leads (if condition then first else second) state stops holds ↔
      (condition → first.Leads state stops holds) ∧ (¬ condition → second.Leads state stops holds) := by
  by_cases is : condition
  · simp [is]
  · simp [is]

end Stoppable

end Library
