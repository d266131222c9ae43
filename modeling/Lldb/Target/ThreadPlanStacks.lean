import Lldb.Target.ThreadPlans
import Mathlib.Data.List.Induction
import Mathlib.Data.List.Perm.Basic

/-! Plans only move from the top of the stack to the completed and the discarded ones. -/

set_option autoImplicit false

namespace Lldb.Thread

open List

variable {π : Type}

def all (thread : Thread π) : List π := thread.planStack ++ (thread.completedPlanStack ++ thread.discardedPlanStack)

structure Sound (isThreadPlanBase : π → Bool) (thread : Thread π) : Prop where
  bottom : ∃ base rest, thread.planStack = base :: rest ∧ isThreadPlanBase base = true
  distinct : thread.all.Nodup

/-- Some plans from the top of the stack, not all, have moved to the other two. -/
structure Sheds (before after : Thread π) (removed : List π) : Prop where
  stack : before.planStack = after.planStack ++ removed
  remains : after.planStack ≠ []
  moved : (after.completedPlanStack ++ after.discardedPlanStack).Perm
    (removed ++ (before.completedPlanStack ++ before.discardedPlanStack))

namespace Sheds

variable {before middle after : Thread π} {removed others : List π}

theorem refl {thread : Thread π} (remains : thread.planStack ≠ []) : Sheds thread thread [] :=
  ⟨(append_nil _).symm, remains, .refl _⟩

theorem trans (first : Sheds before middle removed) (second : Sheds middle after others) :
    Sheds before after (others ++ removed) where
  stack := by rw [first.stack, second.stack, append_assoc]
  remains := second.remains
  moved := by
    rw [append_assoc]
    exact second.moved.trans (first.moved.append_left others)

theorem all (sheds : Sheds before after removed) : after.all.Perm before.all := by
  unfold Thread.all
  rw [sheds.stack, append_assoc]
  exact sheds.moved.append_left _

theorem sound {isThreadPlanBase : π → Bool} (sheds : Sheds before after removed) (sound : Sound isThreadPlanBase before) :
    Sound isThreadPlanBase after where
  bottom := by
    obtain ⟨base, rest, stack, isBase⟩ := sound.bottom
    cases left : after.planStack with
    | nil => exact absurd left sheds.remains
    | cons first others =>
      have same := sheds.stack
      rw [stack, left] at same
      exact ⟨first, others, rfl, by rw [← (cons.inj same).1]; exact isBase⟩
  distinct := sheds.all.nodup_iff.mpr sound.distinct

end Sheds

section
variable {isThreadPlanBase : π → Bool} {thread : Thread π}

variable (sound : Sound isThreadPlanBase thread)
include sound

theorem Sound.nonempty : thread.planStack ≠ [] := by
  obtain ⟨base, rest, stack, -⟩ := sound.bottom
  rw [stack]
  exact cons_ne_nil _ _

theorem Sound.stack_nodup : thread.planStack.Nodup :=
  (nodup_append.mp sound.distinct).1

theorem Sound.not_completed {plan : π} (held : plan ∈ thread.planStack) :
    plan ∉ thread.completedPlanStack := fun completed =>
  (nodup_append.mp sound.distinct).2.2 plan held plan (mem_append_left _ completed) rfl

end

variable {kept : List π} {plan : π}

theorem getCurrentPlan_of {thread : Thread π} (stack : thread.planStack = kept ++ [plan]) :
    thread.getCurrentPlan = some plan := by
  unfold getCurrentPlan
  simp [stack]

theorem popPlan_sheds {thread : Thread π} (stack : thread.planStack = kept ++ [plan])
    (remains : kept ≠ []) : Sheds thread thread.popPlan [plan] ∧ thread.popPlan.planStack = kept := by
  have long : ¬ thread.planStack.length ≤ 1 := by
    have := length_pos_of_ne_nil remains
    rw [stack, length_append, length_singleton]
    omega
  have left : thread.popPlan.planStack = kept := by
    unfold popPlan
    rw [if_neg long, stack, dropLast_concat]
  refine ⟨⟨?_, ?_, ?_⟩, left⟩
  · rw [left, stack]
  · rw [left]
    exact remains
  · unfold popPlan
    rw [if_neg long, stack, getLast?_concat]
    simp only [append_assoc]
    exact perm_middle

theorem discardPlan_sheds {thread : Thread π} (stack : thread.planStack = kept ++ [plan])
    (remains : kept ≠ []) : Sheds thread thread.discardPlan [plan] ∧ thread.discardPlan.planStack = kept := by
  have long : 1 < thread.planStack.length := by
    have := length_pos_of_ne_nil remains
    rw [stack, length_append, length_singleton]
    omega
  have left : thread.discardPlan.planStack = kept := by
    unfold discardPlan
    rw [if_pos long, stack, dropLast_concat]
  refine ⟨⟨?_, ?_, ?_⟩, left⟩
  · rw [left, stack]
  · rw [left]
    exact remains
  · unfold discardPlan
    rw [if_pos long, stack, getLast?_concat]
    rw [← append_assoc]
    exact perm_append_comm

theorem discardPlans_sheds {thread : Thread π} {removed : List π} (stack : thread.planStack = kept ++ removed)
    (remains : kept ≠ []) :
    Sheds thread (discardPlan^[removed.length] thread) removed ∧ (discardPlan^[removed.length] thread).planStack = kept := by
  induction removed using reverseRecOn generalizing thread with
  | nil =>
    rw [append_nil] at stack
    exact ⟨.refl (by rw [stack]; exact remains), stack⟩
  | append_singleton removed plan ih =>
    rw [← append_assoc] at stack
    obtain ⟨first, left⟩ := discardPlan_sheds stack (append_ne_nil_of_left_ne_nil remains removed)
    obtain ⟨rest, final⟩ := ih left
    rw [length_append]
    exact ⟨first.trans rest, final⟩

variable [DecidableEq π]

theorem previousIn_of_not_mem {first : π} {rest : List π} (missing : plan ∉ rest) :
    previousIn plan (first :: rest) = none := by
  induction rest generalizing first with
  | nil => rfl
  | cons second rest ih =>
    have differ : second ≠ plan := fun same => missing (by rw [same]; exact mem_cons_self)
    rw [previousIn, ih (not_mem_of_not_mem_cons missing), if_neg differ]

theorem previousIn_split {first : π} {back : List π} (missing : plan ∉ back) (front : List π) :
    previousIn plan (front ++ first :: plan :: back) = some first := by
  induction front with
  | nil => rw [nil_append, previousIn, previousIn_of_not_mem missing, if_pos rfl]
  | cons head front ih =>
    cases front with
    | nil =>
      rw [nil_append] at ih
      rw [cons_append, nil_append, previousIn, ih]
    | cons next front =>
      rw [cons_append] at ih
      simp [previousIn, ih]

section
variable {isThreadPlanBase : π → Bool} {thread : Thread π}

variable (sound : Sound isThreadPlanBase thread)
include sound

theorem getPreviousPlan_eq {plan : π} (held : plan ∈ thread.planStack) :
    thread.getPreviousPlan plan = previousIn plan thread.planStack := by
  have missing := sound.not_completed held
  have nothing : previousIn plan thread.completedPlanStack = none := by
    cases completed : thread.completedPlanStack with
    | nil => rfl
    | cons first rest =>
      rw [completed] at missing
      exact previousIn_of_not_mem (not_mem_of_not_mem_cons missing)
  have notFirst : thread.completedPlanStack.head? ≠ some plan := fun first => missing (mem_of_head? first)
  rw [getPreviousPlan, nothing]
  rw [if_neg notFirst]

theorem getPreviousPlan_split {plan first : π} {front back : List π}
    (stack : thread.planStack = front ++ first :: plan :: back) : thread.getPreviousPlan plan = some first := by
  have distinct := sound.stack_nodup
  have held : plan ∈ thread.planStack := by
    rw [stack]
    simp
  rw [stack] at distinct
  have missing : plan ∉ back := (nodup_cons.mp (nodup_cons.mp (nodup_append.mp distinct).2.1).2).1
  rw [getPreviousPlan_eq sound held, stack]
  exact previousIn_split missing front

theorem getPreviousPlan_bottom {plan : π} {rest : List π}
    (stack : thread.planStack = plan :: rest) : thread.getPreviousPlan plan = none := by
  have distinct := sound.stack_nodup
  have held : plan ∈ thread.planStack := by
    rw [stack]
    exact mem_cons_self
  rw [stack] at distinct
  rw [getPreviousPlan_eq sound held, stack]
  exact previousIn_of_not_mem (nodup_cons.mp distinct).1

end

end Lldb.Thread
