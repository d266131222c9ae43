import Lldb.Target.ThreadPlanStacks

/-! Each loop over the plans ends, and only sheds plans. -/

set_option autoImplicit false

namespace Lldb.Thread

open List

variable {π : Type} [DecidableEq π] {isThreadPlanBase : π → Bool} {thread : Thread π}

variable {turns : Nat} {plan : π} {kept removed : List π}

theorem discardUpTo_sheds {upToPlan : π} (few : turns < thread.planStack.length) :
    ∃ removed, Sheds thread (discardUpTo upToPlan turns thread) removed := by
  have remains : thread.planStack ≠ [] := ne_nil_of_length_pos (by omega)
  induction turns generalizing thread with
  | zero => exact ⟨[], .refl remains⟩
  | succ turns ih =>
    obtain ⟨kept, plan, stack⟩ := eq_nil_or_concat' thread.planStack |>.resolve_left remains
    have length : thread.planStack.length = kept.length + 1 := by rw [stack, length_append, length_singleton]
    have keeps : kept ≠ [] := ne_nil_of_length_pos (by omega)
    obtain ⟨sheds, left⟩ := discardPlan_sheds stack keeps
    rw [discardUpTo]
    split
    · exact ⟨[plan], sheds⟩
    · obtain ⟨removed, rest⟩ := ih (by rw [left]; omega) (by rw [left]; exact keeps)
      exact ⟨removed ++ [plan], sheds.trans rest⟩

omit [DecidableEq π] in
/-- Discarding all plans but the one at the bottom. -/
theorem discardAll_sheds (remains : thread.planStack ≠ []) :
    ∃ removed, Sheds thread (discardPlan^[thread.planStack.length - 1] thread) removed := by
  cases stack : thread.planStack with
  | nil => exact absurd stack remains
  | cons bottom rest =>
    have split : thread.planStack = [bottom] ++ rest := stack
    exact ⟨rest, (discardPlans_sheds split (cons_ne_nil _ _)).1⟩

theorem discardThreadPlansUpToPlan_sheds (remains : thread.planStack ≠ []) (upToPlan : Option π) :
    ∃ removed, Sheds thread (thread.discardThreadPlansUpToPlan upToPlan) removed := by
  have long := length_pos_of_ne_nil remains
  unfold discardThreadPlansUpToPlan
  cases upToPlan with
  | none => exact discardAll_sheds remains
  | some plan =>
    simp only
    split
    · exact discardUpTo_sheds (by omega)
    · exact ⟨[], .refl remains⟩

structure Overridden (isThreadPlanBase : π → Bool) (answers : PlanAnswers π) : Prop where
  master : ∀ plan, isThreadPlanBase plan = true → answers.isMasterPlan plan = true
  kept : ∀ plan, isThreadPlanBase plan = true → answers.okayToDiscard plan = false
  unfinished : ∀ plan, isThreadPlanBase plan = true → answers.mischiefManaged plan = false
  base : ∀ plan, isThreadPlanBase plan = true → answers.isBasePlan plan = true

omit [DecidableEq π] in
theorem overridden_override (answers : PlanAnswers π) : Overridden isThreadPlanBase (answers.override isThreadPlanBase) where
  master plan isBase := by simp [PlanAnswers.override, isBase]
  kept plan isBase := by simp [PlanAnswers.override, isBase]
  unfinished plan isBase := by simp [PlanAnswers.override, isBase]
  base plan isBase := by simp [PlanAnswers.override, isBase]

variable {answers : PlanAnswers π}

omit [DecidableEq π] in
theorem lastMaster {stack : List π} (some_ : ∃ plan ∈ stack, answers.isMasterPlan plan = true) :
    ∃ front master dependents, stack = front ++ master :: dependents ∧ answers.isMasterPlan master = true ∧
      (∀ plan ∈ dependents, answers.isMasterPlan plan = false) ∧
        stack.reverse.findIdx answers.isMasterPlan = dependents.length := by
  induction stack using reverseRecOn with
  | nil =>
    obtain ⟨plan, held, -⟩ := some_
    cases held
  | append_singleton rest top ih =>
    cases isMaster : answers.isMasterPlan top with
    | true => exact ⟨rest, top, [], rfl, isMaster, nofun, by simp [findIdx_cons, isMaster]⟩
    | false =>
      obtain ⟨plan, held, isMasterPlan⟩ := some_
      have below : plan ∈ rest := by
        rcases mem_append.mp held with below | here
        · exact below
        · rw [mem_singleton.mp here, isMaster] at isMasterPlan
          cases isMasterPlan
      obtain ⟨front, master, dependents, split, found, none_, index⟩ := ih ⟨plan, below, isMasterPlan⟩
      refine ⟨front, master, dependents ++ [top], by rw [split]; simp, found, ?_, ?_⟩
      · intro other held
        rcases mem_append.mp held with before | here
        · exact none_ other before
        · rw [mem_singleton.mp here]
          exact isMaster
      · simp [findIdx_cons, isMaster, index]

variable (sound : Sound isThreadPlanBase thread)
include sound

omit [DecidableEq π] in
/-- A turn ends the loop, or discards plans of which none is a master plan that is not okay to discard. -/
theorem discardMasterPlan_sheds (overridden : Overridden isThreadPlanBase answers) :
    discardMasterPlan answers thread = none ∨
      ∃ next removed, discardMasterPlan answers thread = some next ∧ Sheds thread next removed ∧ removed ≠ [] ∧
        ∀ plan ∈ removed, answers.isMasterPlan plan = true → answers.okayToDiscard plan = true := by
  obtain ⟨base, rest, bottom, isBase⟩ := sound.bottom
  have some_ : ∃ plan ∈ thread.planStack, answers.isMasterPlan plan = true :=
    ⟨base, by rw [bottom]; exact mem_cons_self, overridden.master base isBase⟩
  obtain ⟨front, master, dependents, stack, isMaster, none_, index⟩ := lastMaster some_
  have found : thread.planStack.reverse[dependents.length]? = some master := by
    rw [stack, reverse_append, reverse_cons, append_assoc]
    simp
  unfold discardMasterPlan
  simp only [index, found, Option.all_some]
  cases okay : answers.okayToDiscard master with
  | false => exact .inl rfl
  | true =>
    -- the plan at the bottom is never okay to discard
    have remains : front ≠ [] := by
      rintro rfl
      rw [bottom] at stack
      rw [← (cons.inj stack).1, overridden.kept base isBase] at okay
      cases okay
    have split : thread.planStack = (front ++ [master]) ++ dependents := by rw [stack, append_assoc, singleton_append]
    obtain ⟨first, left⟩ := discardPlans_sheds split (append_ne_nil_of_left_ne_nil remains [master])
    obtain ⟨second, -⟩ := discardPlan_sheds left remains
    have long : dependents.length + 1 < thread.planStack.length := by
      have := length_pos_of_ne_nil remains
      rw [stack, length_append, length_cons]
      omega
    rw [if_pos long]
    refine .inr ⟨_, [master] ++ dependents, rfl, first.trans second, cons_ne_nil _ _, ?_⟩
    intro plan removed isMasterPlan
    rcases mem_cons.mp removed with rfl | dependent
    · exact okay
    · rw [none_ plan dependent] at isMasterPlan
      cases isMasterPlan

omit [DecidableEq π] in
theorem discardMasterPlans_sheds
    (overridden : Overridden isThreadPlanBase answers) (enough : thread.planStack.length ≤ turns) :
    ∃ after removed, discardMasterPlans answers turns thread = some after ∧ Sheds thread after removed ∧
      ∀ plan ∈ removed, answers.isMasterPlan plan = true → answers.okayToDiscard plan = true := by
  induction turns generalizing thread with
  | zero =>
    have long := length_pos_of_ne_nil sound.nonempty
    omega
  | succ turns ih =>
    rw [discardMasterPlans]
    rcases discardMasterPlan_sheds sound overridden with ended | ⟨next, removed, went, sheds, moved, okay⟩
    · rw [ended]
      exact ⟨thread, [], rfl, .refl sound.nonempty, nofun⟩
    · have shorter : next.planStack.length < thread.planStack.length := by
        have := length_pos_of_ne_nil moved
        rw [sheds.stack, length_append]
        omega
      obtain ⟨after, others, ended, further, okayToo⟩ := ih (sheds.sound sound) (by omega)
      rw [went]
      refine ⟨after, others ++ removed, ended, sheds.trans further, ?_⟩
      intro plan held
      exact (mem_append.mp held).elim (okayToo plan) (okay plan)

omit [DecidableEq π] in
/-- Unless it is forced, `DiscardThreadPlans` discards no master plan that is not okay to discard. -/
theorem discardThreadPlans_sheds (overridden : Overridden isThreadPlanBase answers) (force : Bool) :
    ∃ after removed, discardThreadPlans answers force thread = some after ∧ Sheds thread after removed ∧
      (force = false → ∀ plan ∈ removed, answers.isMasterPlan plan = true → answers.okayToDiscard plan = true) := by
  cases force with
  | true =>
    obtain ⟨removed, sheds⟩ := discardAll_sheds sound.nonempty
    exact ⟨_, removed, rfl, sheds, nofun⟩
  | false =>
    obtain ⟨after, removed, ended, sheds, okay⟩ := discardMasterPlans_sheds sound overridden (Nat.le_refl _)
    exact ⟨after, removed, ended, sheds, fun _ => okay⟩

omit [DecidableEq π] in
theorem askShouldStop_sheds (overridden : Overridden isThreadPlanBase answers) (plan : π) :
    ∃ answer after removed, askShouldStop isThreadPlanBase answers thread plan = some (answer, after) ∧
      Sheds thread after removed ∧ (isThreadPlanBase plan = false → after = thread) := by
  unfold askShouldStop
  cases isBase : isThreadPlanBase plan with
  | false => exact ⟨_, thread, [], rfl, .refl sound.nonempty, fun _ => rfl⟩
  | true =>
    obtain ⟨after, removed, ended, sheds, -⟩ := discardThreadPlans_sheds sound overridden false
    rcases ThreadPlanBase.shouldStop answers.privateStopInfo with ⟨_ | _, answer⟩
    · exact ⟨answer, thread, [], rfl, .refl sound.nonempty, nofun⟩
    · exact ⟨answer, after, removed, by simp [ended], sheds, nofun⟩

omit sound

theorem findExplaining_ends (answers : PlanAnswers π) {front behind : List π} (sound : Sound isThreadPlanBase thread)
    (stack : thread.planStack = front ++ plan :: behind) (enough : front.length < turns) :
    ∃ found, findExplaining answers thread turns plan = some found ∧ ∀ other, found = some other → other ∈ thread.planStack := by
  induction turns generalizing plan front behind with
  | zero => omega
  | succ turns ih =>
    rw [findExplaining]
    rcases eq_nil_or_concat' front with rfl | ⟨lower, previous, rfl⟩
    · rw [getPreviousPlan_bottom sound stack]
      exact ⟨none, rfl, nofun⟩
    · rw [append_assoc, singleton_append] at stack
      rw [getPreviousPlan_split sound stack]
      simp only
      split
      · refine ⟨some previous, rfl, ?_⟩
        rintro other ⟨rfl⟩
        rw [stack]
        simp
      · refine ih stack ?_
        rw [length_append, length_singleton] at enough
        omega

variable (sound : Sound isThreadPlanBase thread)
include sound

omit [DecidableEq π] in
theorem current_ne {top : π}
    (stack : thread.planStack = kept ++ plan :: (removed ++ [top])) : thread.getCurrentPlan ≠ some plan := by
  have distinct := sound.stack_nodup
  have here : thread.planStack = (kept ++ plan :: removed) ++ [top] := by
    simp [stack]
  rw [getCurrentPlan_of here]
  rintro ⟨rfl⟩
  rw [stack] at distinct
  exact (nodup_cons.mp (nodup_append.mp distinct).2.1).1 (mem_append_right _ mem_cons_self)

theorem popPlansDownTo_sheds
    (stack : thread.planStack = kept ++ plan :: removed) (some_ : removed ≠ []) (enough : removed.length ≤ turns) :
    ∃ after, popPlansDownTo (some plan) turns thread = some after ∧ Sheds thread after removed := by
  induction removed using reverseRecOn generalizing thread turns with
  | nil => exact absurd rfl some_
  | append_singleton removed top ih =>
    have split : thread.planStack = (kept ++ plan :: removed) ++ [top] := by
      simp [stack]
    obtain ⟨sheds, left⟩ := popPlan_sheds split (by simp)
    rw [length_append, length_singleton] at enough
    obtain ⟨turns, rfl⟩ : ∃ fewer, turns = fewer + 1 := ⟨turns - 1, by omega⟩
    rw [popPlansDownTo]
    rcases eq_nil_or_concat' removed with rfl | ⟨others, next, rfl⟩
    · rw [if_pos (getCurrentPlan_of left)]
      exact ⟨_, rfl, sheds⟩
    · rw [if_neg (current_ne (sheds.sound sound) left)]
      have fewer : (others ++ [next]).length ≤ turns := by omega
      obtain ⟨after, ended, further⟩ := ih (sheds.sound sound) left (by simp) fewer
      exact ⟨after, ended, sheds.trans further⟩

theorem discardPlansDownTo_sheds
    (stack : thread.planStack = kept ++ plan :: removed) (enough : removed.length < turns) :
    ∃ after, discardPlansDownTo plan turns thread = some after ∧ Sheds thread after removed := by
  induction removed using reverseRecOn generalizing thread turns with
  | nil =>
    obtain ⟨turns, rfl⟩ : ∃ fewer, turns = fewer + 1 := ⟨turns - 1, by omega⟩
    rw [discardPlansDownTo, if_pos (getCurrentPlan_of stack)]
    exact ⟨thread, rfl, .refl sound.nonempty⟩
  | append_singleton removed top ih =>
    have split : thread.planStack = (kept ++ plan :: removed) ++ [top] := by
      simp [stack]
    obtain ⟨sheds, left⟩ := discardPlan_sheds split (by simp)
    rw [length_append, length_singleton] at enough
    obtain ⟨turns, rfl⟩ : ∃ fewer, turns = fewer + 1 := ⟨turns - 1, by omega⟩
    have fewer : removed.length < turns := by omega
    obtain ⟨after, ended, further⟩ := ih (sheds.sound sound) left fewer
    rw [discardPlansDownTo, if_neg (current_ne sound stack)]
    exact ⟨after, ended, sheds.trans further⟩

end Lldb.Thread
