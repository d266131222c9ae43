import Lldb.Target.ThreadPlanLoops
import Mathlib.Data.List.Nodup

/-! No call loses a plan, over every run. -/

set_option autoImplicit false

namespace Lldb.Thread

open List Option

variable {π : Type} [DecidableEq π] {isThreadPlanBase : π → Bool} {thread : Thread π} {answers : PlanAnswers π}

variable {kept : List π} {current : π} {turns : Nat}

variable (sound : Sound isThreadPlanBase thread)
include sound

theorem explainStop_sheds (overridden : Overridden isThreadPlanBase answers)
    (stack : thread.planStack = kept ++ [current]) :
    ∃ done answer after removed, explainStop isThreadPlanBase answers thread current = some (done, answer, after) ∧
      Sheds thread after removed := by
  unfold explainStop
  split
  · exact ⟨_, _, thread, [], rfl, .refl sound.nonempty⟩
  · split
    · exact ⟨_, _, thread, [], rfl, .refl sound.nonempty⟩
    · have enough : kept.length < thread.planStack.length := by
        rw [stack, length_append, length_singleton]
        omega
      obtain ⟨found, ended, held⟩ := findExplaining_ends answers sound stack enough
      rw [ended, bind_eq_bind, bind_some]
      cases found with
      | none => exact ⟨_, _, thread, [], rfl, .refl sound.nonempty⟩
      | some plan =>
        obtain ⟨answer, asked, removed, replied, sheds, unchanged⟩ := askShouldStop_sheds sound overridden plan
        simp only
        rw [replied, bind_eq_bind, bind_some]
        cases finished : answers.mischiefManaged plan with
        | false => exact ⟨_, _, asked, removed, rfl, sheds⟩
        | true =>
          -- a plan that is finished is no base plan, so it is not at the bottom and its answer changed nothing
          have notBase : isThreadPlanBase plan = false := by
            by_contra isBase
            rw [overridden.unfinished plan (by simpa using isBase)] at finished
            cases finished
          obtain rfl := unchanged notBase
          obtain ⟨front, behind, split⟩ := append_of_mem (held plan rfl)
          rcases eq_nil_or_concat' front with rfl | ⟨lower, previous, rfl⟩
          · obtain ⟨base, rest, bottom, isBase⟩ := sound.bottom
            rw [bottom] at split
            rw [(cons.inj split).1, notBase] at isBase
            cases isBase
          · rw [append_assoc] at split
            have few : (plan :: behind).length ≤ asked.planStack.length := by
              simp only [split, length_append]
              omega
            obtain ⟨after, popped, further⟩ := popPlansDownTo_sheds sound split (cons_ne_nil _ _) few
            rw [getPreviousPlan_split sound split, popped]
            exact ⟨_, _, after, _, rfl, further⟩

theorem askPlans_sheds (overridden : Overridden isThreadPlanBase answers)
    (stack : thread.planStack = kept ++ [current]) (enough : kept.length < turns)
    (shouldStop : Bool) :
    ∃ answer after removed, askPlans isThreadPlanBase answers turns shouldStop thread current = some (answer, after) ∧
      Sheds thread after removed := by
  induction turns generalizing thread kept current shouldStop with
  | zero => omega
  | succ turns ih =>
    rw [askPlans]
    cases isBase : planIsBasePlan answers thread current with
    | true => exact ⟨shouldStop, thread, [], rfl, .refl sound.nonempty⟩
    | false =>
      obtain ⟨notBasePlan, notBottom⟩ := Bool.or_eq_false_iff.mp isBase
      have notBase : isThreadPlanBase current = false := by
        by_contra isBase
        rw [overridden.base current (by simpa using isBase)] at notBasePlan
        cases notBasePlan
      obtain ⟨answer, asked, removed, replied, -, unchanged⟩ := askShouldStop_sheds sound overridden current
      obtain rfl := unchanged notBase
      have remains : kept ≠ [] := by
        rintro rfl
        rw [stack] at notBottom
        simp at notBottom
      obtain ⟨popped, left⟩ := popPlan_sheds stack remains
      rw [if_neg Bool.false_ne_true, replied, bind_eq_bind, bind_some]
      simp only
      cases answers.mischiefManaged current with
      | false => exact ⟨answer, asked, [], rfl, .refl sound.nonempty⟩
      | true =>
        rw [if_pos rfl]
        split
        · exact ⟨answer, _, _, rfl, popped⟩
        · obtain ⟨lower, next, rfl⟩ := (eq_nil_or_concat' kept).resolve_left remains
          rw [getCurrentPlan_of left]
          rw [length_append, length_singleton] at enough
          obtain ⟨final, after, others, ended, further⟩ := ih (popped.sound sound) left (by omega) answer
          exact ⟨final, after, _, ended, popped.trans further⟩

theorem decideStop_sheds (overridden : Overridden isThreadPlanBase answers)
    (stack : thread.planStack = kept ++ [current]) (shouldStop : Bool) :
    ∃ answer after removed, decideStop isThreadPlanBase answers shouldStop thread current = some (answer, after) ∧
      Sheds thread after removed := by
  unfold decideStop
  split
  · obtain ⟨answer, after, removed, ended, sheds, -⟩ := askShouldStop_sheds sound overridden current
    rw [ended]
    exact ⟨_, after, removed, rfl, sheds⟩
  · have enough : kept.length < thread.planStack.length := by
      rw [stack, length_append, length_singleton]
      omega
    obtain ⟨answer, after, removed, ended, sheds⟩ := askPlans_sheds sound overridden stack enough shouldStop
    rw [ended]
    exact ⟨_, after, removed, rfl, sheds⟩

omit sound

theorem clearStalePlans_sheds (answers : PlanAnswers π) (sound : Sound isThreadPlanBase thread) {front behind : List π} {examined : π}
    (stack : thread.planStack = front ++ examined :: behind) (enough : front.length < turns) :
    ∃ after removed, clearStalePlans answers turns thread (some examined) = some after ∧ Sheds thread after removed := by
  induction turns generalizing thread front behind examined with
  | zero => omega
  | succ turns ih =>
    rw [clearStalePlans]
    cases isBase : planIsBasePlan answers thread examined with
    | true => exact ⟨thread, [], rfl, .refl sound.nonempty⟩
    | false =>
      have notBottom := (Bool.or_eq_false_iff.mp isBase).2
      rw [if_neg Bool.false_ne_true]
      rcases eq_nil_or_concat' front with rfl | ⟨lower, next, rfl⟩
      · rw [stack] at notBottom
        simp at notBottom
      · have split : thread.planStack = lower ++ next :: examined :: behind := by
          simp [stack]
        have fewer : lower.length < turns := by
          rw [length_append, length_singleton] at enough
          omega
        rw [getPreviousPlan_split sound split]
        split
        · have few : behind.length < thread.planStack.length := by
            rw [stack, length_append, length_cons]
            omega
          obtain ⟨exposed, ended, sheds⟩ := discardPlansDownTo_sheds sound stack few
          have top : exposed.planStack = (lower ++ [next]) ++ [examined] := by
            have same := sheds.stack
            rw [stack, append_cons] at same
            exact (append_cancel_right same).symm
          have remains : lower ++ [next] ≠ [] := by simp
          obtain ⟨removed, goes, left⟩ : ∃ removed, Sheds exposed
              (if answers.isPlanComplete examined then exposed.popPlan else exposed.discardPlan) removed ∧
                (if answers.isPlanComplete examined then exposed.popPlan else exposed.discardPlan).planStack =
                  lower ++ [next] := by
            split
            · exact ⟨_, popPlan_sheds top remains⟩
            · exact ⟨_, discardPlan_sheds top remains⟩
          have soundToo := goes.sound (sheds.sound sound)
          obtain ⟨after, others, final, further⟩ := ih soundToo left fewer
          rw [ended]
          exact ⟨after, _, final, (sheds.trans goes).trans further⟩
        · exact ih sound split fewer

theorem finishStop_sheds (answers : PlanAnswers π) (sound : Sound isThreadPlanBase thread) (shouldStop : Bool) :
    ∃ after removed, finishStop answers shouldStop thread = some (shouldStop, after) ∧ Sheds thread after removed := by
  unfold finishStop
  cases shouldStop with
  | false => exact ⟨thread, [], rfl, .refl sound.nonempty⟩
  | true =>
    obtain ⟨rest, last, stack⟩ := (eq_nil_or_concat' thread.planStack).resolve_left sound.nonempty
    have enough : rest.length < thread.planStack.length := by
      rw [stack, length_append, length_singleton]
      omega
    obtain ⟨cleared, removed, swept, clears⟩ := clearStalePlans_sheds answers sound stack enough
    rw [getCurrentPlan_of stack, swept]
    exact ⟨cleared, removed, rfl, clears⟩

variable (sound : Sound isThreadPlanBase thread)
include sound

theorem shouldStop_sheds (overridden : Overridden isThreadPlanBase answers) :
    ∃ answer after removed, shouldStop isThreadPlanBase answers thread = some (answer, after) ∧ Sheds thread after removed := by
  obtain ⟨kept, current, stack⟩ := (eq_nil_or_concat' thread.planStack).resolve_left sound.nonempty
  unfold shouldStop
  rw [getCurrentPlan_of stack, bind_eq_bind, bind_some]
  split
  · exact ⟨false, thread, [], rfl, .refl sound.nonempty⟩
  · obtain ⟨done, answer, explained, removed, ended, sheds⟩ := explainStop_sheds sound overridden stack
    rw [ended]
    have soundThen := sheds.sound sound
    cases done with
    | true =>
      obtain ⟨after, others, finished, further⟩ := finishStop_sheds answers soundThen answer
      exact ⟨answer, after, _, finished, sheds.trans further⟩
    | false =>
      obtain ⟨lower, top, left⟩ := (eq_nil_or_concat' explained.planStack).resolve_left soundThen.nonempty
      obtain ⟨final, decided, others, went, further⟩ := decideStop_sheds soundThen overridden left answer
      obtain ⟨after, stale, finished, clears⟩ := finishStop_sheds answers (further.sound soundThen) final
      refine ⟨final, after, _, ?_, (sheds.trans further).trans clears⟩
      simp [getCurrentPlan_of left, went, finished]

theorem tellWillResume_ends {plan : π} {front behind : List π}
    (stack : thread.planStack = front ++ plan :: behind) (enough : front.length < turns) :
    tellWillResume thread turns plan = some front.reverse := by
  induction turns generalizing plan front behind with
  | zero => omega
  | succ turns ih =>
    rw [tellWillResume]
    rcases eq_nil_or_concat' front with rfl | ⟨lower, previous, rfl⟩
    · rw [getPreviousPlan_bottom sound stack]
      rfl
    · rw [append_assoc] at stack
      rw [length_append, length_singleton] at enough
      rw [getPreviousPlan_split sound stack]
      simp only
      simp [ih stack (by omega)]

theorem shouldResume_ends (answers : PlanAnswers π) : ∃ needToResume, shouldResume answers thread =
      some (needToResume, thread.planStack.reverse, { thread with completedPlanStack := [], discardedPlanStack := [] }) := by
  obtain ⟨kept, current, stack⟩ := (eq_nil_or_concat' thread.planStack).resolve_left sound.nonempty
  have cleared : Sound isThreadPlanBase { thread with completedPlanStack := [], discardedPlanStack := [] } := by
    refine ⟨sound.bottom, ?_⟩
    have distinct := sound.stack_nodup
    rwa [← append_nil thread.planStack] at distinct
  have enough : kept.length < thread.planStack.length := by
    rw [stack, length_append, length_singleton]
    omega
  have told := tellWillResume_ends cleared stack enough
  have current_ : getCurrentPlan { thread with completedPlanStack := [], discardedPlanStack := [] } = some current :=
    getCurrentPlan_of stack
  refine ⟨answers.willResume current, ?_⟩
  unfold shouldResume
  simp only
  rw [current_]
  simp only
  rw [told, stack, reverse_concat]
  rfl

omit sound

/-! Runs. -/

def Pushable (thread : Thread π) : Operation π → Prop
  | .pushPlan (some plan) => plan ∉ thread.all
  | _ => True

def after (isThreadPlanBase : π → Bool) (start : Thread π) : List (Operation π) → Option (Thread π)
  | [] => some start
  | operation :: past => (after isThreadPlanBase start past).bind (perform isThreadPlanBase · operation)

def Legal (isThreadPlanBase : π → Bool) (start : Thread π) : List (Operation π) → Prop
  | [] => True
  | operation :: past => Legal isThreadPlanBase start past ∧
      ∀ thread, after isThreadPlanBase start past = some thread → Pushable thread operation

def pushedSinceResume : List (Operation π) → List π
  | [] => []
  | .shouldResume _ :: _ => []
  | .pushPlan (some plan) :: past => plan :: pushedSinceResume past
  | _ :: past => pushedSinceResume past

structure Keeps (isThreadPlanBase : π → Bool) (before : Thread π) (operation : Operation π) (after : Thread π) : Prop where
  bottom : after.planStack.head? = before.planStack.head?
  lower : (∀ plan, operation ≠ .pushPlan plan) → after.planStack <+: before.planStack
  masters : ∀ answers, operation = .discardThreadPlans answers false → ∀ front master behind,
    before.planStack = front ++ master :: behind → (answers.override isThreadPlanBase).isMasterPlan master = true →
      (answers.override isThreadPlanBase).okayToDiscard master = false → front ++ [master] <+: after.planStack

/-- After a run the base plan is at the bottom, the plans that were pushed are each in one place, and the
next call ends and keeps them.
-/
structure NeverLost (isThreadPlanBase : π → Bool) (start : Thread π) (past : List (Operation π)) (thread : Thread π) :
    Prop where
  bottom : thread.planStack.head? = start.planStack.head?
  once : ∀ plan, plan ∈ pushedSinceResume past ∨ plan ∈ thread.planStack →
    thread.planStack.count plan + thread.completedPlanStack.count plan + thread.discardedPlanStack.count plan = 1
  next : ∀ operation, Pushable thread operation →
    ∃ next, perform isThreadPlanBase thread operation = some next ∧ Keeps isThreadPlanBase thread operation next

namespace Keeps

variable {before after : Thread π} {removed : List π}

variable (sheds : Sheds before after removed)
include sheds

omit [DecidableEq π] in
theorem head_of_sheds : after.planStack.head? = before.planStack.head? := by
  rw [sheds.stack, head?_append_of_ne_nil _ sheds.remains]

omit [DecidableEq π] in
theorem of_sheds {operation : Operation π}
    (other : ∀ answers, operation ≠ .discardThreadPlans answers false) : Keeps isThreadPlanBase before operation after where
  bottom := head_of_sheds sheds
  lower _ := ⟨removed, sheds.stack.symm⟩
  masters answers same := absurd same (other answers)

omit [DecidableEq π] in
theorem prefix_of_not_mem {front behind : List π} {master : π}
    (stack : before.planStack = front ++ master :: behind) (kept : master ∉ removed) : front ++ [master] <+: after.planStack := by
  have whole : front ++ [master] <+: before.planStack := ⟨behind, by simp [stack]⟩
  apply prefix_of_prefix_length_le whole ⟨removed, sheds.stack.symm⟩
  by_contra short
  have same := sheds.stack
  rw [stack] at same
  obtain ⟨middle, front_, removed_⟩ | ⟨middle, after_, rest⟩ := append_eq_append_iff.mp same
  · rw [front_] at short
    cases middle with
    | nil =>
      rw [nil_append] at removed_
      exact kept (by rw [← removed_]; exact mem_cons_self)
    | cons first others =>
      simp only [length_append, length_cons, length_nil] at short
      omega
  · exact kept (by rw [rest]; exact mem_append_right _ mem_cons_self)

end Keeps

omit [DecidableEq π] in
theorem Sheds.mem_all {before after : Thread π} {removed : List π} (sheds : Sheds before after removed) {plan : π}
    (held : plan ∈ before.all) : plan ∈ after.all :=
  sheds.all.mem_iff.mpr held

omit [DecidableEq π] in
theorem pushPlan_sound (sound : Sound isThreadPlanBase thread) {plan : π} (new : plan ∉ thread.all) :
    Sound isThreadPlanBase (thread.pushPlan (some plan)) := by
  have order : (thread.pushPlan (some plan)).all.Perm (plan :: thread.all) := by
    unfold all pushPlan
    simp only [append_assoc]
    exact perm_middle
  refine ⟨?_, order.nodup_iff.mpr (nodup_cons.mpr ⟨new, sound.distinct⟩)⟩
  obtain ⟨base, rest, stack, isBase⟩ := sound.bottom
  exact ⟨base, rest ++ [plan], by rw [pushPlan, stack, cons_append], isBase⟩

theorem perform_keeps (sound : Sound isThreadPlanBase thread) {operation : Operation π} (pushable : Pushable thread operation) :
    ∃ next, perform isThreadPlanBase thread operation = some next ∧ Sound isThreadPlanBase next ∧
      Keeps isThreadPlanBase thread operation next ∧ (∀ plan, operation = .pushPlan (some plan) → plan ∈ next.all) ∧
          ((∀ answers, operation ≠ .shouldResume answers) → ∀ plan ∈ thread.all, plan ∈ next.all) := by
  cases operation with
  | pushPlan pushed =>
    cases pushed with
    | none =>
      exact ⟨thread, rfl, sound, .of_sheds (.refl sound.nonempty) (fun _ same => by cases same),
        (fun _ same => by cases same), fun _ _ held => held⟩
    | some plan =>
      have onTop : plan ∈ (thread.pushPlan (some plan)).planStack := mem_append_right _ mem_cons_self
      refine ⟨_, rfl, pushPlan_sound sound pushable, ⟨?_, ?_, (fun _ same => by cases same)⟩, ?_, ?_⟩
      · exact head?_append_of_ne_nil _ sound.nonempty
      · exact fun other => absurd rfl (other (some plan))
      · rintro _ ⟨rfl⟩
        exact mem_append_left _ onTop
      · intro _ other held
        rcases mem_append.mp held with stacked | elsewhere
        · exact mem_append_left _ (mem_append_left _ stacked)
        · exact mem_append_right _ elsewhere
  | shouldStop answers =>
    obtain ⟨answer, next, removed, ended, sheds⟩ := shouldStop_sheds sound (overridden_override answers)
    refine ⟨next, ?_, sheds.sound sound, .of_sheds sheds (fun _ same => by cases same),
      (fun _ same => by cases same), fun _ _ held => sheds.mem_all held⟩
    rw [perform, ended]
    rfl
  | discardThreadPlansUpToPlan plan =>
    obtain ⟨removed, sheds⟩ := discardThreadPlansUpToPlan_sheds sound.nonempty plan
    exact ⟨_, rfl, sheds.sound sound, .of_sheds sheds (fun _ same => by cases same),
      (fun _ same => by cases same), fun _ _ held => sheds.mem_all held⟩
  | discardThreadPlans answers force =>
    obtain ⟨next, removed, ended, sheds, okay⟩ := discardThreadPlans_sheds sound (overridden_override answers) force
    refine ⟨next, ended, sheds.sound sound, ⟨Keeps.head_of_sheds sheds, fun _ => ⟨removed, sheds.stack.symm⟩, ?_⟩,
      (fun _ same => by cases same), fun _ _ held => sheds.mem_all held⟩
    rintro _ ⟨rfl⟩ front master behind stack isMaster unwilling
    apply Keeps.prefix_of_not_mem sheds stack
    intro gone
    rw [okay rfl master gone isMaster] at unwilling
    cases unwilling
  | shouldResume answers =>
    obtain ⟨needToResume, ended⟩ := shouldResume_ends sound (answers.override isThreadPlanBase)
    refine ⟨{ thread with completedPlanStack := [], discardedPlanStack := [] }, ?_, ⟨sound.bottom, ?_⟩,
      ⟨rfl, fun _ => prefix_rfl, (fun _ same => by cases same)⟩,
      (fun _ same => by cases same), fun other => absurd rfl (other answers)⟩
    · rw [perform, ended]
      rfl
    · have distinct := sound.stack_nodup
      rwa [← append_nil thread.planStack] at distinct

theorem run_keeps {start : Thread π} (sound : Sound isThreadPlanBase start) {past : List (Operation π)}
    (legal : Legal isThreadPlanBase start past) :
    ∃ thread, after isThreadPlanBase start past = some thread ∧ Sound isThreadPlanBase thread ∧
      thread.planStack.head? = start.planStack.head? ∧ ∀ plan ∈ pushedSinceResume past, plan ∈ thread.all := by
  induction past with
  | nil => exact ⟨start, rfl, sound, rfl, (fun _ same => by cases same)⟩
  | cons operation past ih =>
    obtain ⟨thread, reached, soundThen, bottom, held⟩ := ih legal.1
    obtain ⟨next, ended, soundNext, keeps, pushed, kept⟩ := perform_keeps soundThen (legal.2 thread reached)
    refine ⟨next, by rw [after, reached, bind_some, ended], soundNext, keeps.bottom.trans bottom, ?_⟩
    intro plan since
    cases operation with
    | shouldResume answers => cases since
    | pushPlan new =>
      cases new with
      | none => exact kept (fun _ same => by cases same) plan (held plan since)
      | some first =>
        rcases mem_cons.mp since with rfl | earlier
        · exact pushed plan rfl
        · exact kept (fun _ same => by cases same) plan (held plan earlier)
    | shouldStop answers => exact kept (fun _ same => by cases same) plan (held plan since)
    | discardThreadPlansUpToPlan up => exact kept (fun _ same => by cases same) plan (held plan since)
    | discardThreadPlans answers force => exact kept (fun _ same => by cases same) plan (held plan since)

/-- No plan is lost over any run of a thread that starts with its base plan. -/
theorem plans_never_lost {start : Thread π} (sound : Sound isThreadPlanBase start) {past : List (Operation π)}
    (legal : Legal isThreadPlanBase start past) :
    ∃ thread, after isThreadPlanBase start past = some thread ∧ NeverLost isThreadPlanBase start past thread := by
  obtain ⟨thread, reached, soundThen, bottom, held⟩ := run_keeps sound legal
  refine ⟨thread, reached, bottom, ?_, ?_⟩
  · intro plan entered
    have inside : plan ∈ thread.all := entered.elim (held plan) (mem_append_left _)
    have once := count_eq_one_of_mem soundThen.distinct inside
    rwa [all, count_append, count_append, ← Nat.add_assoc] at once
  · intro operation pushable
    obtain ⟨next, ended, -, keeps, -⟩ := perform_keeps soundThen pushable
    exact ⟨next, ended, keeps⟩

def finishedAnswers : PlanAnswers Nat where
  planExplainsStop plan := plan = 2
  tracerExplainsStop _ := false
  shouldStop _ := true
  shouldAutoContinue _ := false
  mischiefManaged plan := plan = 2
  isMasterPlan _ := false
  okayToDiscard _ := true
  isPlanStale _ := true
  isPlanComplete _ := false
  isBasePlan _ := false
  willResume _ := true
  resumeStateSuspended := false
  temporaryResumeStateSuspended := false
  stoppedForAReason := true
  restarted := false
  privateStopInfo := none
  shouldStopSynchronous := false

def finishedRun : List (Operation Nat) := [.shouldStop finishedAnswers, .pushPlan (some 2), .pushPlan (some 1)]

theorem plans_never_lost_finishedRun :
    ∃ thread, after (· = 0) ⟨[0], [], []⟩ finishedRun = some thread ∧ NeverLost (· = 0) ⟨[0], [], []⟩ finishedRun thread := by
  have sound : Sound (· = 0) (⟨[0], [], []⟩ : Thread Nat) := ⟨⟨0, [], rfl, rfl⟩, by decide⟩
  refine plans_never_lost sound ⟨⟨⟨trivial, ?_⟩, ?_⟩, fun _ _ => trivial⟩
  · rintro _ ⟨rfl⟩
    show 1 ∉ [0]
    decide
  · rintro _ ⟨rfl⟩
    show 2 ∉ [0, 1]
    decide

example : after (· = 0) ⟨[0], [], []⟩ finishedRun = some ⟨[0], [2], [1]⟩ := by decide

end Lldb.Thread
