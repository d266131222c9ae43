import Mathlib.Data.List.Basic
import Mathlib.Logic.Function.Iterate

/-! The stacks of plans of a `Thread`.

A stack is a vector whose back is the top. A loop that does not end by itself has the number of
turns it is given, and has no result when these do not suffice.
-/

set_option autoImplicit false

namespace Lldb

inductive StopReason where
  | invalid | none | trace | breakpoint | watchpoint | signal | exception | exec | planComplete | threadExiting | instrumentation
  deriving DecidableEq, Repr

structure StopInfo where
  stopReason : StopReason
  shouldStopSynchronous : Bool
  shouldStop : Bool
  deriving DecidableEq, Repr

/-- What a plan is asked during one call, where it is no `ThreadPlanBase`, and what the thread is asked. -/
structure PlanAnswers (π : Type) where
  planExplainsStop : π → Bool
  tracerExplainsStop : π → Bool
  shouldStop : π → Bool
  shouldAutoContinue : π → Bool
  mischiefManaged : π → Bool
  isMasterPlan : π → Bool
  okayToDiscard : π → Bool
  isPlanStale : π → Bool
  isPlanComplete : π → Bool
  isBasePlan : π → Bool
  willResume : π → Bool
  resumeStateSuspended : Bool
  temporaryResumeStateSuspended : Bool
  stoppedForAReason : Bool
  restarted : Bool
  privateStopInfo : Option StopInfo
  /-- What the stop info answers before the plans are asked. -/
  shouldStopSynchronous : Bool

/-- The overrides of `ThreadPlanBase`. -/
def PlanAnswers.override {π : Type} (isThreadPlanBase : π → Bool) (answers : PlanAnswers π) : PlanAnswers π :=
  { answers with
    planExplainsStop := fun plan =>
      if isThreadPlanBase plan then !answers.tracerExplainsStop plan else answers.planExplainsStop plan
    shouldAutoContinue := fun plan => !isThreadPlanBase plan && answers.shouldAutoContinue plan
    mischiefManaged := fun plan => !isThreadPlanBase plan && answers.mischiefManaged plan
    isMasterPlan := fun plan => isThreadPlanBase plan || answers.isMasterPlan plan
    okayToDiscard := fun plan => !isThreadPlanBase plan && answers.okayToDiscard plan
    isPlanStale := fun plan => !isThreadPlanBase plan && answers.isPlanStale plan
    isBasePlan := fun plan => isThreadPlanBase plan || answers.isBasePlan plan }

/-- `ThreadPlanBase::ShouldStop`: whether it discards the other plans, and its answer. -/
def ThreadPlanBase.shouldStop : Option StopInfo → Bool × Bool
  | none => (false, false)
  | some stopInfo =>
    match stopInfo.stopReason with
    | .invalid | .none => (false, false)
    | .breakpoint | .watchpoint => (stopInfo.shouldStopSynchronous, stopInfo.shouldStopSynchronous)
    | .exception | .exec => (true, true)
    | .threadExiting | .signal => (stopInfo.shouldStop, stopInfo.shouldStop)
    | .trace | .planComplete | .instrumentation => (false, true)

structure Thread (π : Type) where
  planStack : List π
  completedPlanStack : List π
  discardedPlanStack : List π
  deriving DecidableEq, Repr

namespace Thread

variable {π : Type}

def pushPlan (thread : Thread π) : Option π → Thread π
  | some plan => { thread with planStack := thread.planStack ++ [plan] }
  | none => thread

def popPlan (thread : Thread π) : Thread π :=
  if thread.planStack.length ≤ 1 then thread
  else { thread with
    planStack := thread.planStack.dropLast
    completedPlanStack := thread.completedPlanStack ++ thread.planStack.getLast?.toList }

def discardPlan (thread : Thread π) : Thread π :=
  if 1 < thread.planStack.length then
    { thread with
      planStack := thread.planStack.dropLast
      discardedPlanStack := thread.discardedPlanStack ++ thread.planStack.getLast?.toList }
  else thread

def getCurrentPlan (thread : Thread π) : Option π := thread.planStack.getLast?

variable [DecidableEq π]

/-- The plan before the last place a plan has in a stack, unless that is the first. -/
def previousIn (plan : π) : List π → Option π
  | first :: second :: rest =>
    match previousIn plan (second :: rest) with
    | some previous => some previous
    | none => if second = plan then some first else none
  | _ => none

def getPreviousPlan (thread : Thread π) (plan : π) : Option π :=
  match previousIn plan thread.completedPlanStack with
  | some previous => some previous
  | none =>
    if thread.completedPlanStack.head? = some plan then thread.getCurrentPlan
    else previousIn plan thread.planStack

def discardUpTo (upToPlan : π) : Nat → Thread π → Thread π
  | 0, thread => thread
  | turns + 1, thread =>
    if thread.getCurrentPlan = some upToPlan then thread.discardPlan else discardUpTo upToPlan turns thread.discardPlan

def discardThreadPlansUpToPlan (thread : Thread π) : Option π → Thread π
  | none => discardPlan^[thread.planStack.length - 1] thread
  | some upToPlan =>
    if upToPlan ∈ thread.planStack.tail then discardUpTo upToPlan (thread.planStack.length - 1) thread else thread

def planIsBasePlan (answers : PlanAnswers π) (thread : Thread π) (plan : π) : Bool :=
  answers.isBasePlan plan || thread.planStack.head? = some plan

/-- One turn of `DiscardThreadPlans(false)`, with the number of plans above the first master plan; no
master plan is as one that is okay to discard. It ends with the turn that has no result.
-/
def discardMasterPlan (answers : PlanAnswers π) (thread : Thread π) : Option (Thread π) :=
  let above := thread.planStack.reverse.findIdx answers.isMasterPlan
  let discard := thread.planStack.reverse[above]?.all answers.okayToDiscard
  if discard then
    let independent := discardPlan^[above] thread
    some (if above + 1 < thread.planStack.length then independent.discardPlan else independent)
  else none

def discardMasterPlans (answers : PlanAnswers π) : Nat → Thread π → Option (Thread π)
  | 0, _ => none
  | turns + 1, thread =>
    match discardMasterPlan answers thread with
    | some next => discardMasterPlans answers turns next
    | none => some thread

def discardThreadPlans (answers : PlanAnswers π) (force : Bool) (thread : Thread π) : Option (Thread π) :=
  if force then some (discardPlan^[thread.planStack.length - 1] thread)
  else discardMasterPlans answers thread.planStack.length thread

variable (isThreadPlanBase : π → Bool)

/-- `ThreadPlan::ShouldStop` -/
def askShouldStop (answers : PlanAnswers π) (thread : Thread π) (plan : π) : Option (Bool × Thread π) :=
  if isThreadPlanBase plan then
    let (discards, answer) := ThreadPlanBase.shouldStop answers.privateStopInfo
    if discards then (thread.discardThreadPlans answers false).map fun thread => (answer, thread) else some (answer, thread)
  else some (answers.shouldStop plan, thread)

def findExplaining (answers : PlanAnswers π) (thread : Thread π) : Nat → π → Option (Option π)
  | 0, _ => none
  | turns + 1, plan =>
    match thread.getPreviousPlan plan with
    | none => some none
    | some previous =>
      if answers.planExplainsStop previous then some (some previous) else findExplaining answers thread turns previous

def popPlansDownTo (plan : Option π) : Nat → Thread π → Option (Thread π)
  | 0, _ => none
  | turns + 1, thread =>
    if thread.popPlan.getCurrentPlan = plan then some thread.popPlan else popPlansDownTo plan turns thread.popPlan

/-- The first part of `ShouldStop`: whether the current plan is done with, what is known of the answer, and
the thread.
-/
def explainStop (answers : PlanAnswers π) (thread : Thread π) (currentPlan : π) : Option (Bool × Bool × Thread π) :=
  if answers.planExplainsStop currentPlan then some (false, true, thread)
  else if answers.tracerExplainsStop currentPlan then some (true, false, thread)
  else do
    match ← findExplaining answers thread thread.planStack.length currentPlan with
    | none => some (false, true, thread)
    | some plan =>
      let (shouldStop, thread) ← askShouldStop isThreadPlanBase answers thread plan
      if answers.mischiefManaged plan then
        let thread ← popPlansDownTo (thread.getPreviousPlan plan) thread.planStack.length thread
        some (answers.isMasterPlan plan && !answers.okayToDiscard plan, shouldStop, thread)
      else some (true, shouldStop, thread)

def askPlans (answers : PlanAnswers π) : Nat → Bool → Thread π → π → Option (Bool × Thread π)
  | 0, _, _, _ => none
  | turns + 1, shouldStop, thread, currentPlan =>
    if planIsBasePlan answers thread currentPlan then some (shouldStop, thread)
    else do
      let (shouldStop, thread) ← askShouldStop isThreadPlanBase answers thread currentPlan
      if answers.mischiefManaged currentPlan then
        if shouldStop && answers.isMasterPlan currentPlan && !answers.okayToDiscard currentPlan then
          some (shouldStop, thread.popPlan)
        else
          match thread.popPlan.getCurrentPlan with
          | none => some (shouldStop, thread.popPlan)
          | some next => askPlans answers turns shouldStop thread.popPlan next
      else some (shouldStop, thread)

/-- The second part of `ShouldStop`. -/
def decideStop (answers : PlanAnswers π) (shouldStop : Bool) (thread : Thread π) (currentPlan : π) :
    Option (Bool × Thread π) := do
  let overrideStop := answers.shouldAutoContinue currentPlan
  let (shouldStop, thread) ←
    if planIsBasePlan answers thread currentPlan then askShouldStop isThreadPlanBase answers thread currentPlan
    else askPlans isThreadPlanBase answers thread.planStack.length shouldStop thread currentPlan
  some (!overrideStop && shouldStop, thread)

def discardPlansDownTo (plan : π) : Nat → Thread π → Option (Thread π)
  | 0, _ => none
  | turns + 1, thread =>
    if thread.getCurrentPlan = some plan then some thread else discardPlansDownTo plan turns thread.discardPlan

/-- The loop over the plans that may be stale; it has no result for a null pointer. -/
def clearStalePlans (answers : PlanAnswers π) : Nat → Thread π → Option π → Option (Thread π)
  | 0, _, _ => none
  | _, _, none => none
  | turns + 1, thread, some examinedPlan =>
    if planIsBasePlan answers thread examinedPlan then some thread
    else
      let plan := thread.getPreviousPlan examinedPlan
      if answers.isPlanStale examinedPlan then do
        let thread ← discardPlansDownTo examinedPlan thread.planStack.length thread
        clearStalePlans answers turns
          (if answers.isPlanComplete examinedPlan then thread.popPlan else thread.discardPlan) plan
      else clearStalePlans answers turns thread plan

/-- The last part of `ShouldStop`. -/
def finishStop (answers : PlanAnswers π) (shouldStop : Bool) (thread : Thread π) : Option (Bool × Thread π) :=
  if shouldStop then
    (clearStalePlans answers thread.planStack.length thread thread.getCurrentPlan).map fun thread => (shouldStop, thread)
  else some (shouldStop, thread)

def shouldStop (answers : PlanAnswers π) (thread : Thread π) : Option (Bool × Thread π) := do
  let currentPlan ← thread.getCurrentPlan
  if answers.resumeStateSuspended || answers.temporaryResumeStateSuspended || !answers.stoppedForAReason ||
      answers.privateStopInfo.isSome && !answers.shouldStopSynchronous || answers.restarted then
    some (false, thread)
  else
    let (done, shouldStop, thread) ← explainStop isThreadPlanBase answers thread currentPlan
    let (shouldStop, thread) ←
      if done then some (shouldStop, thread)
      else thread.getCurrentPlan.bind (decideStop isThreadPlanBase answers shouldStop thread)
    finishStop answers shouldStop thread

def tellWillResume (thread : Thread π) : Nat → π → Option (List π)
  | 0, _ => none
  | turns + 1, plan =>
    match thread.getPreviousPlan plan with
    | none => some []
    | some previous => (tellWillResume thread turns previous).map (previous :: ·)

/-- Whether the thread needs to resume, and the plans that were told, the current one first. -/
def shouldResume (answers : PlanAnswers π) (thread : Thread π) : Option (Bool × List π × Thread π) :=
  let thread := { thread with completedPlanStack := [], discardedPlanStack := [] }
  match thread.getCurrentPlan with
  | none => some (false, [], thread)
  | some plan => (tellWillResume thread thread.planStack.length plan).map fun told =>
      (answers.willResume plan, plan :: told, thread)

inductive Operation (π : Type) where
  | pushPlan (plan : Option π)
  | shouldStop (answers : PlanAnswers π)
  | discardThreadPlansUpToPlan (plan : Option π)
  | discardThreadPlans (answers : PlanAnswers π) (force : Bool)
  | shouldResume (answers : PlanAnswers π)

def perform (thread : Thread π) : Operation π → Option (Thread π)
  | .pushPlan plan => some (thread.pushPlan plan)
  | .shouldStop answers => (thread.shouldStop isThreadPlanBase (answers.override isThreadPlanBase)).map Prod.snd
  | .discardThreadPlansUpToPlan plan => some (thread.discardThreadPlansUpToPlan plan)
  | .discardThreadPlans answers force => thread.discardThreadPlans (answers.override isThreadPlanBase) force
  | .shouldResume answers => (thread.shouldResume (answers.override isThreadPlanBase)).map fun result => result.2.2

end Thread

end Lldb
