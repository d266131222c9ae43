import Mathlib.Algebra.Order.Ring.Int
import Mathlib.Data.List.Induction
import Mathlib.Data.List.Nodup

/-! `ThreadList::WillResume`: which threads run when the process is resumed.

What `SetupForResume` does to the plans and states of threads is arbitrary.
-/

set_option autoImplicit false

namespace Lldb.ThreadList

open List

inductive StateType where
  | running
  | stepping
  | suspended
  deriving DecidableEq, Repr

structure Plan where
  stopOthers : Bool
  runState : StateType
  willResume : StateType → Bool
  runs : runState ≠ .suspended

/-- `resumeState` is what the user has set. -/
structure ThreadState where
  resumeState : StateType
  plan : Plan

variable {ι : Type}

structure Thread (ι : Type) where
  id : ι
  isOperatingSystemPluginThread : Bool
  backingThread : Option ι

/-- Threads of a process; a thread that backs another one is not in the list itself. -/
structure Threads (ι : Type) where
  list : List (Thread ι)
  selectedTid : ι
  distinct : (list.map Thread.id).Nodup
  backing : ∀ thread ∈ list, ∀ other ∈ list, thread.backingThread ≠ some other.id

def wantsSolo (states : ι → ThreadState) (thread : Thread ι) : Bool :=
  (states thread.id).resumeState ≠ .suspended && (states thread.id).plan.stopOthers &&
    !(thread.isOperatingSystemPluginThread && thread.backingThread.isNone)

/-- Threads are set up one after the other; those that would not run anyway are left out. -/
def setupAll (setupForResume : Thread ι → (ι → ThreadState) → ι → ThreadState) (wantsSoloRun : Bool)
    (states : ι → ThreadState) (threads : List (Thread ι)) : ι → ThreadState :=
  threads.foldl (fun states thread =>
    if ((states thread.id).resumeState ≠ .suspended && (!wantsSoloRun || (states thread.id).plan.stopOthers)) &&
        !(thread.isOperatingSystemPluginThread && thread.backingThread.isNone) then
      setupForResume thread states
    else states) states

variable [DecidableEq ι]

def getSelectedThread (threads : Threads ι) : Option (Thread ι) :=
  match threads.list.find? fun thread => thread.id = threads.selectedTid with
  | some thread => some thread
  | none => threads.list.head?

/-- The threads that want to run alone, up to the selected one if that is among them. -/
def runMeOnly (states : ι → ThreadState) (selected : Option (Thread ι)) :
    List (Thread ι) → List (Thread ι) → List (Thread ι) × Bool
  | runMeOnlyList, [] => (runMeOnlyList, false)
  | runMeOnlyList, thread :: rest =>
    if wantsSolo states thread then
      if selected.map Thread.id = some thread.id then ([thread], true)
      else runMeOnly states selected (runMeOnlyList ++ [thread]) rest
    else runMeOnly states selected runMeOnlyList rest

/-- A number up to `RAND_MAX` is scaled to an index. -/
def randomThread {randMax : Nat} (rand : Fin (randMax + 1)) (size : Nat) : Nat := size * rand / (randMax + 1)

def shouldResume (states : ι → ThreadState) (thread : Thread ι) (resumeState : StateType) (given : ι → StateType) :
    Bool × (ι → StateType) :=
  let own := Function.update given thread.id resumeState
  ((states thread.id).plan.willResume resumeState, match thread.backingThread with
    | some backing => Function.update own backing resumeState
    | none => own)

/-- The loop over all threads; only some of them decide whether there is something to resume. -/
def resumeAll (states : ι → ThreadState) (runState : Thread ι → StateType) (decides : Thread ι → Bool)
    (given : Bool × (ι → StateType)) (threads : List (Thread ι)) : Bool × (ι → StateType) :=
  threads.foldl (fun (needToResume, given) thread =>
    let (resumes, given) := shouldResume states thread (runState thread) given
    (needToResume && (resumes || !decides thread), given)) given

def ownRunState (states : ι → ThreadState) (thread : Thread ι) : StateType :=
  if (states thread.id).resumeState ≠ .suspended then (states thread.id).plan.runState else .suspended

section Code

variable {randMax : Nat} (setupForResume : Thread ι → (ι → ThreadState) → ι → ThreadState) (rand : Fin (randMax + 1))
  (threads : Threads ι) (states : ι → ThreadState) (given : ι → StateType)

def statesToPick : ι → ThreadState :=
  setupAll setupForResume (threads.list.any (wantsSolo states)) states threads.list

def threadToRun (states : ι → ThreadState) : Option (Thread ι) :=
  let (runMeOnlyList, runOnlyCurrentThread) := runMeOnly states (getSelectedThread threads) [] threads.list
  if runOnlyCurrentThread then getSelectedThread threads
  else if runMeOnlyList.length = 1 then runMeOnlyList[0]?
  else runMeOnlyList[randomThread rand runMeOnlyList.length]?

/-- Whether there is something to resume, and the state that each thread is given. -/
def willResume : Bool × (ι → StateType) :=
  let states := statesToPick setupForResume threads states
  if (runMeOnly states (getSelectedThread threads) [] threads.list).1 = [] then
    resumeAll states (ownRunState states) (fun _ => true) (true, given) threads.list
  else
    let runs thread := (threadToRun rand threads states).map Thread.id = some thread.id
    resumeAll states (fun thread => if runs thread then (states thread.id).plan.runState else .suspended)
      (fun thread => runs thread) (true, given) threads.list

/-- One of the threads that want to run alone is given a state to run in, the selected one if it is among them; and
all others are suspended.
-/
structure RunsAlone (states : ι → ThreadState) (given : ι → StateType) (thread : Thread ι) : Prop where
  listed : thread ∈ threads.list
  wants : wantsSolo states thread = true
  runs : given thread.id ≠ .suspended
  others : ∀ other ∈ threads.list, other ≠ thread → given other.id = .suspended
  selected : ∀ selected ∈ getSelectedThread threads, wantsSolo states selected = true → selected = thread

end Code

variable {states : ι → ThreadState} {threads : Threads ι} {thread : Thread ι}

omit [DecidableEq ι] in
theorem eq_of_id {other : Thread ι} (member : thread ∈ threads.list) (otherIn : other ∈ threads.list)
    (same : thread.id = other.id) : thread = other :=
  inj_on_of_nodup_map threads.distinct member otherIn same

theorem getSelectedThread_mem (is : thread ∈ getSelectedThread threads) : thread ∈ threads.list := by
  unfold getSelectedThread at is
  split at is
  · next found =>
    cases is
    exact mem_of_find?_eq_some found
  · exact mem_of_mem_head? is

/-- Each thread of the list is left with the state of its own turn: a later one changes only its backing thread's. -/
theorem resumeAll_given (runState : Thread ι → StateType) (decides : Thread ι → Bool) (given : Bool × (ι → StateType))
    {list : List (Thread ι)} (distinct : (list.map Thread.id).Nodup)
    (backing : ∀ other ∈ list, other.backingThread ≠ some thread.id) (member : thread ∈ list) :
    (resumeAll states runState decides given list).2 thread.id = runState thread := by
  unfold resumeAll
  -- From the back: the last thread's turn comes last.
  induction list using reverseRecOn with
  | nil => cases member
  | append_singleton front last ih =>
    rw [foldl_append, foldl_cons, foldl_nil]
    dsimp only [shouldResume]
    have behind : ∀ given : ι → StateType, (match last.backingThread with
        | some backing => Function.update given backing (runState last)
        | none => given) thread.id = given thread.id := by
      intro given
      cases is : last.backingThread with
      | none => rfl
      | some other =>
        refine Function.update_of_ne (fun same => ?_) _ _
        exact backing last (mem_append_right _ (mem_singleton_self _)) (same ▸ is)
    rw [behind]
    rw [map_append, nodup_append] at distinct
    rcases mem_append.mp member with inFront | isLast
    · have other : thread.id ≠ last.id :=
        distinct.2.2 _ (mem_map_of_mem inFront) _ (mem_map_of_mem (mem_singleton_self _))
      rw [Function.update_of_ne other]
      exact ih distinct.1 (fun other otherIn => backing other (mem_append_left _ otherIn)) inFront
    · simp [mem_singleton.mp isLast]

/-- What the loop collects: only threads that want to run alone, or the selected one of them. -/
theorem runMeOnly_spec (states : ι → ThreadState) (selected : Option (Thread ι)) (collected rest : List (Thread ι)) :
    (runMeOnly states selected collected rest = (collected ++ rest.filter (wantsSolo states), false) ∧
        ∀ thread ∈ rest, wantsSolo states thread = true → selected.map Thread.id ≠ some thread.id) ∨
      ∃ thread ∈ rest, wantsSolo states thread = true ∧ selected.map Thread.id = some thread.id ∧
        runMeOnly states selected collected rest = ([thread], true) := by
  induction rest generalizing collected with
  | nil => exact .inl ⟨by simp [runMeOnly], nofun⟩
  | cons thread rest ih =>
    rw [runMeOnly]
    by_cases wants : wantsSolo states thread = true
    · by_cases isSelected : selected.map Thread.id = some thread.id
      · exact .inr ⟨thread, mem_cons_self, wants, isSelected, by rw [if_pos wants, if_pos isSelected]⟩
      · rw [if_pos wants, if_neg isSelected]
        rcases ih (collected ++ [thread]) with ⟨all, none_⟩ | ⟨other, member, found⟩
        · exact .inl ⟨by simp [all, wants], forall_mem_cons.mpr ⟨fun _ => isSelected, none_⟩⟩
        · exact .inr ⟨other, .tail _ member, found⟩
    · rw [if_neg wants]
      rcases ih collected with ⟨all, none_⟩ | ⟨other, member, found⟩
      · exact .inl ⟨by simp [all, wants], forall_mem_cons.mpr ⟨fun holds => absurd holds wants, none_⟩⟩
      · exact .inr ⟨other, .tail _ member, found⟩

theorem randomThread_lt {randMax : Nat} (rand : Fin (randMax + 1)) {size : Nat} (some_ : 0 < size) :
    randomThread rand size < size :=
  Nat.div_lt_of_lt_mul ((Nat.mul_lt_mul_left some_).mpr rand.isLt |>.trans_eq (Nat.mul_comm _ _))

theorem exists_threadToRun {randMax : Nat} (rand : Fin (randMax + 1)) (member : thread ∈ threads.list)
    (wants : wantsSolo states thread = true) :
    (runMeOnly states (getSelectedThread threads) [] threads.list).1 ≠ [] ∧
      ∃ picked ∈ threads.list, threadToRun rand threads states = some picked ∧ wantsSolo states picked = true ∧
        ∀ selected ∈ getSelectedThread threads, wantsSolo states selected = true → selected = picked := by
  unfold threadToRun
  rcases runMeOnly_spec states (getSelectedThread threads) [] threads.list with ⟨all, none_⟩ | ⟨picked, inList, wants, is, one⟩
  · rw [all, nil_append]
    have some_ : 0 < (threads.list.filter (wantsSolo states)).length :=
      length_pos_of_mem (mem_filter.mpr ⟨member, wants⟩)
    have found : ∃ index < (threads.list.filter (wantsSolo states)).length,
        (if (threads.list.filter (wantsSolo states)).length = 1 then (threads.list.filter (wantsSolo states))[0]?
          else (threads.list.filter (wantsSolo states))[randomThread rand (threads.list.filter (wantsSolo states)).length]?) =
          (threads.list.filter (wantsSolo states))[index]? := by
      split
      · exact ⟨0, some_, rfl⟩
      · exact ⟨_, randomThread_lt rand some_, rfl⟩
    obtain ⟨index, below, is⟩ := found
    dsimp only
    rw [is, getElem?_eq_getElem below]
    obtain ⟨inList, wants⟩ := mem_filter.mp (getElem_mem below)
    refine ⟨ne_nil_of_length_pos some_, _, inList, rfl, wants, fun selected isSelected holds => ?_⟩
    exact absurd (congrArg (Option.map Thread.id) isSelected) (none_ selected (getSelectedThread_mem isSelected) holds)
  · rw [one]
    obtain ⟨selected, isSelected, same⟩ := Option.map_eq_some_iff.mp is
    obtain rfl := eq_of_id (getSelectedThread_mem isSelected) inList same
    refine ⟨cons_ne_nil _ _, selected, inList, isSelected, wants, fun other isOther _ => ?_⟩
    exact Option.some.inj (isOther.symm.trans isSelected)

end Lldb.ThreadList
