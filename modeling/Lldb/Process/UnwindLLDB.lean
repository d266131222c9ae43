import Mathlib.Algebra.Order.Ring.Int
import Mathlib.Data.List.Basic

/-! `UnwindLLDB`: the frames of a stack, each with its register context, and what is tried to get another frame.

What register contexts find in memory is arbitrary; it may depend on the frames below and on the plans in use there.
-/

set_option autoImplicit false

namespace Lldb.UnwindLLDB

open List Option

/-- The plan that a register context uses; a full one with whether there is a fallback to try. -/
inductive PlanInUse where
  | full (fallbackLeft : Bool)
  | fallback
  deriving DecidableEq, Repr

structure Cursor (ι : Type) where
  context : ι
  plan : PlanInUse
  cfa : Nat
  startPC : Nat
  deriving DecidableEq, Repr

variable {ι : Type}

/-- What register contexts do. The frames are those below, from the last one on; the flag says that the fallback plan
is in use. A plan is taken in place of another only if it tells the canonical frame address too.
-/
structure RegisterContexts (ι : Type) where
  create : List (Cursor ι) → ι
  isValid : ι → Bool
  isTrapHandlerFrame : ι → Bool
  hasFallback : ι → Bool
  switches : List (Cursor ι) → ι → Bool
  cfa : ι → Bool → Option Nat
  readPC : List (Cursor ι) → ι → Bool → Option Nat
  keepsCFA : ∀ below context, switches below context = true → (cfa context false).isSome → (cfa context true).isSome

structure ABI where
  callFrameAddressIsValid : Nat → Bool
  codeAddressIsValid : Nat → Bool

namespace RegisterContexts

variable (contexts : RegisterContexts ι)

def getCFA (context : ι) (plan : PlanInUse) : Option Nat :=
  if contexts.isValid context then contexts.cfa context (plan = .fallback) else none

def tryFallbackUnwindPlan (below : List (Cursor ι)) (context : ι) : PlanInUse → Bool × PlanInUse
  | .full true => if contexts.switches below context then (true, .fallback) else (false, .full false)
  | plan => (false, plan)

end RegisterContexts

/-- What comes of a new cursor: it is given up at once, or because of a plan that may be the wrong one. -/
inductive Attempt (ι : Type) where
  | found (cursor : Cursor ι)
  | failed
  | stops

/-- `m_frames` from its back on, `m_candidate_frame` and `m_unwind_complete` -/
structure State (ι : Type) where
  frames : List (Cursor ι)
  candidate : Option (Cursor ι)
  complete : Bool

section Code

variable (contexts : RegisterContexts ι) (abi : Option ABI)

/-- A canonical frame address that the ABI does not allow, unless that of another plan is better. -/
def validCFA (frames : List (Cursor ι)) (context : ι) (plan : PlanInUse) (cfa : Nat) : Option (PlanInUse × Nat) :=
  match abi with
  | none => some (plan, cfa)
  | some abi =>
    if abi.callFrameAddressIsValid cfa || contexts.isTrapHandlerFrame context then some (plan, cfa)
    else
      match contexts.tryFallbackUnwindPlan frames context plan with
      | (false, _) => none
      | (true, plan) =>
        match contexts.getCFA context plan with
        | none => none
        | some cfa => if abi.callFrameAddressIsValid cfa then some (plan, cfa) else none

/-- `GetOneMoreFrame` up to where it would try the fallback plan of the frame below. -/
def attempt (prev : Cursor ι) (below : List (Cursor ι)) : Attempt ι :=
  if 300000 < below.length + 1 then .stops
  else
    let context := contexts.create (prev :: below)
    let plan := .full (contexts.hasFallback context)
    match contexts.getCFA context plan with
    | none => .failed
    | some cfa =>
      match validCFA contexts abi (prev :: below) context plan cfa with
      | none => .failed
      | some (plan, cfa) =>
        match contexts.readPC (prev :: below) context (plan = .fallback) with
        | none => .failed
        | some startPC =>
          if abi.any fun abi => !abi.codeAddressIsValid startPC then .failed
          else if prev.startPC = startPC ∧ prev.cfa = cfa then .stops
          else .found ⟨context, plan, cfa, startPC⟩

/-- Returns the last frame as it is then, and the new one. Each round but the first has switched the last frame to its
fallback plan.
-/
def getOneMoreFrame : Nat → Cursor ι → List (Cursor ι) → Cursor ι × Option (Cursor ι)
  | 0, prev, _ => (prev, none)
  | rounds + 1, prev, below =>
    match attempt contexts abi prev below with
    | .found cursor => (prev, some cursor)
    | .stops => (prev, none)
    | .failed =>
      match contexts.tryFallbackUnwindPlan below prev.context prev.plan with
      | (false, plan) => ({ prev with plan }, none)
      | (true, plan) =>
        match contexts.getCFA prev.context plan with
        | none => ({ prev with plan }, none)
        | some cfa => getOneMoreFrame rounds { prev with plan, cfa } below

def oneMoreFrame : Cursor ι → List (Cursor ι) → Cursor ι × Option (Cursor ι) := getOneMoreFrame contexts abi 2

/-- `AddOneMoreFrame` from where it cannot go further from the new frame. -/
def tryFallbackBelow (newFrame below : Cursor ι) (rest : List (Cursor ι)) : Bool × State ι :=
  match contexts.tryFallbackUnwindPlan rest below.context below.plan with
  | (false, plan) => (true, ⟨newFrame :: { below with plan } :: rest, none, false⟩)
  | (true, plan) =>
    match oneMoreFrame contexts abi { below with plan } rest with
    | (below, none) => (true, ⟨newFrame :: below :: rest, none, false⟩)
    | (below, some newFrameV2) =>
      match oneMoreFrame contexts abi newFrameV2 (below :: rest) with
      | (newFrameV2, some candidate) =>
        match contexts.getCFA below.context below.plan with
        | none => (false, ⟨newFrameV2 :: below :: rest, some candidate, false⟩)
        | some cfa => (true, ⟨newFrameV2 :: { below with cfa } :: rest, some candidate, false⟩)
      | (_, none) => (true, ⟨newFrame :: below :: rest, none, false⟩)

def nextFrame (candidate : Option (Cursor ι)) (below : Cursor ι) (rest : List (Cursor ι)) :
    Cursor ι × Option (Cursor ι) :=
  match candidate with
  | some cursor => (below, some cursor)
  | none => oneMoreFrame contexts abi below rest

def addOneMoreFrame (state : State ι) : Bool × State ι :=
  match state.frames with
  | [] => (false, state)
  | below :: rest =>
    if state.complete then (false, state)
    else
      match nextFrame contexts abi state.candidate below rest with
      | (below, none) => (false, ⟨below :: rest, none, true⟩)
      | (below, some newFrame) =>
        match oneMoreFrame contexts abi newFrame (below :: rest) with
        | (newFrame, some candidate) => (true, ⟨newFrame :: below :: rest, some candidate, false⟩)
        | (newFrame, none) => tryFallbackBelow contexts abi newFrame below rest

/-- The loop that removes frames again compares with the size as it becomes smaller. -/
def updateUnwindPlanForFirstFrameIfInvalid (state : State ι) : State ι :=
  let frames := (addOneMoreFrame contexts abi state).2.frames
  { state with frames := frames.drop (frames.length / 2) }

def addFirstFrame (state : State ι) : Bool × State ι :=
  match state.frames with
  | _ :: _ => (true, state)
  | [] =>
    let context := contexts.create []
    let plan := .full (contexts.hasFallback context)
    match contexts.getCFA context plan with
    | none => (false, { state with complete := true })
    | some cfa =>
      match contexts.readPC [] context false with
      | none => (false, { state with complete := true })
      | some startPC =>
        (true, updateUnwindPlanForFirstFrameIfInvalid contexts abi { state with frames :=
          [⟨context, plan, cfa, startPC⟩] })

/-! What an attempt with a fallback plan leaves behind. -/

/-- The fallback plan of the frame below is tried, and does not get further than the new frame. -/
def GivesUp (below : Cursor ι) (rest : List (Cursor ι)) : Prop :=
  (contexts.tryFallbackUnwindPlan rest below.context below.plan).1 = true ∧
    ∀ other ∈ (oneMoreFrame contexts abi { below with plan := .fallback } rest).2,
      (oneMoreFrame contexts abi other
        ((oneMoreFrame contexts abi { below with plan := .fallback } rest).1 :: rest)).2 =
        none

/-- The cursor has the canonical frame address that its register context gives. -/
def Consistent (cursor : Cursor ι) : Prop := contexts.getCFA cursor.context cursor.plan = some cursor.cfa

/-- If the attempt is given up then all is as before: the frames, their addresses and their plans. -/
def LeavesNoTrace (newFrame below : Cursor ι) (rest : List (Cursor ι)) : Prop :=
  GivesUp contexts abi below rest →
    (tryFallbackBelow contexts abi newFrame below rest).2.frames = newFrame :: below :: rest ∧
      ((∀ cursor ∈ newFrame :: below :: rest, Consistent contexts cursor) →
        ∀ cursor ∈ (tryFallbackBelow contexts abi newFrame below rest).2.frames, Consistent contexts cursor)

def StepGivesUp (state : State ι) : Prop :=
  ∃ top rest below newFrame, state.frames = top :: rest ∧ state.complete = false ∧
    nextFrame contexts abi state.candidate top rest = (below, some newFrame) ∧
      (oneMoreFrame contexts abi newFrame (below :: rest)).2 = none ∧ GivesUp contexts abi below rest

def firstCursor (cfa startPC : Nat) : Cursor ι :=
  ⟨contexts.create [], .full (contexts.hasFallback (contexts.create [])), cfa, startPC⟩

inductive Run : State ι → Prop where
  | new : Run ⟨[], none, false⟩
  | addFirstFrame {state : State ι} : Run state → (state.frames = [] → ∀ cfa startPC,
        ¬ StepGivesUp contexts abi { state with frames := [firstCursor contexts cfa startPC] }) →
      Run (addFirstFrame contexts abi state).2
  | addOneMoreFrame {state : State ι} : Run state → ¬ StepGivesUp contexts abi state →
      Run (addOneMoreFrame contexts abi state).2

end Code

variable {contexts : RegisterContexts ι} {abi : Option ABI} {context : ι} {plan after : PlanInUse}
  {prev below : Cursor ι}
  {rest : List (Cursor ι)}

theorem tryFallback_true (takes : contexts.tryFallbackUnwindPlan rest context plan = (true, after)) :
    plan = .full true ∧ after = .fallback ∧ contexts.switches rest context = true := by
  unfold RegisterContexts.tryFallbackUnwindPlan at takes
  split at takes
  · split at takes
    · next switches => exact ⟨rfl, (Prod.mk.inj takes).2.symm, switches⟩
    · cases takes
  · cases takes

theorem tryFallback_false (keeps : contexts.tryFallbackUnwindPlan rest context plan = (false, after)) :
    contexts.getCFA context after = contexts.getCFA context plan ∧ (plan = .fallback → after = .fallback) := by
  unfold RegisterContexts.tryFallbackUnwindPlan at keeps
  split at keeps
  · split at keeps <;> cases keeps
    exact ⟨rfl, nofun⟩
  · cases keeps
    exact ⟨rfl, id⟩

theorem exists_getCFA (takes : contexts.tryFallbackUnwindPlan rest context plan = (true, after)) {cfa : Nat}
    (told : contexts.getCFA context plan = some cfa) : ∃ other, contexts.getCFA context after = some other := by
  obtain ⟨rfl, rfl, switches⟩ := tryFallback_true takes
  unfold RegisterContexts.getCFA at told ⊢
  split at told
  · next valid =>
    rw [if_pos valid]
    exact isSome_iff_exists.mp (contexts.keepsCFA rest context switches (isSome_of_mem told))
  · cases told

theorem validCFA_told {cfa last : Nat} (told : contexts.getCFA context plan = some cfa)
    (valid : validCFA contexts abi rest context plan cfa = some (after, last)) :
    contexts.getCFA context after = some last := by
  unfold validCFA at valid
  split at valid
  · cases valid
    exact told
  · split at valid
    · cases valid
      exact told
    · split at valid
      · cases valid
      · split at valid
        · cases valid
        · next other tells =>
          obtain ⟨-, same⟩ := ite_none_right_eq_some.mp valid
          cases same
          exact tells

theorem attempt_consistent {cursor : Cursor ι} (found : attempt contexts abi prev rest = .found cursor) :
    Consistent contexts cursor := by
  unfold attempt at found
  dsimp only at found
  split at found
  · cases found
  · split at found
    · cases found
    · next cfa told =>
      split at found
      · cases found
      · next plan last valid =>
        split at found
        · cases found
        · split_ifs at found
          cases found
          exact validCFA_told told valid

/-- What another frame costs the last one: the context stays, a fallback plan stays in use, and the address is that of
the plan.
-/
theorem getOneMoreFrame_spec (contexts : RegisterContexts ι) (abi : Option ABI) (rest : List (Cursor ι)) (rounds : Nat)
    (prev : Cursor ι) :
    ((getOneMoreFrame contexts abi rounds prev rest).1.context = prev.context ∧
      (prev.plan = .fallback → (getOneMoreFrame contexts abi rounds prev rest).1.plan = .fallback)) ∧
    (Consistent contexts prev → Consistent contexts (getOneMoreFrame contexts abi rounds prev rest).1) ∧
      ∀ cursor ∈ (getOneMoreFrame contexts abi rounds prev rest).2, Consistent contexts cursor := by
  induction rounds generalizing prev with
  | zero => exact ⟨⟨rfl, id⟩, id, nofun⟩
  | succ rounds ih =>
    rw [getOneMoreFrame]
    cases tried : attempt contexts abi prev rest with
    | found cursor => exact ⟨⟨rfl, id⟩, id, fun other is => mem_some.mp is ▸ attempt_consistent tried⟩
    | stops => exact ⟨⟨rfl, id⟩, id, nofun⟩
    | failed =>
      rcases takes : contexts.tryFallbackUnwindPlan rest prev.context prev.plan with ⟨_ | _, after⟩
      · obtain ⟨same, fallback⟩ := tryFallback_false takes
        exact ⟨⟨rfl, fallback⟩, same.trans, nofun⟩
      · obtain ⟨full, rfl, switches⟩ := tryFallback_true takes
        dsimp only
        cases told : contexts.getCFA prev.context .fallback with
        | none =>
          refine ⟨⟨rfl, fun _ => rfl⟩, fun before => ?_, nofun⟩
          obtain ⟨cfa, tells⟩ := exists_getCFA takes before
          exact nomatch told.symm.trans tells
        | some cfa =>
          obtain ⟨⟨context, plan⟩, consistent, new⟩ := ih { prev with plan := .fallback, cfa }
          exact ⟨⟨context, fun _ => plan rfl⟩, fun _ => consistent told, new⟩

theorem oneMoreFrame_spec {result : Cursor ι × Option (Cursor ι)} (is : oneMoreFrame contexts abi prev rest = result) :
    (result.1.context = prev.context ∧ (prev.plan = .fallback → result.1.plan = .fallback)) ∧
      (Consistent contexts prev → Consistent contexts result.1) ∧ ∀ cursor ∈ result.2, Consistent contexts cursor :=
  is ▸ getOneMoreFrame_spec contexts abi rest 2 prev

theorem getOneMoreFrame_rounds (rounds : Nat) (prev : Cursor ι) :
    getOneMoreFrame contexts abi (rounds + 2) prev rest = oneMoreFrame contexts abi prev rest := by
  unfold oneMoreFrame
  simp only [getOneMoreFrame]
  split
  · rfl
  · rfl
  · split
    · rfl
    · next after takes =>
      obtain ⟨-, rfl, -⟩ := tryFallback_true takes
      split
      · rfl
      · simp only [RegisterContexts.tryFallbackUnwindPlan]

theorem GivesUp.leaves_trace (givesUp : GivesUp contexts abi below rest) (newFrame : Cursor ι) :
    (tryFallbackBelow contexts abi newFrame below rest).2.frames ≠ newFrame :: below :: rest := by
  obtain ⟨takes, inVain⟩ := givesUp
  rcases taken : contexts.tryFallbackUnwindPlan rest below.context below.plan with ⟨_ | _, after⟩
  · rw [taken] at takes
    cases takes
  · obtain ⟨full, rfl, -⟩ := tryFallback_true taken
    have kept : (oneMoreFrame contexts abi { below with plan := .fallback } rest).1.plan = .fallback :=
      (oneMoreFrame_spec rfl).1.2 rfl
    have trace : (tryFallbackBelow contexts abi newFrame below rest).2.frames =
        newFrame :: (oneMoreFrame contexts abi { below with plan := .fallback } rest).1 :: rest := by
      unfold tryFallbackBelow
      rw [taken]
      dsimp only
      rcases other : oneMoreFrame contexts abi { below with plan := .fallback } rest with ⟨changed, _ | newFrameV2⟩
      · rfl
      · have stuck := inVain newFrameV2 (by rw [other]; rfl)
        rw [other] at stuck
        dsimp only at stuck ⊢
        rcases further : oneMoreFrame contexts abi newFrameV2 (changed :: rest) with ⟨last, _ | candidate⟩
        · rfl
        · rw [further] at stuck
          cases stuck
    rw [trace]
    intro same
    rw [(List.cons.inj (List.cons.inj same).2).1, full] at kept
    cases kept

def Told (contexts : RegisterContexts ι) (state : State ι) : Prop :=
  (∀ cursor ∈ state.frames, Consistent contexts cursor) ∧ ∀ cursor ∈ state.candidate, Consistent contexts cursor

variable {newFrame : Cursor ι} {state : State ι}

theorem tryFallbackBelow_told (new : Consistent contexts newFrame) (told : Consistent contexts below)
    (others : ∀ cursor ∈ rest, Consistent contexts cursor) (goesOn : ¬ GivesUp contexts abi below rest) :
    Told contexts (tryFallbackBelow contexts abi newFrame below rest).2 := by
  unfold tryFallbackBelow
  rcases takes : contexts.tryFallbackUnwindPlan rest below.context below.plan with ⟨_ | _, after⟩
  · exact ⟨forall_mem_cons.mpr ⟨new, forall_mem_cons.mpr ⟨(tryFallback_false takes).1.trans told, others⟩⟩, nofun⟩
  · obtain ⟨-, rfl, -⟩ := tryFallback_true takes
    obtain ⟨cfa, tells⟩ := exists_getCFA takes told
    dsimp only
    rcases other : oneMoreFrame contexts abi { below with plan := .fallback } rest with ⟨changed, _ | newFrameV2⟩
    · exact absurd ⟨by rw [takes], by rw [other]; nofun⟩ goesOn
    · obtain ⟨⟨context, plan⟩, -, found⟩ := oneMoreFrame_spec other
      dsimp only at context plan ⊢
      rcases further : oneMoreFrame contexts abi newFrameV2 (changed :: rest) with ⟨last, _ | candidate⟩
      · refine absurd ⟨by rw [takes], fun cursor is => ?_⟩ goesOn
        rw [other] at is ⊢
        cases is
        exact congrArg Prod.snd further
      · obtain ⟨-, kept, candidates⟩ := oneMoreFrame_spec further
        rw [context, plan rfl, tells]
        exact ⟨forall_mem_cons.mpr ⟨kept (found _ rfl), forall_mem_cons.mpr ⟨tells, others⟩⟩, candidates⟩

theorem addOneMoreFrame_told (told : Told contexts state) (goesOn : ¬ StepGivesUp contexts abi state) :
    Told contexts (addOneMoreFrame contexts abi state).2 := by
  unfold addOneMoreFrame
  cases frames : state.frames with
  | nil => exact told
  | cons top rest =>
    have all := told.1
    rw [frames, forall_mem_cons] at all
    cases complete : state.complete with
    | true => exact told
    | false =>
      have next : (∀ cursor ∈ (nextFrame contexts abi state.candidate top rest).2, Consistent contexts cursor) ∧
          Consistent contexts (nextFrame contexts abi state.candidate top rest).1 := by
        cases candidate : state.candidate with
        | some cursor =>
          have candidates := told.2
          rw [candidate] at candidates
          exact ⟨candidates, all.1⟩
        | none =>
          obtain ⟨-, kept, new⟩ := oneMoreFrame_spec (Eq.refl (oneMoreFrame contexts abi top rest))
          exact ⟨new, kept all.1⟩
      dsimp only
      rcases is : nextFrame contexts abi state.candidate top rest with ⟨below, _ | newFrame⟩
      · rw [is] at next
        exact ⟨forall_mem_cons.mpr ⟨next.2, all.2⟩, nofun⟩
      · rw [is] at next
        rcases further : oneMoreFrame contexts abi newFrame (below :: rest) with ⟨last, _ | candidate⟩
        · have stuck : ¬ GivesUp contexts abi below rest := fun givesUp =>
            goesOn ⟨top, rest, below, newFrame, frames, complete, is, by rw [further], givesUp⟩
          obtain ⟨-, kept, -⟩ := oneMoreFrame_spec further
          dsimp only
          rw [further]
          exact tryFallbackBelow_told (kept (next.1 _ rfl)) next.2 all.2 stuck
        · obtain ⟨-, kept, candidates⟩ := oneMoreFrame_spec further
          dsimp only
          rw [further]
          exact ⟨forall_mem_cons.mpr ⟨kept (next.1 _ rfl), forall_mem_cons.mpr ⟨next.2, all.2⟩⟩, candidates⟩

theorem addFirstFrame_told (told : Told contexts state) (goesOn : state.frames = [] → ∀ cfa startPC,
      ¬ StepGivesUp contexts abi { state with frames := [firstCursor contexts cfa startPC] }) :
    Told contexts (addFirstFrame contexts abi state).2 := by
  unfold addFirstFrame
  cases frames : state.frames with
  | cons top rest => exact told
  | nil =>
    dsimp only
    cases tells : contexts.getCFA (contexts.create []) (.full (contexts.hasFallback (contexts.create []))) with
    | none => exact ⟨forall_mem_nil _, told.2⟩
    | some cfa =>
      cases contexts.readPC [] (contexts.create []) false with
      | none => exact ⟨forall_mem_nil _, told.2⟩
      | some startPC =>
        have start : Told contexts { state with frames := [firstCursor contexts cfa startPC] } :=
          ⟨forall_mem_cons.mpr ⟨tells, nofun⟩, told.2⟩
        exact ⟨fun cursor member => (addOneMoreFrame_told start (goesOn frames cfa startPC)).1 cursor
          (mem_of_mem_drop member), told.2⟩

theorem Run.told (run : Run contexts abi state) : Told contexts state := by
  induction run with
  | new => exact ⟨nofun, nofun⟩
  | addFirstFrame _ goesOn ih => exact addFirstFrame_told ih goesOn
  | addOneMoreFrame _ goesOn ih => exact addOneMoreFrame_told ih goesOn

/-- A stack of two frames, of which the lower one has two plans; nothing is found above the other one. -/
def twoFrames : RegisterContexts Nat where
  create := List.length
  isValid context := context < 2
  isTrapHandlerFrame _ := false
  hasFallback context := context = 0
  switches _ context := context = 0
  cfa context fallback := some (if fallback then 4096 else 1024 * (context + 1))
  readPC _ context _ := some (context + 1)
  keepsCFA _ _ _ _ := rfl

end Lldb.UnwindLLDB
