import Lldb.GdbRemote.ClientExclusion

/-! What an observer of the connection knows of the continue thread's call, its two slots
`m_continue_packet` and `m_should_stop`, and whether the process may be resumed; every
trace of the client is one that the observer accepts.
-/

set_option autoImplicit false

namespace Lldb.GdbRemote.ClientBase

variable {ι : Type}

inductive Phase where
  | idle
  | starting
  | running
  | handling (shouldStop : Bool)
  deriving DecidableEq, Repr

def Phase.resumes : Phase → Option StateType
  | .starting => some .invalid
  | .handling false => some .stopped
  | _ => none

/-- The call of the continue thread, the two slots, and whether the process has not been
resumed, nor a resumption tried, since it last stopped. -/
structure View where
  phase : Phase
  slot : Bytes
  stop : Bool
  window : Bool
  deriving DecidableEq, Repr

def View.observe (view : View) : Event ι → Option View
  | .interruptByte _ => some view
  | .packet _ => some view
  | .called payload =>
      if view.phase = .idle then some { view with phase := .starting, slot := payload, stop := false }
      else none
  | .continued packet =>
      if view.phase.resumes.isSome ∧ view.stop = false ∧ packet = view.slot then
        some { view with phase := .running, window := false }
      else none
  | .failed packet =>
      -- A try that fails closes the window as well: the remote may have got the packet.
      if view.phase.resumes.isSome ∧ view.stop = false ∧ ∀ sent ∈ packet, sent = view.slot then
        some { view with phase := .idle, window := false }
      else none
  | .cancelled state =>
      if view.phase.resumes = some state ∧ view.stop = true then
        some { view with phase := .idle, stop := false, window := false }
      else none
  | .stopReply shouldStop =>
      if view.phase = .running then
        some { view with phase := .handling shouldStop, slot := continueAll, window := true }
      else none
  | .stopped => if view.phase = .handling true then some { view with phase := .idle } else none
  | .ended _ =>
      -- The run is over without a stop reply; the requests that wait for it go through now.
      if view.phase = .running then some { view with phase := .idle, window := true } else none
  | .signalled _ signo =>
      if view.window then some { view with slot := signalPacket signo } else none
  | .interrupted _ => if view.window then some { view with stop := true } else none

def accepts : List (Event ι) → Option View
  | [] => some ⟨.idle, [], false, false⟩
  | event :: trace => (accepts trace).bind (·.observe event)

def phaseOf : ContinuePoint → Phase
  | .idle => .idle
  | .starting => .starting
  | .reading | .stopping _ | .ending _ => .running
  | .unlocked shouldStop => .handling shouldStop

/-- The `Lock` of a thread at this point has interrupted the continue thread, or waits for it. -/
def interrupting : AsyncPoint → Bool
  | .waiting _ | .acquired _ true | .inside _ true => true
  | _ => false

/-- The view agrees with the shared variables, and while a `Lock` that interrupted is held
after a run nobody resumes. -/
structure View.Matches (view : View) (client : ClientBase ι) : Prop where
  phase : view.phase = phaseOf client.continuer
  slot : view.slot = client.continuePacket
  stop : view.stop = client.shouldStop
  window : client.isRunning = false → ∀ thread, interrupting (client.threads thread) = true → view.window = true

def Refines (client : ClientBase ι) : Prop :=
  ∃ view, accepts client.trace = some view ∧ view.Matches client

theorem refines_new : Refines (new : ClientBase ι) :=
  ⟨_, rfl, rfl, rfl, rfl, fun _ _ impossible => by cases impossible⟩

theorem phaseOf_resumes {point : ContinuePoint} {state : StateType} (here : resumesAt point = some state) :
    (phaseOf point).resumes = some state := by
  unfold resumesAt at here
  split at here
  · exact here
  · exact here
  · cases here

theorem phaseOf_read (client : ClientBase ι) (reply : ReadReply) : phaseOf (client.read reply) = .running := by
  rcases client.read_cases reply with same | ⟨shouldStop, same⟩ | ⟨state, same⟩
  · rw [same]; rfl
  · rw [same]; rfl
  · rw [same]; rfl

theorem accepts_interruptByte (thread : ι) (trace : List (Event ι)) :
    accepts (.interruptByte thread :: trace) = accepts trace := by
  rw [accepts]
  cases accepts trace <;> rfl

theorem accepts_packet (thread : ι) (trace : List (Event ι)) : accepts (.packet thread :: trace) = accepts trace := by
  rw [accepts]
  cases accepts trace <;> rfl

section

variable [DecidableEq ι]

/-- A thread moves on without an event, or with one that the view does not depend on. -/
theorem Refines.move {client after : ClientBase ι} (refines : Refines client) {thread : ι}
    {point : AsyncPoint} (moved : after.threads = Function.update client.threads thread point)
    (running : after.isRunning = client.isRunning)
    (same : after.continuer = client.continuer ∧ after.continuePacket = client.continuePacket ∧
      after.shouldStop = client.shouldStop)
    (traced : accepts after.trace = accepts client.trace)
    (still : client.isRunning = false → interrupting point = true →
      interrupting (client.threads thread) = true) : Refines after := by
  obtain ⟨view, accepted, phase, slot, stop, window⟩ := refines
  obtain ⟨continuer, packet, flag⟩ := same
  refine ⟨view, traced.trans accepted, ?_, ?_, ?_, ?_⟩
  · rw [phase, continuer]
  · rw [slot, packet]
  · rw [stop, flag]
  · intro free other interrupts
    rw [running] at free
    rw [moved] at interrupts
    by_cases this : other = thread
    · rw [this, Function.update_self] at interrupts
      exact window free thread (still free interrupts)
    · rw [Function.update_of_ne this] at interrupts
      exact window free other interrupts

/-- Only a thread whose `Lock` interrupted writes to a slot, and it does so before anyone
resumes the process. -/
theorem Refines.finish {client : ClientBase ι} (refines : Refines client) {thread : ι} {request : Request}
    {didInterrupt : Bool} (here : client.threads thread = .inside request didInterrupt)
    (free : client.isRunning = false) :
    Refines ((client.finish thread didInterrupt request).move thread .leaving) := by
  cases didInterrupt with
  | false =>
    have unchanged : client.finish thread false request = client := by cases request <;> rfl
    rw [unchanged]
    exact refines.move rfl rfl ⟨rfl, rfl, rfl⟩ rfl (fun _ impossible => by cases impossible)
  | true =>
    obtain ⟨view, accepted, phase, slot, stop, window⟩ := refines
    -- The thread has its `Lock` since the process stopped, and it is counted: nobody resumes.
    have opened : view.window = true := window free thread (by rw [here]; rfl)
    cases request with
    | sendPacketAndWaitForResponse sendAsync =>
      exact ⟨view, accepted, phase, slot, stop, fun _ _ _ => opened⟩
    | sendvContPacket => exact ⟨view, accepted, phase, slot, stop, fun _ _ _ => opened⟩
    | sendAsyncSignal signo =>
      refine ⟨{ view with slot := signalPacket signo }, ?_, phase, rfl, stop, fun _ _ _ => opened⟩
      simp [ClientBase.finish, record, accepts, accepted, View.observe, opened]
    | interrupt =>
      refine ⟨{ view with stop := true }, ?_, phase, slot, rfl, fun _ _ _ => opened⟩
      simp [ClientBase.finish, record, accepts, accepted, View.observe, opened]

end

section

variable [Fintype ι]

theorem not_interrupting_of_alone {client : ClientBase ι} (sound : Sound client)
    (alone : client.asyncCount = 0) (thread : ι) : ¬ interrupting (client.threads thread) = true := by
  intro interrupts
  have counted : counts (client.threads thread) = true := by
    unfold interrupting at interrupts
    split at interrupts
    · next here => rw [here]; rfl
    · next here => rw [here]; rfl
    · next here => rw [here]; rfl
    · cases interrupts
  -- A thread that interrupts is counted, but nobody is.
  have positive := lockCount_pos counted
  rw [← sound.counted, alone] at positive
  cases positive

theorem Refines.continueStep {client after : ClientBase ι} (refines : Refines client) (sound : Sound client)
    {action : ContinueAction} (stepped : ContinueStep client action after) : Refines after := by
  obtain ⟨view, accepted, phase, slot, stop, window⟩ := refines
  cases stepped with
  | call here =>
    rw [here] at phase
    refine ⟨{ view with phase := .starting, slot := _, stop := false }, ?_, rfl, rfl, rfl, window⟩
    simp [record, accepts, accepted, View.observe, phase, phaseOf]
  | cancelled here alone stops =>
    refine ⟨{ view with phase := .idle, stop := false, window := false }, ?_, rfl, slot, rfl, ?_⟩
    · simp [record, accepts, accepted, View.observe, phase, phaseOf_resumes here, stop, stops]
    · intro _ thread interrupts
      exact absurd interrupts (not_interrupting_of_alone sound alone thread)
  | resume here alone go =>
    refine ⟨{ view with phase := .running, window := false }, ?_, rfl, slot, stop, ?_⟩
    · simp [record, accepts, accepted, View.observe, phase, phaseOf_resumes here, stop, go, slot]
    · intro impossible
      cases impossible
  | @fail state written acknowledged here alone go =>
    refine ⟨{ view with phase := .idle, window := false }, ?_, rfl, slot, stop, ?_⟩
    · cases written <;>
        simp [record, accepts, accepted, View.observe, phase, phaseOf_resumes here, stop, go, slot]
    · intro _ thread interrupts
      exact absurd interrupts (not_interrupting_of_alone sound alone thread)
  | @read reply here =>
    rw [here] at phase
    exact ⟨view, accepted, phase.trans (phaseOf_read client reply).symm, slot, stop, window⟩
  | stopReply here =>
    rw [here] at phase
    refine ⟨{ view with phase := .handling _, slot := continueAll, window := true }, ?_, rfl, rfl, stop,
      fun _ _ _ => rfl⟩
    simp [record, accepts, accepted, View.observe, phase, phaseOf]
  | stopped here =>
    rw [here] at phase
    refine ⟨{ view with phase := .idle }, ?_, rfl, slot, stop, window⟩
    simp [record, accepts, accepted, View.observe, phase, phaseOf]
  | ended here =>
    rw [here] at phase
    refine ⟨{ view with phase := .idle, window := true }, ?_, rfl, slot, stop, fun _ _ _ => rfl⟩
    simp [record, accepts, accepted, View.observe, phase, phaseOf]

variable [DecidableEq ι]

theorem Refines.asyncStep {client after : ClientBase ι} (refines : Refines client) (sound : Sound client)
    {thread : ι} {action : AsyncAction} (stepped : AsyncStep client thread action after) :
    Refines after := by
  have unchanged : accepts client.trace = accepts client.trace := rfl
  cases stepped with
  | call here => exact refines.move rfl rfl ⟨rfl, rfl, rfl⟩ unchanged (fun _ impossible => by cases impossible)
  | refuse here running why =>
    exact refines.move rfl rfl ⟨rfl, rfl, rfl⟩ unchanged (fun _ impossible => by cases impossible)
  | interrupt here running first =>
    exact refines.move rfl rfl ⟨rfl, rfl, rfl⟩ (accepts_interruptByte thread client.trace)
      (fun free => by rw [running] at free; cases free)
  | wait here running others =>
    exact refines.move rfl rfl ⟨rfl, rfl, rfl⟩ unchanged (fun free => by rw [running] at free; cases free)
  | acquire here free =>
    exact refines.move rfl rfl ⟨rfl, rfl, rfl⟩ unchanged (fun _ impossible => by cases impossible)
  | wake here free =>
    exact refines.move rfl rfl ⟨rfl, rfl, rfl⟩ unchanged (fun _ _ => by rw [here]; rfl)
  | @lockAsync request didInterrupt here free =>
    refine refines.move rfl rfl ⟨rfl, rfl, rfl⟩ unchanged ?_
    intro _ interrupts
    rw [here]
    cases didInterrupt with
    | false => cases interrupts
    | true => rfl
  | finish here =>
    apply refines.finish here
    exact sound.stopped_of_owns (by rw [here]; rfl)
  | giveUp here => exact refines.move rfl rfl ⟨rfl, rfl, rfl⟩ unchanged (fun _ impossible => by cases impossible)
  | destroy here => exact refines.move rfl rfl ⟨rfl, rfl, rfl⟩ unchanged (fun _ impossible => by cases impossible)
  | unlockAsync here =>
    exact refines.move rfl rfl ⟨rfl, rfl, rfl⟩ unchanged (fun _ impossible => by cases impossible)
  | send able =>
    obtain ⟨view, accepted, phase, slot, stop, window⟩ := refines
    exact ⟨view, (accepts_packet thread client.trace).trans accepted, phase, slot, stop, window⟩

theorem refines_of_run {client : ClientBase ι} {actions : List (Action ι)}
    (ran : (new : ClientBase ι).run actions = some client) : Refines client := by
  have kept : ∀ (actions : List (Action ι)) (before after : ClientBase ι), Sound before → Refines before →
      before.run actions = some after → Refines after := by
    intro actions
    induction actions with
    | nil =>
      intro before after _ refines ran
      cases ran
      exact refines
    | cons action actions ih =>
      intro before after sound refines ran
      obtain ⟨next, stepped, ran⟩ := Option.bind_eq_some_iff.mp ran
      -- The steps need the exclusion invariant, so both are carried along the run.
      apply ih next after (sound.step stepped) _ ran
      cases action with
      | async thread action => exact refines.asyncStep sound (asyncStep_cases stepped)
      | continuing action => exact refines.continueStep sound (continueStep_cases stepped)
  exact kept actions new client sound_new refines_new ran

end

end Lldb.GdbRemote.ClientBase
