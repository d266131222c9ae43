import Lldb.GdbRemote.ClientView

/-! What becomes of the requests that interrupt a running process.

`m_continue_packet` and `m_should_stop` are single slots: a signal is kept until another
one replaces it or the call of the continue thread ends, and an interrupt counts for a
call whose run ended with a stop reply.
-/

set_option autoImplicit false

namespace Lldb.GdbRemote.ClientBase

open List Option

variable {ι : Type}

def returnOf : Event ι → Option StateType
  | .failed _ => some .invalid
  | .cancelled state => some state
  | .stopped => some .stopped
  | .ended state => some state
  | _ => none

def unlocks : Event ι → Bool
  | .stopReply _ | .ended _ => true
  | _ => false

def decides (event : Event ι) : Bool :=
  (returnOf event).isSome || (continuePacketOf event).isSome

def firstDecision : List (Event ι) → Option (Event ι)
  | [] => none
  | event :: trace => (firstDecision trace).or (if decides event then some event else none)

/-- The next continue packet after a `SendAsyncSignal` that returned true carries the signal,
but for the events that excuse it. -/
def SignalsFollowed (excused : Event ι → Bool) (trace : List (Event ι)) : Prop :=
  ∀ later event packet middle thread signo before,
    trace = later ++ event :: (middle ++ .signalled thread signo :: before) → continuePacketOf event = some packet →
        (∀ between ∈ middle, continuePacketOf between = none ∧ excused between = false) → packet = signalPacket signo

/-- The call that an `Interrupt` interrupted returns `eStateStopped` before it resumes the
process, where the event that ended its run is covered. -/
def InterruptsStop (covered : Event ι → Bool) (trace : List (Event ι)) : Prop :=
  ∀ later thread window unlock before decision,
    trace = later ++ .interrupted thread :: (window ++ unlock :: before) →
      unlocks unlock = true → (∀ between ∈ window, unlocks between = false) → covered unlock = true →
        firstDecision (later ++ .interrupted thread :: (window ++ [unlock])) = some decision →
          returnOf decision = some .stopped

/-- Another signal takes the slot, or the call is over and another one begins. -/
def replaces : Event ι → Bool
  | .signalled _ _ | .called _ => true
  | _ => false

def isStopReply : Event ι → Bool
  | .stopReply _ => true
  | _ => false

inductive Observes (view : View) : Event ι → View → Prop where
  | interruptByte (thread : ι) : Observes view (.interruptByte thread) view
  | packet (thread : ι) : Observes view (.packet thread) view
  | called (payload : Bytes) (idle : view.phase = .idle) :
      Observes view (.called payload) { view with phase := .starting, slot := payload, stop := false }
  | continued {state : StateType} (resumes : view.phase.resumes = some state) (go : view.stop = false) :
      Observes view (.continued view.slot) { view with phase := .running, window := false }
  | failed {state : StateType} (packet : Option Bytes) (resumes : view.phase.resumes = some state)
      (go : view.stop = false) (sent : ∀ bytes ∈ packet, bytes = view.slot) :
      Observes view (.failed packet) { view with phase := .idle, window := false }
  | cancelled {state : StateType} (resumes : view.phase.resumes = some state) (stops : view.stop = true) :
      Observes view (.cancelled state) { view with phase := .idle, stop := false, window := false }
  | stopReply (shouldStop : Bool) (running : view.phase = .running) :
      Observes view (.stopReply shouldStop)
        { view with phase := .handling shouldStop, slot := continueAll, window := true }
  | stopped (handling : view.phase = .handling true) :
      Observes view .stopped { view with phase := .idle }
  | ended (state : StateType) (running : view.phase = .running) :
      Observes view (.ended state) { view with phase := .idle, window := true }
  | signalled (thread : ι) (signo : Nat) (opened : view.window = true) :
      Observes view (.signalled thread signo) { view with slot := signalPacket signo }
  | interrupted (thread : ι) (opened : view.window = true) :
      Observes view (.interrupted thread) { view with stop := true }

variable {view : View} {event : Event ι} {trace later before : List (Event ι)} {shouldStop : Bool}

theorem observe_cases {after : View} (observed : view.observe event = some after) : Observes view event after := by
  cases event with
  | interruptByte thread => cases observed; exact .interruptByte thread
  | packet thread => cases observed; exact .packet thread
  | called payload =>
    obtain ⟨idle, ⟨⟩⟩ := ite_none_right_eq_some.mp observed
    exact .called payload idle
  | continued packet =>
    obtain ⟨⟨resumes, go, rfl⟩, ⟨⟩⟩ := ite_none_right_eq_some.mp observed
    obtain ⟨state, resumes⟩ := isSome_iff_exists.mp resumes
    exact .continued resumes go
  | failed packet =>
    obtain ⟨⟨resumes, go, sent⟩, ⟨⟩⟩ := ite_none_right_eq_some.mp observed
    obtain ⟨state, resumes⟩ := isSome_iff_exists.mp resumes
    exact .failed packet resumes go sent
  | cancelled state =>
    obtain ⟨⟨resumes, stops⟩, ⟨⟩⟩ := ite_none_right_eq_some.mp observed
    exact .cancelled resumes stops
  | stopReply shouldStop =>
    obtain ⟨running, ⟨⟩⟩ := ite_none_right_eq_some.mp observed
    exact .stopReply shouldStop running
  | stopped =>
    obtain ⟨handling, ⟨⟩⟩ := ite_none_right_eq_some.mp observed
    exact .stopped handling
  | ended state =>
    obtain ⟨running, ⟨⟩⟩ := ite_none_right_eq_some.mp observed
    exact .ended state running
  | signalled thread signo =>
    obtain ⟨opened, ⟨⟩⟩ := ite_none_right_eq_some.mp observed
    exact .signalled thread signo opened
  | interrupted thread =>
    obtain ⟨opened, ⟨⟩⟩ := ite_none_right_eq_some.mp observed
    exact .interrupted thread opened

theorem accepts_cons (accepted : accepts (event :: trace) = some view) :
    ∃ earlier, accepts trace = some earlier ∧ Observes earlier event view := by
  obtain ⟨earlier, accepted, observed⟩ := bind_eq_some_iff.mp accepted
  exact ⟨earlier, accepted, observe_cases observed⟩

theorem accepts_suffix (accepted : accepts (later ++ trace) = some view) : ∃ earlier, accepts trace = some earlier := by
  induction later generalizing view with
  | nil => exact ⟨view, accepted⟩
  | cons event later ih =>
    obtain ⟨earlier, accepted, -⟩ := accepts_cons accepted
    exact ih accepted

/-- While the window is open the process does not run. -/
theorem not_running_of_window (accepted : accepts trace = some view)
    (opened : view.window = true) : view.phase ≠ .running := by
  induction trace generalizing view with
  | nil => cases accepted; simp
  | cons event trace ih =>
    obtain ⟨earlier, accepted, observed⟩ := accepts_cons accepted
    have before := fun opened => ih accepted opened
    cases observed with
    | interruptByte thread => exact before opened
    | packet thread => exact before opened
    | called payload idle => simp
    | continued resumes go => cases opened
    | failed packet resumes go sent => simp
    | cancelled resumes stops => simp
    | stopReply shouldStop running => simp
    | stopped handling => simp
    | ended state running => simp
    | signalled thread signo opened => exact before opened
    | interrupted thread opened => exact before opened

theorem slot_of_signalled {middle : List (Event ι)} {thread : ι} {signo : Nat}
    (accepted : accepts (middle ++ .signalled thread signo :: before) = some view)
    (quiet : ∀ between ∈ middle, continuePacketOf between = none ∧ replaces between = false) :
    view.slot = signalPacket signo ∧ view.phase ≠ .running := by
  induction middle generalizing view with
  | nil =>
    have stopped := not_running_of_window accepted
    obtain ⟨earlier, _, observed⟩ := accepts_cons accepted
    cases observed with
    | signalled thread signo opened => exact ⟨rfl, stopped opened⟩
  | cons event middle ih =>
    obtain ⟨⟨unsent, kept⟩, quiet⟩ := forall_mem_cons.mp quiet
    obtain ⟨earlier, accepted, observed⟩ := accepts_cons accepted
    -- Along the events since the signal, newest first: none of them writes to the slot.
    obtain ⟨slot, stopped⟩ := ih accepted quiet
    cases observed with
    | interruptByte thread => exact ⟨slot, stopped⟩
    | packet thread => exact ⟨slot, stopped⟩
    | called payload idle => cases kept
    | continued resumes go => cases unsent
    | failed packet resumes go sent => exact ⟨slot, by simp⟩
    | cancelled resumes stops => exact ⟨slot, by simp⟩
    | stopReply shouldStop running => exact absurd running stopped
    | stopped handling => exact ⟨slot, by simp⟩
    | ended state running => exact absurd running stopped
    | signalled thread signo opened => cases kept
    | interrupted thread opened => exact ⟨slot, stopped⟩

theorem signalsFollowed_of_accepts (accepted : accepts trace = some view) : SignalsFollowed replaces trace := by
  rintro later event packet middle thread signo before rfl continues quiet
  obtain ⟨there, accepted⟩ := accepts_suffix accepted
  obtain ⟨earlier, accepted, observed⟩ := accepts_cons accepted
  have slot := (slot_of_signalled accepted quiet).1
  cases observed with
  | continued resumes go => cases continues; exact slot
  | failed sent resumes go same =>
    cases continues
    rw [same packet rfl, slot]
  | _ => cases continues

theorem firstDecision_append (later trace : List (Event ι)) :
    firstDecision (later ++ trace) = (firstDecision trace).or (firstDecision later) := by
  induction later with
  | nil => simp [firstDecision]
  | cons event later ih => simp [firstDecision, ih, Option.or_assoc]

theorem firstDecision_skip (undecided : decides event = false) (trace : List (Event ι)) :
    firstDecision (event :: trace) = firstDecision trace := by
  simp [firstDecision, undecided]

theorem firstDecision_take (first : firstDecision trace = none)
    (decided : decides event = true) : firstDecision (event :: trace) = some event := by
  simp [firstDecision, first, decided]

theorem resumes_handling {state : StateType}
    (resumes : (Phase.handling shouldStop).resumes = some state) : state = .stopped := by
  cases shouldStop with
  | false => cases resumes; rfl
  | true => cases resumes

/-- Since a stop reply: nothing is decided and the window is open, or the call has returned
`eStateStopped`, or the window is closed. -/
theorem window_of_stopReply {window : List (Event ι)}
    (accepted : accepts (window ++ .stopReply shouldStop :: before) = some view)
    (locked : ∀ between ∈ window, unlocks between = false) :
    (firstDecision window = none ∧ view.phase = .handling shouldStop) ∨
      ∃ decision, firstDecision window = some decision ∧ (returnOf decision = some .stopped ∨ view.window = false) := by
  induction window generalizing view with
  | nil =>
    obtain ⟨earlier, _, observed⟩ := accepts_cons accepted
    cases observed
    exact .inl ⟨rfl, rfl⟩
  | cons event window ih =>
    obtain ⟨lockedNow, locked⟩ := forall_mem_cons.mp locked
    obtain ⟨earlier, accepted, observed⟩ := accepts_cons accepted
    rcases ih accepted locked with ⟨first, handling⟩ | ⟨decision, first, outcome⟩
    · cases observed with
      | interruptByte thread => exact .inl ⟨(firstDecision_skip rfl _).trans first, handling⟩
      | packet thread => exact .inl ⟨(firstDecision_skip rfl _).trans first, handling⟩
      | called payload idle => cases handling.symm.trans idle
      -- Whatever tries to resume closes the window; a cancelled resumption returns `eStateStopped`.
      | continued resumes go => exact .inr ⟨_, firstDecision_take first rfl, .inr rfl⟩
      | failed packet resumes go sent => exact .inr ⟨_, firstDecision_take first rfl, .inr rfl⟩
      | cancelled resumes stops =>
        rw [handling] at resumes
        rw [resumes_handling resumes]
        exact .inr ⟨_, firstDecision_take first rfl, .inl rfl⟩
      | stopReply again running => cases lockedNow
      | stopped handling => exact .inr ⟨_, firstDecision_take first rfl, .inl rfl⟩
      | ended state running => cases lockedNow
      | signalled thread signo opened => exact .inl ⟨(firstDecision_skip rfl _).trans first, handling⟩
      | interrupted thread opened => exact .inl ⟨(firstDecision_skip rfl _).trans first, handling⟩
    · right
      refine ⟨decision, by simp [firstDecision, first], ?_⟩
      rcases outcome with stopped | closed
      · exact .inl stopped
      · right
        cases observed with
        | continued resumes go => rfl
        | failed packet resumes go sent => rfl
        | cancelled resumes stops => rfl
        | stopReply again running => cases lockedNow
        | ended state running => cases lockedNow
        | _ => exact closed

/-- Once the stop flag is set while a stop reply is handled, only `eStateStopped` can come. -/
theorem stopped_of_flag {after : View}
    (accepted : accepts trace = some view) (handling : view.phase = .handling shouldStop)
    (flagged : view.stop = true) (continued : accepts (later ++ trace) = some after) :
    (firstDecision later = none ∧ after.phase = .handling shouldStop ∧ after.stop = true) ∨
      ∃ decision, firstDecision later = some decision ∧ returnOf decision = some .stopped := by
  induction later generalizing after with
  | nil =>
    obtain rfl : view = after := Option.some.inj (accepted.symm.trans continued)
    exact .inl ⟨rfl, handling, flagged⟩
  | cons event later ih =>
    obtain ⟨earlier, continued, observed⟩ := accepts_cons continued
    rcases ih continued with ⟨first, phase, flag⟩ | ⟨decision, first, stopped⟩
    · cases observed with
      | interruptByte thread => exact .inl ⟨(firstDecision_skip rfl _).trans first, phase, flag⟩
      | packet thread => exact .inl ⟨(firstDecision_skip rfl _).trans first, phase, flag⟩
      | called payload idle => cases phase.symm.trans idle
      -- While the flag is set nobody resumes: the resumption is cancelled.
      | continued resumes go => cases flag.symm.trans go
      | failed packet resumes go sent => cases flag.symm.trans go
      | cancelled resumes stops =>
        rw [phase] at resumes
        rw [resumes_handling resumes]
        exact .inr ⟨_, firstDecision_take first rfl, rfl⟩
      | stopReply again running => cases phase.symm.trans running
      | stopped handling => exact .inr ⟨_, firstDecision_take first rfl, rfl⟩
      | ended state running => cases phase.symm.trans running
      | signalled thread signo opened => exact .inl ⟨(firstDecision_skip rfl _).trans first, phase, flag⟩
      | interrupted thread opened => exact .inl ⟨(firstDecision_skip rfl _).trans first, phase, rfl⟩
    · exact .inr ⟨decision, by simp [firstDecision, first], stopped⟩

/-- After an `Interrupt` of a run that a stop reply ended: the flag is set and nothing is
decided, or the first decision is to return `eStateStopped`. -/
theorem decision_of_interrupted {window : List (Event ι)} {thread : ι}
    (accepted : accepts (later ++ .interrupted thread :: (window ++ .stopReply shouldStop :: before)) = some view)
    (locked : ∀ between ∈ window, unlocks between = false) :
    (firstDecision (later ++ .interrupted thread :: window) = none ∧
        view.phase = .handling shouldStop ∧ view.stop = true) ∨
      ∃ decision, firstDecision (later ++ .interrupted thread :: window) = some decision ∧
        returnOf decision = some .stopped := by
  obtain ⟨there, acceptedThere⟩ := accepts_suffix accepted
  obtain ⟨earlier, acceptedEarlier, observed⟩ := accepts_cons acceptedThere
  rw [firstDecision_append, firstDecision_skip rfl]
  rcases window_of_stopReply acceptedEarlier locked with ⟨first, handling⟩ | ⟨decision, first, outcome⟩
  · cases observed with
    | interrupted thread opened =>
      rw [first]
      exact stopped_of_flag acceptedThere handling rfl accepted
  · cases observed with
    | interrupted thread opened =>
      rw [first]
      refine .inr ⟨decision, rfl, outcome.resolve_right ?_⟩
      rw [opened]
      exact Bool.noConfusion

theorem interruptsStop_of_accepts (accepted : accepts trace = some view) : InterruptsStop isStopReply trace := by
  rintro later thread window unlock before decision rfl - locked covered first
  cases unlock with
  | stopReply shouldStop =>
    -- The stop reply decides nothing itself, so the first decision comes after it.
    rw [← cons_append, ← append_assoc, firstDecision_append] at first
    rcases decision_of_interrupted accepted locked with ⟨none, -⟩ | ⟨other, same, stopped⟩
    · cases none.symm.trans first
    · cases same.symm.trans first
      exact stopped
  | _ => cases covered

section

variable [Fintype ι] [DecidableEq ι]

structure RequestsKept (client : ClientBase ι) : Prop where
  signals : SignalsFollowed replaces client.trace
  interrupts : InterruptsStop isStopReply client.trace
  returns : ∀ later thread window shouldStop before,
    client.trace = later ++ .interrupted thread :: (window ++ .stopReply shouldStop :: before) →
      (∀ between ∈ window, unlocks between = false) →
        firstDecision (later ++ .interrupted thread :: window) = none → client.asyncCount = 0 →
          ∃ action after event, client.step (.continuing action) = some after ∧
            after.trace = event :: client.trace ∧ returnOf event = some .stopped

theorem unlocked_of_phase {point : ContinuePoint} {shouldStop : Bool}
    (handling : phaseOf point = .handling shouldStop) : point = .unlocked shouldStop := by
  cases point <;> cases handling
  rfl

theorem requests_kept {client : ClientBase ι} {actions : List (Action ι)}
    (ran : (new : ClientBase ι).run actions = some client) : RequestsKept client := by
  obtain ⟨view, accepted, phase, slot, stop, window⟩ := refines_of_run ran
  refine ⟨signalsFollowed_of_accepts accepted, interruptsStop_of_accepts accepted, ?_⟩
  intro later thread window shouldStop before traced locked undecided alone
  rw [traced] at accepted
  rcases decision_of_interrupted accepted locked with ⟨-, handling, flagged⟩ | ⟨_, decided, -⟩
  · rw [phase] at handling
    have here := unlocked_of_phase handling
    have stops : client.shouldStop = true := stop.symm.trans flagged
    cases shouldStop with
    | true =>
      refine ⟨.finish, { client with continuer := .idle }.record .stopped, .stopped, ?_, rfl, rfl⟩
      simp only [step, ClientBase.continueStep, here]
    | false =>
      -- the constructor of the next `ContinueLock` sees the request
      refine ⟨.lock true true, client.lock .stopped true true, .cancelled .stopped, ?_, ?_, rfl⟩
      · simp only [step, ClientBase.continueStep, here, alone, if_true]
      · simp [lock, stops, record]
  · cases undecided.symm.trans decided

end

/-- The process is continued with `c`. -/
def resumed : List (Action Bool) := [.continuing (.call continueAll), .continuing (.lock true true)]

def asks (thread : Bool) (request : Request) : List (Action Bool) :=
  [.async thread (.call request), .async thread (.syncWithContinueThread true)]

def served (thread : Bool) : List (Action Bool) :=
  [.async thread .wake, .async thread .lockAsync, .async thread .finish, .async thread .destroy,
    .async thread .unlockAsync]

def oneSignal : List (Action Bool) :=
  resumed ++ asks true (.sendAsyncSignal 0x47) ++
    [.continuing (.read (.stop true)), .continuing .unlock] ++ served true ++
    [.continuing (.lock true true)]

theorem requests_kept_one_signal : ∃ client, (new : ClientBase Bool).run oneSignal = some client ∧
      client.trace.head? = some (.continued [0x43, 0x34, 0x37]) ∧ RequestsKept client :=
  ⟨_, rfl, rfl, requests_kept (show new.run oneSignal = some _ from rfl)⟩

/-- A second signal replaces the first; a signal is dropped when the process has stopped for
another reason; an interrupt of a process that exits returns true. -/
theorem requests_not_always_kept : (∃ client, (new : ClientBase Bool).run
        (resumed ++ asks false (.sendAsyncSignal 2) ++ asks true (.sendAsyncSignal 3) ++
          [.continuing (.read (.stop true)), .continuing .unlock] ++ served false ++ served true ++
          [.continuing (.lock true true)]) = some client ∧
      ¬ SignalsFollowed (fun _ => false) client.trace) ∧
    (∃ client, (new : ClientBase Bool).run
        (resumed ++ asks false (.sendAsyncSignal 2) ++
          [.continuing (.read (.stop false)), .continuing .unlock] ++ served false ++
          [.continuing .finish] ++ resumed) = some client ∧
      ¬ SignalsFollowed (fun _ => false) client.trace) ∧
    ∃ client, (new : ClientBase Bool).run
        (resumed ++ asks false .interrupt ++
          [.continuing (.read .exit), .continuing .finish] ++ served false) = some client ∧
      ¬ InterruptsStop (fun _ => true) client.trace := by
  refine ⟨⟨_, rfl, ?_⟩, ⟨_, rfl, ?_⟩, ⟨_, rfl, ?_⟩⟩
  · intro followed
    have same := followed [] (.continued (signalPacket 3)) _ [.signalled true 3] false 2 _ rfl rfl (by simp [continuePacketOf])
    exact absurd same (by decide)
  · intro followed
    have same := followed [] (.continued continueAll) _ [.called continueAll, .stopped] false 2 _ rfl rfl
    exact absurd same (by decide)
  · intro stops
    have stopped := stops [] false [] (.ended .exited) _ (.ended .exited) rfl rfl (by simp) rfl rfl
    cases stopped

end Lldb.GdbRemote.ClientBase
