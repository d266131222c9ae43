import Lldb.GdbRemote.Packet

/-! `GDBRemoteClientBase`: one thread that continues the process and waits for it to
stop, and any number of threads that want to send packets meanwhile.

A step is what a thread does between two points at which others can intervene: blocks
under `m_mutex` are single steps, and a wait on the condition variable is a step that is
enabled when what it waits for holds. What a packet, a write or a signal brings is part
of the action. There are fewer than 2^32 threads, so that `m_async_count` does not wrap.
-/

set_option autoImplicit false

namespace Lldb.GdbRemote

/-- The calls that construct a `Lock`. -/
inductive Request where
  | sendPacketAndWaitForResponse (sendAsync : Bool)
  | sendvContPacket
  | sendAsyncSignal (signo : Nat)
  | interrupt
  deriving DecidableEq, Repr

/-- The second argument of the `Lock`. -/
def Request.interrupts : Request → Bool
  | .sendPacketAndWaitForResponse sendAsync => sendAsync
  | .sendvContPacket | .sendAsyncSignal _ | .interrupt => true

/-- Where a thread stands in its call, and in its `Lock`. -/
inductive AsyncPoint where
  | idle
  | entering (request : Request)
  | waiting (request : Request)
  | acquired (request : Request) (didInterrupt : Bool)
  | inside (request : Request) (didInterrupt : Bool)
  | refused (request : Request)
  | leaving
  | unlocking
  deriving DecidableEq, Repr

inductive StateType where
  | invalid
  | stopped
  | exited
  deriving DecidableEq, Repr

/-- Where the continue thread stands in `SendContinuePacketAndWaitForResponse`. -/
inductive ContinuePoint where
  | idle
  | starting
  | reading
  | stopping (shouldStop : Bool)
  | unlocked (shouldStop : Bool)
  | ending (state : StateType)
  deriving DecidableEq, Repr

/-- What is written to the connection, and what becomes of calls. A request is
`signalled` or `interrupted` where it is certain to return true; a resumption that
`failed` may have written the continue packet. -/
inductive Event (ι : Type) where
  | interruptByte (thread : ι)
  | packet (thread : ι)
  | called (payload : Bytes)
  | continued (packet : Bytes)
  | failed (packet : Option Bytes)
  | cancelled (state : StateType)
  | stopReply (shouldStop : Bool)
  | stopped
  | ended (state : StateType)
  | signalled (thread : ι) (signo : Nat)
  | interrupted (thread : ι)
  deriving DecidableEq, Repr

structure ClientBase (ι : Type) where
  asyncCount : Nat
  isRunning : Bool
  shouldStop : Bool
  continuePacket : Bytes
  asyncMutex : Option ι
  threads : ι → AsyncPoint
  continuer : ContinuePoint
  trace : List (Event ι)

inductive AsyncAction where
  | call (request : Request)
  | syncWithContinueThread (written : Bool)
  | wake
  | lockAsync
  | send
  | finish
  | destroy
  | unlockAsync
  deriving DecidableEq, Repr

/-- What a read in the loop of the continue thread brings. Packets that the delegate
handles are `output`; everything that ends the call with `eStateInvalid` is `error`. -/
inductive ReadReply where
  | timeout
  | output
  | exit
  | error
  | stop (interruptSignal : Bool)
  deriving DecidableEq, Repr

inductive ContinueAction where
  | call (payload : Bytes)
  | lock (written acknowledged : Bool)
  | read (reply : ReadReply)
  | unlock
  | finish
  deriving DecidableEq, Repr

inductive Action (ι : Type) where
  | async (thread : ι) (action : AsyncAction)
  | continuing (action : ContinueAction)

namespace ClientBase

variable {ι : Type}

def new : ClientBase ι :=
  ⟨0, false, false, [], none, fun _ => .idle, .idle, []⟩

def record (client : ClientBase ι) (event : Event ι) : ClientBase ι :=
  { client with trace := event :: client.trace }

/-- The uppercase digit of `llvm::hexdigit`. -/
def hexdigit (digit : Nat) : UInt8 := UInt8.ofNat (if digit < 10 then 0x30 + digit else 0x37 + digit)

def continueAll : Bytes := [0x63]

/-- The continue packet `Cxx` of a signal. -/
def signalPacket (signo : Nat) : Bytes := [0x43, hexdigit (signo / 16 % 16), hexdigit (signo % 16)]

/-- What a call does once it has its `Lock`. -/
def finish (client : ClientBase ι) (thread : ι) (didInterrupt : Bool) : Request → ClientBase ι
  | .sendPacketAndWaitForResponse _ | .sendvContPacket => client
  | .sendAsyncSignal signo =>
      if didInterrupt then
        { client with continuePacket := signalPacket signo }.record (.signalled thread signo)
      else client
  | .interrupt =>
      if didInterrupt then { client with shouldStop := true }.record (.interrupted thread) else client

/-- `ContinueLock::lock`, once no `Lock` is counted: at the start of the call and after a
stop reply. -/
def lock (client : ClientBase ι) (whenCancelled : StateType) (written acknowledged : Bool) : ClientBase ι :=
  -- The request to stop is used up even where the call has only begun.
  if client.shouldStop then
    { client with shouldStop := false, continuer := .idle }.record (.cancelled whenCancelled)
  else if written ∧ acknowledged then
    { client with isRunning := true, continuer := .reading }.record (.continued client.continuePacket)
  else { client with continuer := .idle }.record
    (.failed (if written then some client.continuePacket else none))

/-- The loop up to its next point of interest; what a timeout leaves in `response` is
empty, so that it ends the call as soon as a `Lock` is counted. -/
def read (client : ClientBase ι) : ReadReply → ContinuePoint
  -- Nobody waits: keep reading. Otherwise the empty response ends the call.
  | .timeout => if client.asyncCount = 0 then .reading else .ending .invalid
  | .output => .reading
  | .exit => .ending .exited
  | .error => .ending .invalid
  -- `ShouldStop`: the process stopped on its own, or for another signal than SIGSTOP and SIGINT.
  | .stop interruptSignal => .stopping (client.asyncCount = 0 || !interruptSignal)

/-- The continue thread sets `m_continue_packet` for the time after a stop reply just before
it unlocks; nobody looks at it in between. -/
def continueStep (client : ClientBase ι) (action : ContinueAction) : Option (ClientBase ι) :=
  match client.continuer, action with
  | .idle, .call payload =>
      some ({ client with continuePacket := payload, shouldStop := false, continuer := .starting }.record
        (.called payload))
  | .starting, .lock written acknowledged =>
      if client.asyncCount = 0 then some (client.lock .invalid written acknowledged) else none
  | .reading, .read reply => some { client with continuer := client.read reply }
  | .stopping shouldStop, .unlock =>
      some ({ client with
        continuePacket := continueAll, isRunning := false, continuer := .unlocked shouldStop }.record
          (.stopReply shouldStop))
  | .unlocked true, .finish => some ({ client with continuer := .idle }.record .stopped)
  | .unlocked false, .lock written acknowledged =>
      if client.asyncCount = 0 then some (client.lock .stopped written acknowledged) else none
  | .ending state, .finish =>
      some ({ client with isRunning := false, continuer := .idle }.record (.ended state))
  | _, _ => none

/-- The points at which the continue thread resumes the process, with what the call returns
when the resumption is cancelled there. -/
def resumesAt : ContinuePoint → Option StateType
  | .starting => some .invalid
  | .unlocked false => some .stopped
  | _ => none

inductive ContinueStep (client : ClientBase ι) : ContinueAction → ClientBase ι → Prop where
  | call {payload : Bytes} (here : client.continuer = .idle) :
      ContinueStep client (.call payload)
        ({ client with continuePacket := payload, shouldStop := false, continuer := .starting }.record
          (.called payload))
  | cancelled {state : StateType} {written acknowledged : Bool}
      (here : resumesAt client.continuer = some state) (alone : client.asyncCount = 0)
      (stop : client.shouldStop = true) :
      ContinueStep client (.lock written acknowledged)
        ({ client with shouldStop := false, continuer := .idle }.record (.cancelled state))
  | resume {state : StateType} (here : resumesAt client.continuer = some state)
      (alone : client.asyncCount = 0) (go : client.shouldStop = false) :
      ContinueStep client (.lock true true)
        ({ client with isRunning := true, continuer := .reading }.record (.continued client.continuePacket))
  | fail {state : StateType} {written acknowledged : Bool}
      (here : resumesAt client.continuer = some state) (alone : client.asyncCount = 0)
      (go : client.shouldStop = false) :
      ContinueStep client (.lock written acknowledged)
        ({ client with continuer := .idle }.record
          (.failed (if written then some client.continuePacket else none)))
  | read {reply : ReadReply} (here : client.continuer = .reading) :
      ContinueStep client (.read reply) { client with continuer := client.read reply }
  | stopReply {shouldStop : Bool} (here : client.continuer = .stopping shouldStop) :
      ContinueStep client .unlock
        ({ client with
            continuePacket := continueAll, isRunning := false, continuer := .unlocked shouldStop }.record
          (.stopReply shouldStop))
  | stopped (here : client.continuer = .unlocked true) :
      ContinueStep client .finish ({ client with continuer := .idle }.record .stopped)
  | ended {state : StateType} (here : client.continuer = .ending state) :
      ContinueStep client .finish
        ({ client with isRunning := false, continuer := .idle }.record (.ended state))

theorem lock_cases {client : ClientBase ι} {state : StateType} (written acknowledged : Bool)
    (here : resumesAt client.continuer = some state) (alone : client.asyncCount = 0) :
    ContinueStep client (.lock written acknowledged) (client.lock state written acknowledged) := by
  -- The three results of `ContinueLock::lock`: cancelled, done, failed.
  unfold lock
  split
  · next stop => exact .cancelled here alone stop
  · next go =>
    have go : client.shouldStop = false := Bool.not_eq_true _ ▸ go
    split
    · next done =>
      obtain ⟨rfl, rfl⟩ := done
      exact .resume here alone go
    · exact .fail here alone go

theorem continueStep_cases {client after : ClientBase ι} {action : ContinueAction}
    (stepped : client.continueStep action = some after) : ContinueStep client action after := by
  unfold continueStep at stepped
  split at stepped
  · next here => cases stepped; exact .call here
  · next here =>
    split at stepped
    · next alone => cases stepped; exact lock_cases _ _ (by rw [here]; rfl) alone
    · cases stepped
  · next here => cases stepped; exact .read here
  · next here => cases stepped; exact .stopReply here
  · next here => cases stepped; exact .stopped here
  · next here =>
    split at stepped
    · next alone => cases stepped; exact lock_cases _ _ (by rw [here]; rfl) alone
    · cases stepped
  · next here => cases stepped; exact .ended here
  · cases stepped

variable (client : ClientBase ι)

/-- The body of a call leaves everything but the slots and the trace alone. -/
theorem finish_frame (thread : ι) (didInterrupt : Bool) (request : Request) :
    (client.finish thread didInterrupt request).threads = client.threads ∧
      (client.finish thread didInterrupt request).asyncCount = client.asyncCount ∧
      (client.finish thread didInterrupt request).isRunning = client.isRunning ∧
      (client.finish thread didInterrupt request).continuer = client.continuer := by
  cases request with
  | sendPacketAndWaitForResponse sendAsync => exact ⟨rfl, rfl, rfl, rfl⟩
  | sendvContPacket => exact ⟨rfl, rfl, rfl, rfl⟩
  | sendAsyncSignal signo => cases didInterrupt <;> exact ⟨rfl, rfl, rfl, rfl⟩
  | interrupt => cases didInterrupt <;> exact ⟨rfl, rfl, rfl, rfl⟩

/-- The points at which the `ContinueLock` is acquired. -/
def holdsLock : ContinuePoint → Bool
  | .reading | .stopping _ | .ending _ => true
  | .idle | .starting | .unlocked _ => false

theorem read_cases (reply : ReadReply) :
    client.read reply = .reading ∨ (∃ shouldStop, client.read reply = .stopping shouldStop) ∨
      ∃ state, client.read reply = .ending state := by
  cases reply with
  | timeout =>
    simp only [read]
    split
    · exact .inl rfl
    · exact .inr (.inr ⟨_, rfl⟩)
  | output => exact .inl rfl
  | exit => exact .inr (.inr ⟨_, rfl⟩)
  | error => exact .inr (.inr ⟨_, rfl⟩)
  | stop interruptSignal => exact .inr (.inl ⟨_, rfl⟩)

theorem holdsLock_read (reply : ReadReply) : holdsLock (client.read reply) = true := by
  rcases client.read_cases reply with same | ⟨shouldStop, same⟩ | ⟨state, same⟩
  · rw [same]; rfl
  · rw [same]; rfl
  · rw [same]; rfl

theorem not_holdsLock_of_resumesAt {point : ContinuePoint} {state : StateType}
    (here : resumesAt point = some state) : holdsLock point = false := by
  cases point with
  | starting => rfl
  | unlocked shouldStop => rfl
  | idle => cases here
  | reading => cases here
  | stopping shouldStop => cases here
  | ending state => cases here

variable [DecidableEq ι]

def move (client : ClientBase ι) (thread : ι) (point : AsyncPoint) : ClientBase ι :=
  { client with threads := Function.update client.threads thread point }

/-- `SyncWithContinueThread` up to its wait; `written` tells whether `^C` can be written. -/
def syncWithContinueThread (client : ClientBase ι) (thread : ι) (request : Request) (written : Bool) : ClientBase ι :=
  -- Asked not to interrupt: the `Lock` is neither counted nor acquired.
  if client.isRunning ∧ ¬ request.interrupts then client.move thread (.refused request)
  else
    let counted := { client with asyncCount := client.asyncCount + 1 }
    if client.isRunning then
      -- The first `Lock` while the process runs writes the `^C`; the others wait for the same stop.
      if counted.asyncCount = 1 then
        if written then (counted.move thread (.waiting request)).record (.interruptByte thread)
        else { counted with asyncCount := counted.asyncCount - 1 }.move thread (.refused request)
      else counted.move thread (.waiting request)
    else counted.move thread (.acquired request false)

/-- `SendvContPacket` does not look at whether it has the lock. -/
def maySend : AsyncPoint → Bool
  | .inside (.sendPacketAndWaitForResponse _) _ | .inside .sendvContPacket _ | .refused .sendvContPacket => true
  | _ => false

def asyncStep (client : ClientBase ι) (thread : ι) (action : AsyncAction) : Option (ClientBase ι) :=
  match client.threads thread, action with
  | .idle, .call request => some (client.move thread (.entering request))
  | .entering request, .syncWithContinueThread written =>
      some (client.syncWithContinueThread thread request written)
  | .waiting request, .wake =>
      if client.isRunning then none else some (client.move thread (.acquired request true))
  | .acquired request didInterrupt, .lockAsync =>
      if client.asyncMutex = none then
        some ({ client with asyncMutex := some thread }.move thread (.inside request didInterrupt))
      else none
  | .inside request didInterrupt, .finish =>
      some ((client.finish thread didInterrupt request).move thread .leaving)
  | .refused _, .finish => some (client.move thread .idle)
  | .leaving, .destroy =>
      some ({ client with asyncCount := client.asyncCount - 1 }.move thread .unlocking)
  | .unlocking, .unlockAsync => some ({ client with asyncMutex := none }.move thread .idle)
  -- Any number of packets, as long as the call lasts.
  | point, .send => if maySend point then some (client.record (.packet thread)) else none
  | _, _ => none

def step (client : ClientBase ι) : Action ι → Option (ClientBase ι)
  | .async thread action => client.asyncStep thread action
  | .continuing action => client.continueStep action

def run (client : ClientBase ι) : List (Action ι) → Option (ClientBase ι)
  | [] => some client
  | action :: actions => (client.step action).bind (·.run actions)

inductive AsyncStep (client : ClientBase ι) (thread : ι) : AsyncAction → ClientBase ι → Prop where
  | call {request : Request} (here : client.threads thread = .idle) :
      AsyncStep client thread (.call request) (client.move thread (.entering request))
  | refuse {request : Request} {written : Bool} (here : client.threads thread = .entering request)
      (running : client.isRunning = true)
      (why : request.interrupts = false ∨ client.asyncCount = 0 ∧ written = false) :
      AsyncStep client thread (.syncWithContinueThread written) (client.move thread (.refused request))
  | interrupt {request : Request} (here : client.threads thread = .entering request)
      (running : client.isRunning = true) (first : client.asyncCount = 0) :
      AsyncStep client thread (.syncWithContinueThread true)
        (({ client with asyncCount := client.asyncCount + 1 }.move thread (.waiting request)).record
          (.interruptByte thread))
  | wait {request : Request} {written : Bool} (here : client.threads thread = .entering request)
      (running : client.isRunning = true) (others : client.asyncCount ≠ 0) :
      AsyncStep client thread (.syncWithContinueThread written)
        ({ client with asyncCount := client.asyncCount + 1 }.move thread (.waiting request))
  | acquire {request : Request} {written : Bool} (here : client.threads thread = .entering request)
      (free : client.isRunning = false) :
      AsyncStep client thread (.syncWithContinueThread written)
        ({ client with asyncCount := client.asyncCount + 1 }.move thread (.acquired request false))
  | wake {request : Request} (here : client.threads thread = .waiting request)
      (free : client.isRunning = false) :
      AsyncStep client thread .wake (client.move thread (.acquired request true))
  | lockAsync {request : Request} {didInterrupt : Bool}
      (here : client.threads thread = .acquired request didInterrupt) (free : client.asyncMutex = none) :
      AsyncStep client thread .lockAsync
        ({ client with asyncMutex := some thread }.move thread (.inside request didInterrupt))
  | finish {request : Request} {didInterrupt : Bool}
      (here : client.threads thread = .inside request didInterrupt) :
      AsyncStep client thread .finish ((client.finish thread didInterrupt request).move thread .leaving)
  | giveUp {request : Request} (here : client.threads thread = .refused request) :
      AsyncStep client thread .finish (client.move thread .idle)
  | destroy (here : client.threads thread = .leaving) :
      AsyncStep client thread .destroy
        ({ client with asyncCount := client.asyncCount - 1 }.move thread .unlocking)
  | unlockAsync (here : client.threads thread = .unlocking) :
      AsyncStep client thread .unlockAsync ({ client with asyncMutex := none }.move thread .idle)
  | send (able : maySend (client.threads thread) = true) :
      AsyncStep client thread .send (client.record (.packet thread))

theorem syncWithContinueThread_cases {thread : ι} {request : Request}
    (written : Bool) (here : client.threads thread = .entering request) :
    AsyncStep client thread (.syncWithContinueThread written)
      (client.syncWithContinueThread thread request written) := by
  unfold syncWithContinueThread
  split
  · next unasked => exact .refuse here unasked.1 (.inl (Bool.not_eq_true _ ▸ unasked.2))
  · dsimp only
    split
    · next running =>
      split
      · have first : client.asyncCount = 0 := by omega
        split
        · next written => cases written; exact .interrupt here running first
        · next unwritten => exact .refuse here running (.inr ⟨first, Bool.not_eq_true _ ▸ unwritten⟩)
      · next others => exact .wait here running (by omega)
    · next free => exact .acquire here (Bool.not_eq_true _ ▸ free)

theorem asyncStep_cases {client after : ClientBase ι} {thread : ι} {action : AsyncAction}
    (stepped : client.asyncStep thread action = some after) : AsyncStep client thread action after := by
  unfold asyncStep at stepped
  split at stepped
  · next here => cases stepped; exact .call here
  · next here => cases stepped; exact syncWithContinueThread_cases client _ here
  · next here =>
    split at stepped
    · cases stepped
    · next free => cases stepped; exact .wake here (Bool.not_eq_true _ ▸ free)
  · next here =>
    split at stepped
    · next free => cases stepped; exact .lockAsync here free
    · cases stepped
  · next here => cases stepped; exact .finish here
  · next here => cases stepped; exact .giveUp here
  · next here => cases stepped; exact .destroy here
  · next here => cases stepped; exact .unlockAsync here
  · split at stepped
    · next able => cases stepped; exact .send able
    · cases stepped
  · cases stepped

@[simp] theorem threads_move (thread : ι) (point : AsyncPoint) :
    (client.move thread point).threads = Function.update client.threads thread point := rfl

@[simp] theorem asyncCount_move (thread : ι) (point : AsyncPoint) :
    (client.move thread point).asyncCount = client.asyncCount := rfl

@[simp] theorem trace_move (thread : ι) (point : AsyncPoint) :
    (client.move thread point).trace = client.trace := rfl

theorem run_append (front back : List (Action ι)) :
    client.run (front ++ back) = (client.run front).bind (·.run back) := by
  induction front generalizing client with
  | nil => rfl
  | cons action front ih =>
    rw [List.cons_append, run, run, Option.bind_assoc]
    congr 1
    funext next
    exact ih next

end ClientBase

end Lldb.GdbRemote
