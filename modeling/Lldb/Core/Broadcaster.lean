import Mathlib.Data.List.Basic

/-! `Broadcaster::BroadcasterImpl` and the event queues of its `Listener`s.

A listener is named by its address, and the weak pointer to it is its address while it is alive.
-/

set_option autoImplicit false

namespace Lldb

structure Event (β δ : Type) where
  broadcaster : Option β
  type : BitVec 32
  data : δ
  deriving DecidableEq, Repr

namespace Event

variable {β δ : Type} [DecidableEq β]

def broadcasterIs (event : Event β δ) (broadcaster : β) : Bool := event.broadcaster = some broadcaster

def setBroadcaster (event : Event β δ) (broadcaster : β) : Event β δ := { event with broadcaster := some broadcaster }

end Event

structure EventMatcher (β : Type) where
  broadcaster : Option β
  eventTypeMask : BitVec 32
  deriving DecidableEq, Repr

def EventMatcher.accepts {β δ : Type} [DecidableEq β] (matcher : EventMatcher β) (event : Event β δ) : Bool :=
  matcher.broadcaster.all event.broadcasterIs &&
    (matcher.eventTypeMask = 0 || matcher.eventTypeMask &&& event.type ≠ 0)

namespace Listener

variable {β δ : Type} [DecidableEq β]

def findNextEventInternal (events : List (Event β δ)) (matcher : EventMatcher β) (remove : Bool) :
    Option (Event β δ) × List (Event β δ) :=
  let position :=
    if matcher.broadcaster = none ∧ matcher.eventTypeMask = 0 then 0 else events.findIdx matcher.accepts
  match events[position]? with
  | some event => (some event, if remove then events.eraseIdx position else events)
  | none => (none, events)

def peekAtNextEventForBroadcasterWithType (events : List (Event β δ)) (broadcaster : β) (eventTypeMask : BitVec 32) :
    Option (Event β δ) :=
  (findNextEventInternal events ⟨some broadcaster, eventTypeMask⟩ false).1

end Listener

structure BroadcasterImpl (ι : Type) where
  listeners : List (ι × BitVec 32)
  hijackingListeners : List ι
  hijackingMasks : List (BitVec 32)
  deriving DecidableEq, Repr

namespace BroadcasterImpl

variable {ι : Type} [DecidableEq ι]

def empty : BroadcasterImpl ι := ⟨[], [], []⟩

variable (impl : BroadcasterImpl ι)

/-- The entries that stay in the list are those that are handed out by reference. -/
def getListeners (alive : ι → Bool) : List (ι × BitVec 32) :=
  impl.listeners.filter fun entry => alive entry.1 && entry.2 ≠ 0

/-- Changes the mask of the first entry of a listener; none when it has no entry. -/
def updateMask (listener : ι) (change : BitVec 32 → BitVec 32) : List (ι × BitVec 32) → Option (List (ι × BitVec 32))
  | [] => none
  | (other, mask) :: rest =>
    if other = listener then some ((other, change mask) :: rest)
    else (updateMask listener change rest).map ((other, mask) :: ·)

def addListener (alive : ι → Bool) (listener : ι) (eventMask : BitVec 32) : BroadcasterImpl ι :=
  let listeners := impl.getListeners alive
  { impl with
    listeners := (updateMask listener (· ||| eventMask) listeners).getD (listeners ++ [(listener, eventMask)]) }

def removeListener (alive : ι → Bool) (listener : ι) (eventMask : BitVec 32) :
    Bool × BroadcasterImpl ι :=
  let listeners := impl.getListeners alive
  match updateMask listener (· &&& ~~~eventMask) listeners with
  | some updated => (true, { impl with listeners := updated })
  | none => (false, { impl with listeners := listeners })

def hijackBroadcaster (listener : ι) (eventMask : BitVec 32) : BroadcasterImpl ι :=
  { impl with
    hijackingListeners := impl.hijackingListeners ++ [listener]
    hijackingMasks := impl.hijackingMasks ++ [eventMask] }

def restoreBroadcaster : BroadcasterImpl ι :=
  { impl with
    hijackingListeners := impl.hijackingListeners.dropLast
    hijackingMasks := impl.hijackingMasks.dropLast }

/-- The listener on top of the stack, when the mask on top of the other stack meets the type. -/
def hijackingListener (eventType : BitVec 32) : Option ι :=
  match impl.hijackingListeners.getLast?, impl.hijackingMasks.getLast? with
  | some listener, some mask => if eventType &&& mask = 0 then none else some listener
  | _, _ => none

end BroadcasterImpl

structure EventSystem (ι β δ : Type) where
  broadcaster : BroadcasterImpl ι
  alive : ι → Bool
  events : ι → List (Event β δ)

namespace EventSystem

variable {ι β δ : Type} [DecidableEq ι] [DecidableEq β]

def new : EventSystem ι β δ := ⟨.empty, fun _ => true, fun _ => []⟩

/-- `Listener::AddEvent` -/
def addEvent (system : EventSystem ι β δ) (listener : ι) (event : Event β δ) : EventSystem ι β δ :=
  { system with events := Function.update system.events listener (system.events listener ++ [event]) }

/-- Queues an event at one listener, unless it is to be unique there and is not. -/
def deliver (this : β) (event : Event β δ) (unique : Bool) (system : EventSystem ι β δ) (listener : ι) :
    EventSystem ι β δ :=
  if unique ∧ (Listener.peekAtNextEventForBroadcasterWithType (system.events listener) this event.type).isSome then system
  else system.addEvent listener event

def deliverEach (this : β) (event : Event β δ) (unique : Bool) (listeners : List (ι × BitVec 32))
    (system : EventSystem ι β δ) : EventSystem ι β δ :=
  listeners.foldl (fun system entry =>
    if entry.2 &&& event.type = 0 then system else deliver this event unique system entry.1) system

def privateBroadcastEvent (this : β) (system : EventSystem ι β δ) (event : Event β δ) (unique : Bool) :
    EventSystem ι β δ :=
  let event := event.setBroadcaster this
  match system.broadcaster.hijackingListener event.type with
  | some listener => system.deliver this event unique listener
  | none =>
    let listeners := system.broadcaster.getListeners system.alive
    deliverEach this event unique listeners
      { system with broadcaster := { system.broadcaster with listeners := listeners } }

/-- One attempt of `GetEventInternal`: without an event it waits, and attempts again or times out. -/
def getEventInternal (system : EventSystem ι β δ) (listener : ι) (matcher : EventMatcher β) :
    Option (Event β δ) × EventSystem ι β δ :=
  let (event, events) := Listener.findNextEventInternal (system.events listener) matcher true
  (event, { system with events := Function.update system.events listener events })

/-- What is done under a lock, and two things from outside: another broadcaster queues an event, and
the last reference to a listener goes away, which destroys it with its queue.
-/
inductive Operation (ι β δ : Type) where
  | addListener (listener : ι) (eventMask : BitVec 32)
  | removeListener (listener : ι) (eventMask : BitVec 32)
  | hijackBroadcaster (listener : ι) (eventMask : BitVec 32)
  | restoreBroadcaster
  | broadcastEvent (event : Event β δ)
  | broadcastEventIfUnique (event : Event β δ)
  | getEvent (listener : ι)
  | getEventForBroadcasterWithType (listener : ι) (broadcaster : Option β) (eventTypeMask : BitVec 32)
  | addEvent (listener : ι) (event : Event β δ)
  | expire (listener : ι)
  deriving DecidableEq

def perform (this : β) (system : EventSystem ι β δ) : Operation ι β δ → Option (Event β δ) × EventSystem ι β δ
  | .addListener listener mask =>
    (none, { system with broadcaster := system.broadcaster.addListener system.alive listener mask })
  | .removeListener listener mask =>
    (none, { system with broadcaster := (system.broadcaster.removeListener system.alive listener mask).2 })
  | .hijackBroadcaster listener mask =>
    (none, { system with broadcaster := system.broadcaster.hijackBroadcaster listener mask })
  | .restoreBroadcaster => (none, { system with broadcaster := system.broadcaster.restoreBroadcaster })
  | .broadcastEvent event => (none, privateBroadcastEvent this system event false)
  | .broadcastEventIfUnique event => (none, privateBroadcastEvent this system event true)
  | .getEvent listener => system.getEventInternal listener ⟨none, 0⟩
  | .getEventForBroadcasterWithType listener broadcaster mask => system.getEventInternal listener ⟨broadcaster, mask⟩
  | .addEvent listener event => (none, system.addEvent listener event)
  | .expire listener =>
    (none, { system with
      alive := Function.update system.alive listener false
      events := Function.update system.events listener [] })

/-- A call needs a reference to the listener it is given; the stack of hijackers holds one to each. -/
def Callable (system : EventSystem ι β δ) : Operation ι β δ → Prop
  | .addListener listener _ | .removeListener listener _ | .hijackBroadcaster listener _ | .getEvent listener
  | .getEventForBroadcasterWithType listener _ _ | .addEvent listener _ => system.alive listener = true
  | .restoreBroadcaster | .broadcastEvent _ | .broadcastEventIfUnique _ => True
  | .expire listener => listener ∉ system.broadcaster.hijackingListeners

instance (system : EventSystem ι β δ) : (operation : Operation ι β δ) → Decidable (system.Callable operation)
  | .addListener listener _ | .removeListener listener _ | .hijackBroadcaster listener _ | .getEvent listener
  | .getEventForBroadcasterWithType listener _ _ | .addEvent listener _ =>
    inferInstanceAs (Decidable (system.alive listener = true))
  | .restoreBroadcaster | .broadcastEvent _ | .broadcastEventIfUnique _ => inferInstanceAs (Decidable True)
  | .expire listener => inferInstanceAs (Decidable (listener ∉ system.broadcaster.hijackingListeners))

end EventSystem

end Lldb
