import Lldb.Core.Broadcaster
import Lldb.Library.Ledger

/-! Who is to get the events of a broadcaster, told from the operations done so far, and that they
get them.

The operations of a run stand latest first.
-/

set_option autoImplicit false

namespace Lldb.EventSystem

open Library

variable {ι β δ : Type} [DecidableEq ι]

def accumulated : List (Operation ι β δ) → ι → BitVec 32
  | [], _ => 0
  | .addListener other mask :: past, listener =>
    if other = listener then accumulated past listener ||| mask else accumulated past listener
  | .removeListener other mask :: past, listener =>
    if other = listener then accumulated past listener &&& ~~~mask else accumulated past listener
  | _ :: past, listener => accumulated past listener

def hijackers : List (Operation ι β δ) → List (ι × BitVec 32)
  | [] => []
  | .hijackBroadcaster listener mask :: past => (listener, mask) :: hijackers past
  | .restoreBroadcaster :: past => (hijackers past).tail
  | _ :: past => hijackers past

def Live (past : List (Operation ι β δ)) (listener : ι) : Prop := .expire listener ∉ past

def topHijacker (past : List (Operation ι β δ)) (eventType : BitVec 32) : Option ι :=
  ((hijackers past).head?.filter (eventType &&& ·.2 ≠ 0)).map Prod.fst

/-- The top hijacker gets an event its mask meets; any other is for every listener whose accumulated mask meets it. -/
def Entitled (past : List (Operation ι β δ)) (eventType : BitVec 32) (listener : ι) : Prop :=
  topHijacker past eventType = some listener ∨
    topHijacker past eventType = none ∧ accumulated past listener &&& eventType ≠ 0

instance (past : List (Operation ι β δ)) (eventType : BitVec 32) (listener : ι) : Decidable (Entitled past eventType listener) :=
  inferInstanceAs (Decidable (_ ∨ _))

variable [DecidableEq β]

def after (this : β) : List (Operation ι β δ) → EventSystem ι β δ
  | [] => new
  | operation :: past => ((after this past).perform this operation).2

def Legal (this : β) : List (Operation ι β δ) → Prop
  | [] => True
  | operation :: past => Legal this past ∧ (after this past).Callable operation

instance instDecidableLegal (this : β) : (past : List (Operation ι β δ)) → Decidable (Legal this past)
  | [] => isTrue trivial
  | _ :: past =>
    @instDecidableAnd _ _ (instDecidableLegal this past) inferInstance

def Queued (this : β) (events : List (Event β δ)) (eventType : BitVec 32) : Prop :=
  ∃ event ∈ events, event.broadcaster = some this ∧ eventType &&& event.type ≠ 0

instance (this : β) (events : List (Event β δ)) (eventType : BitVec 32) : Decidable (Queued this events eventType) :=
  inferInstanceAs (Decidable (∃ event ∈ events, _))

def queuedBy (this : β) (past : List (Operation ι β δ)) (operation : Operation ι β δ) (listener : ι) :
    List (Event β δ) :=
  match operation with
  | .broadcastEvent event => if Entitled past event.type listener then [event.setBroadcaster this] else []
  | .broadcastEventIfUnique event =>
    if Entitled past event.type listener ∧ ¬ Queued this ((after this past).events listener) event.type then
      [event.setBroadcaster this]
    else []
  | .addEvent other event => if other = listener then [event] else []
  | _ => []

def Operation.request : Operation ι β δ → Option (ι × EventMatcher β)
  | .getEvent listener => some (listener, ⟨none, 0⟩)
  | .getEventForBroadcasterWithType listener broadcaster mask => some (listener, ⟨broadcaster, mask⟩)
  | _ => none

def arrivals (this : β) : List (Operation ι β δ) → ι → List (Event β δ)
  | [], _ => []
  | operation :: past, listener => arrivals this past listener ++ queuedBy this past operation listener

def received (this : β) : List (Operation ι β δ) → ι → EventMatcher β → List (Event β δ)
  | [], _, _ => []
  | operation :: past, listener, matcher =>
    received this past listener matcher ++
      if operation.request = some (listener, matcher) then ((after this past).perform this operation).1.toList else []

/-- Where each event that was to be queued at a listener is: still in the queue, or received once for
a filter that accepts it; what was received for one filter came in the order of the queue, and is
all that the filter accepts and is not in the queue, when no other filter took such an event.
-/
structure HandedOver (this : β) (past : List (Operation ι β δ)) (listener : ι) (ledger : Ledger (Event β δ) (EventMatcher β)) :
    Prop where
  arrivals : ledger.arrivals = arrivals this past listener
  pending : ledger.pending = (after this past).events listener
  taken : ∀ matcher, ledger.taken matcher = received this past listener matcher
  accepted : ∀ event matcher, (event, some matcher) ∈ ledger.entries → matcher.accepts event = true
  complete : ∀ matcher : EventMatcher β,
    (∀ other, other ≠ matcher → ∀ event ∈ received this past listener other, matcher.accepts event = false) →
      received this past listener matcher ++ ((after this past).events listener).filter matcher.accepts =
        (EventSystem.arrivals this past listener).filter matcher.accepts

/-- The next operation queues at each live listener just what it is to, behind what is there, takes from it
just the first event a filter accepts, and what went before was handed over.
-/
structure Delivers (this : β) (past : List (Operation ι β δ)) : Prop where
  queues : ∀ operation listener, (after this past).Callable operation → Live (operation :: past) listener →
    (∀ matcher, operation.request ≠ some (listener, matcher)) → (after this (operation :: past)).events listener =
        (after this past).events listener ++ queuedBy this past operation listener
  gives : ∀ operation listener matcher, operation.request = some (listener, matcher) →
    ((after this past).perform this operation).1 = ((after this past).events listener).find? matcher.accepts ∧
      (after this (operation :: past)).events listener = ((after this past).events listener).eraseP matcher.accepts
  handsOver : ∀ listener, Live past listener → ∃ ledger, HandedOver this past listener ledger

end Lldb.EventSystem
