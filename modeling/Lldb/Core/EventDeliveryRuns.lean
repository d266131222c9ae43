import Lldb.Core.EventDelivery

/-! Every run keeps the list of listeners as the operations say it is, and hands over the events. -/

set_option autoImplicit false

namespace Lldb

open Library List

namespace Listener

variable {β δ : Type} [DecidableEq β]

theorem getElem?_findIdx {α : Type} (passes : α → Bool) (list : List α) : list[list.findIdx passes]? = list.find? passes := by
  induction list with
  | nil => rfl
  | cons first rest ih =>
    cases passed : passes first with
    | true => simp [findIdx_cons, passed]
    | false => simpa [findIdx_cons, passed] using ih

theorem eraseIdx_findIdx {α : Type} (passes : α → Bool) (list : List α) :
    list.eraseIdx (list.findIdx passes) = list.eraseP passes := by
  induction list with
  | nil => rfl
  | cons first rest ih =>
    cases passed : passes first with
    | true => simp [findIdx_cons, passed]
    | false => simpa [findIdx_cons, passed] using ih

theorem findNextEventInternal_eq (events : List (Event β δ)) (matcher : EventMatcher β) (remove : Bool) :
    findNextEventInternal events matcher remove =
      (events.find? matcher.accepts, if remove then events.eraseP matcher.accepts else events) := by
  have position : (if matcher.broadcaster = none ∧ matcher.eventTypeMask = 0 then 0 else events.findIdx matcher.accepts) =
      events.findIdx matcher.accepts := by
    split
    case isFalse => rfl
    case isTrue any =>
      have all : ∀ event : Event β δ, matcher.accepts event = true := by
        intro event
        simp [EventMatcher.accepts, any.1, any.2]
      cases events with
      | nil => rfl
      | cons first rest => simp [findIdx_cons, all first]
  unfold findNextEventInternal
  simp only [position, getElem?_findIdx, eraseIdx_findIdx]
  cases found : events.find? matcher.accepts with
  | some event => rfl
  | none =>
    have untouched : events.eraseP matcher.accepts = events := eraseP_of_forall_not (find?_eq_none.mp found)
    simp [untouched]

theorem isSome_peek (events : List (Event β δ)) (broadcaster : β) (eventTypeMask : BitVec 32) (nonzero : eventTypeMask ≠ 0) :
    (peekAtNextEventForBroadcasterWithType events broadcaster eventTypeMask).isSome = true ↔
      ∃ event ∈ events, event.broadcaster = some broadcaster ∧ eventTypeMask &&& event.type ≠ 0 := by
  unfold peekAtNextEventForBroadcasterWithType
  rw [findNextEventInternal_eq, find?_isSome]
  apply exists_congr
  intro event
  have some_ : ¬ eventTypeMask = 0#32 := nonzero
  simp [EventMatcher.accepts, Event.broadcasterIs, some_]

end Listener

namespace BroadcasterImpl

variable {ι : Type}

variable {listener : ι} {listeners : List (ι × BitVec 32)}

theorem mem_getListeners {impl : BroadcasterImpl ι} {alive : ι → Bool} {mask : BitVec 32} :
    (listener, mask) ∈ impl.getListeners alive ↔ (listener, mask) ∈ impl.listeners ∧ alive listener = true ∧ mask ≠ 0 := by
  simp [getListeners]

theorem distinct_getListeners {impl : BroadcasterImpl ι} (alive : ι → Bool) (distinct : (impl.listeners.map Prod.fst).Nodup) :
    ((impl.getListeners alive).map Prod.fst).Nodup :=
  distinct.sublist (List.Sublist.map _ filter_sublist)

/-- The list has a listener at most once, and with the bits it is entitled to, unless these are none. -/
structure Registered (impl : BroadcasterImpl ι) (alive : ι → Bool) (bits : ι → BitVec 32) : Prop where
  distinct : (impl.listeners.map Prod.fst).Nodup
  masks : ∀ listener mask, alive listener = true → mask ≠ 0 → ((listener, mask) ∈ impl.listeners ↔ mask = bits listener)

namespace Registered

variable {impl : BroadcasterImpl ι} {alive : ι → Bool} {bits : ι → BitVec 32}

variable (registered : Registered impl alive bits)
include registered

theorem mem_getListeners {listener : ι} {mask : BitVec 32} :
    (listener, mask) ∈ impl.getListeners alive ↔ alive listener = true ∧ mask ≠ 0 ∧ mask = bits listener := by
  rw [BroadcasterImpl.mem_getListeners]
  constructor
  · rintro ⟨held, live, nonzero⟩
    exact ⟨live, nonzero, (registered.masks listener mask live nonzero).mp held⟩
  · rintro ⟨live, nonzero, same⟩
    exact ⟨(registered.masks listener mask live nonzero).mpr same, live, nonzero⟩

theorem pruned : Registered { impl with listeners := impl.getListeners alive } alive bits where
  distinct := distinct_getListeners alive registered.distinct
  masks listener mask live nonzero := by
    exact registered.mem_getListeners.trans ⟨fun ⟨_, _, same⟩ => same, fun same => ⟨live, nonzero, same⟩⟩

theorem not_mem {listener : ι} (live : alive listener = true)
    (missing : listener ∉ (impl.getListeners alive).map Prod.fst) : bits listener = 0 := by
  by_contra nonzero
  exact missing (mem_map.mpr ⟨(listener, bits listener), registered.mem_getListeners.mpr ⟨live, nonzero, rfl⟩, rfl⟩)

end Registered

variable [DecidableEq ι]

def change (listener : ι) (to_ : BitVec 32 → BitVec 32) (entry : ι × BitVec 32) : ι × BitVec 32 :=
  if entry.1 = listener then (entry.1, to_ entry.2) else entry

@[simp] theorem change_fst (listener : ι) (to_ : BitVec 32 → BitVec 32) (entry : ι × BitVec 32) :
    (change listener to_ entry).1 = entry.1 := by
  unfold change
  split <;> rfl

theorem map_fst_change (listener : ι) (to_ : BitVec 32 → BitVec 32) (listeners : List (ι × BitVec 32)) :
    (listeners.map (change listener to_)).map Prod.fst = listeners.map Prod.fst := by
  rw [map_map]
  exact map_congr_left fun entry _ => change_fst listener to_ entry

theorem mem_map_change {to_ : BitVec 32 → BitVec 32} {other : ι} {mask : BitVec 32} :
    (other, mask) ∈ listeners.map (change listener to_) ↔
      if other = listener then ∃ before, (other, before) ∈ listeners ∧ to_ before = mask else (other, mask) ∈ listeners := by
  rw [mem_map]
  split
  case isTrue same =>
    constructor
    · rintro ⟨entry, held, changed⟩
      have key : entry.1 = other := (change_fst listener to_ entry).symm.trans (congrArg Prod.fst changed)
      rw [change, if_pos (key.trans same)] at changed
      exact ⟨entry.2, by rw [← key]; exact held, congrArg Prod.snd changed⟩
    · rintro ⟨before, held, rfl⟩
      exact ⟨(other, before), held, if_pos same⟩
  case isFalse differ =>
    constructor
    · rintro ⟨entry, held, changed⟩
      have key : entry.1 = other := (change_fst listener to_ entry).symm.trans (congrArg Prod.fst changed)
      rw [change, if_neg fun same => differ (key.symm.trans same)] at changed
      rw [← changed]
      exact held
    · exact fun held => ⟨(other, mask), held, if_neg differ⟩

theorem updateMask_eq (to_ : BitVec 32 → BitVec 32) (distinct : (listeners.map Prod.fst).Nodup) :
    updateMask listener to_ listeners =
      if listener ∈ listeners.map Prod.fst then some (listeners.map (change listener to_)) else none := by
  induction listeners with
  | nil => rfl
  | cons first rest ih =>
    obtain ⟨other, mask⟩ := first
    obtain ⟨absent, distinct⟩ := nodup_cons.mp distinct
    by_cases same : other = listener
    · subst same
      have kept : rest.map (change other to_) = rest.map id :=
        map_congr_left fun entry held => if_neg fun here => absent (mem_map.mpr ⟨entry, held, here⟩)
      rw [map_id] at kept
      rw [updateMask, if_pos rfl, if_pos (by exact mem_cons_self), map_cons, kept, change, if_pos rfl]
    · rw [updateMask, if_neg same, ih distinct]
      by_cases there : listener ∈ rest.map Prod.fst
      · have held : listener ∈ ((other, mask) :: rest).map Prod.fst := mem_cons_of_mem _ there
        rw [if_pos there, if_pos held, map_cons, change, if_neg same]
        rfl
      · have missing : listener ∉ ((other, mask) :: rest).map Prod.fst := fun held =>
          (mem_cons.mp held).elim (fun here => same here.symm) there
        rw [if_neg there, if_neg missing]
        rfl

namespace Registered

variable {impl : BroadcasterImpl ι} {alive : ι → Bool} {bits : ι → BitVec 32}

variable {listener : ι}

variable (registered : Registered impl alive bits)
include registered

theorem changed (held : listener ∈ (impl.getListeners alive).map Prod.fst) (to_ : BitVec 32 → BitVec 32) :
    Registered { impl with listeners := (impl.getListeners alive).map (change listener to_) } alive
      (Function.update bits listener (to_ (bits listener))) where
  distinct := by
    rw [map_fst_change]
    exact distinct_getListeners alive registered.distinct
  masks other mask live nonzero := by
    rw [mem_map_change]
    obtain ⟨⟨_, before⟩, inside, rfl⟩ := mem_map.mp held
    have entry := registered.mem_getListeners.mp inside
    split
    case isTrue same =>
      rw [same, Function.update_self]
      constructor
      · rintro ⟨earlier, there, rfl⟩
        rw [(registered.mem_getListeners.mp there).2.2]
      · intro becomes
        exact ⟨before, inside, by rw [becomes, ← entry.2.2]⟩
    case isFalse differ =>
      rw [Function.update_of_ne differ, registered.mem_getListeners]
      exact ⟨fun ⟨_, _, same⟩ => same, fun same => ⟨live, nonzero, same⟩⟩

theorem addListener (live : alive listener = true) (eventMask : BitVec 32) :
    Registered (impl.addListener alive listener eventMask) alive
      (Function.update bits listener (bits listener ||| eventMask)) := by
  unfold BroadcasterImpl.addListener
  simp only [updateMask_eq _ (distinct_getListeners alive registered.distinct)]
  split
  case isTrue held => exact registered.changed held (· ||| eventMask)
  case isFalse missing =>
    have nothing : bits listener = 0 := registered.not_mem live missing
    constructor
    · simp only [Option.getD_none, map_append, map_cons]
      apply nodup_append.mpr ⟨distinct_getListeners alive registered.distinct, nodup_cons.mpr ⟨not_mem_nil, .nil⟩, ?_⟩
      intro first held second new same
      exact missing (mem_singleton.mp new ▸ same ▸ held)
    · intro other mask otherLive nonzero
      simp only [Option.getD_none, mem_append, mem_singleton, Prod.mk.injEq, registered.mem_getListeners]
      by_cases same : other = listener
      · subst same
        have only : mask ≠ bits other := fun here => nonzero (here.trans nothing)
        have zero : bits other ||| eventMask = eventMask := by
          rw [nothing]
          exact BitVec.zero_or
        simp [only, zero]
      · rw [Function.update_of_ne same]
        exact ⟨fun entry => (entry.resolve_right fun new => same new.1).2.2, fun here => .inl ⟨otherLive, nonzero, here⟩⟩

theorem removeListener (live : alive listener = true) (eventMask : BitVec 32) :
    Registered (impl.removeListener alive listener eventMask).2 alive
      (Function.update bits listener (bits listener &&& ~~~eventMask)) := by
  unfold BroadcasterImpl.removeListener
  simp only [updateMask_eq _ (distinct_getListeners alive registered.distinct)]
  split
  case h_1 updated found =>
    split at found
    case isTrue held =>
      cases found
      exact registered.changed held (· &&& ~~~eventMask)
    case isFalse => cases found
  case h_2 found =>
    split at found
    case isTrue => cases found
    case isFalse missing =>
      have nothing : bits listener = 0 := registered.not_mem live missing
      have none_ : bits listener &&& ~~~eventMask = bits listener := by
        rw [nothing]
        exact BitVec.zero_and
      rw [none_, Function.update_eq_self]
      exact registered.pruned

end Registered

theorem removeListener_hijacking (impl : BroadcasterImpl ι) (alive : ι → Bool) (listener : ι) (eventMask : BitVec 32) :
    (impl.removeListener alive listener eventMask).2.hijackingListeners = impl.hijackingListeners ∧
      (impl.removeListener alive listener eventMask).2.hijackingMasks = impl.hijackingMasks := by
  unfold removeListener
  simp only
  split <;> exact ⟨rfl, rfl⟩

end BroadcasterImpl

namespace EventSystem

variable {ι β δ : Type} [DecidableEq ι]

theorem events_addEvent (system : EventSystem ι β δ) (event : Event β δ) (other listener : ι) :
    (system.addEvent other event).events listener =
      system.events listener ++ if other = listener then [event] else [] := by
  unfold addEvent
  by_cases same : other = listener
  · subst same
    simp
  · simp [same, Function.update_of_ne (Ne.symm same)]

structure Consistent (past : List (Operation ι β δ)) (system : EventSystem ι β δ) : Prop where
  registered : system.broadcaster.Registered system.alive (accumulated past)
  alive : ∀ listener, system.alive listener = true ↔ Live past listener
  hijackingListeners : system.broadcaster.hijackingListeners = ((hijackers past).map Prod.fst).reverse
  hijackingMasks : system.broadcaster.hijackingMasks = ((hijackers past).map Prod.snd).reverse

namespace Consistent

variable {past : List (Operation ι β δ)} {system : EventSystem ι β δ}

theorem hijackingListener (consistent : Consistent past system) (eventType : BitVec 32) :
    system.broadcaster.hijackingListener eventType = topHijacker past eventType := by
  unfold BroadcasterImpl.hijackingListener topHijacker
  rw [consistent.hijackingListeners, consistent.hijackingMasks]
  cases hijackers past with
  | nil => rfl
  | cons top rest =>
    by_cases apart : eventType &&& top.2 = 0
    · simp [apart, Option.filter_some]
    · have meets : ¬ eventType &&& top.2 = 0#32 := apart
      simp [meets, Option.filter_some]

theorem new : Consistent ([] : List (Operation ι β δ)) EventSystem.new where
  registered :=
    { distinct := .nil
      masks := fun _ _ _ nonzero => iff_of_false not_mem_nil nonzero }
  alive _ := iff_of_true rfl not_mem_nil
  hijackingListeners := rfl
  hijackingMasks := rfl

variable {operation : Operation ι β δ}

omit [DecidableEq ι] in
theorem live_cons (kept : ∀ listener, operation ≠ .expire listener) (listener : ι) :
    Live (operation :: past) listener ↔ Live past listener := by
  unfold Live
  rw [mem_cons, not_or]
  exact and_iff_right fun same => kept listener same.symm

variable (consistent : Consistent past system)
include consistent

/-- An operation that is no request to the broadcaster leaves the system as the operations say. -/
theorem later
    (kept : ∀ listener, operation ≠ .expire listener) (bits : accumulated (operation :: past) = accumulated past)
    (stack : hijackers (operation :: past) = hijackers past) : Consistent (operation :: past) system where
  registered := by
    rw [bits]
    exact consistent.registered
  alive listener := (consistent.alive listener).trans (live_cons kept listener).symm
  hijackingListeners := by
    rw [stack]
    exact consistent.hijackingListeners
  hijackingMasks := by
    rw [stack]
    exact consistent.hijackingMasks

theorem events (queues : ι → List (Event β δ)) : Consistent past { system with events := queues } :=
  ⟨consistent.registered, consistent.alive, consistent.hijackingListeners, consistent.hijackingMasks⟩

theorem addListener {listener : ι} (live : system.alive listener = true) (mask : BitVec 32) :
    Consistent (.addListener listener mask :: past : List (Operation ι β δ))
      { system with broadcaster := system.broadcaster.addListener system.alive listener mask } where
  registered := by
    have bits : accumulated (.addListener listener mask :: past) =
        Function.update (accumulated past) listener (accumulated past listener ||| mask) := by
      funext other
      by_cases same : listener = other
      · subst same
        simp [accumulated]
      · simp [accumulated, same, Function.update_of_ne (Ne.symm same)]
    rw [bits]
    exact consistent.registered.addListener live mask
  alive other := (consistent.alive other).trans (live_cons nofun other).symm
  hijackingListeners := consistent.hijackingListeners
  hijackingMasks := consistent.hijackingMasks

theorem removeListener {listener : ι} (live : system.alive listener = true) (mask : BitVec 32) :
    Consistent (.removeListener listener mask :: past : List (Operation ι β δ))
      { system with broadcaster := (system.broadcaster.removeListener system.alive listener mask).2 } where
  registered := by
    have bits : accumulated (.removeListener listener mask :: past) =
        Function.update (accumulated past) listener (accumulated past listener &&& ~~~mask) := by
      funext other
      by_cases same : listener = other
      · subst same
        simp [accumulated]
      · simp [accumulated, same, Function.update_of_ne (Ne.symm same)]
    rw [bits]
    exact consistent.registered.removeListener live mask
  alive other := (consistent.alive other).trans (live_cons nofun other).symm
  hijackingListeners :=
    (system.broadcaster.removeListener_hijacking system.alive listener mask).1.trans consistent.hijackingListeners
  hijackingMasks :=
    (system.broadcaster.removeListener_hijacking system.alive listener mask).2.trans consistent.hijackingMasks

theorem restoreBroadcaster : Consistent (.restoreBroadcaster :: past : List (Operation ι β δ))
      { system with broadcaster := system.broadcaster.restoreBroadcaster } where
  registered := ⟨consistent.registered.distinct, consistent.registered.masks⟩
  alive other := (consistent.alive other).trans (live_cons nofun other).symm
  hijackingListeners := by
    unfold BroadcasterImpl.restoreBroadcaster hijackers
    simp [consistent.hijackingListeners]
  hijackingMasks := by
    unfold BroadcasterImpl.restoreBroadcaster hijackers
    simp [consistent.hijackingMasks]

theorem expire (listener : ι) : Consistent (.expire listener :: past : List (Operation ι β δ)) { system with
        alive := Function.update system.alive listener false
        events := Function.update system.events listener [] } where
  registered :=
    { distinct := consistent.registered.distinct
      masks := by
        intro other mask live nonzero
        by_cases same : other = listener
        · subst same
          simp at live
        · simp only at live
          rw [Function.update_of_ne same] at live
          exact consistent.registered.masks other mask live nonzero }
  alive other := by
    unfold Live
    by_cases same : other = listener
    · subst same
      simp
    · simp only
      rw [Function.update_of_ne same, consistent.alive, mem_cons, not_or]
      exact (and_iff_right fun this => same (Operation.expire.inj this)).symm
  hijackingListeners := consistent.hijackingListeners
  hijackingMasks := consistent.hijackingMasks

end Consistent

variable [DecidableEq β] {this : β}

theorem events_deliver (system : EventSystem ι β δ) (event : Event β δ) (unique : Bool) (other listener : ι)
    (nonzero : event.type ≠ 0) :
    (deliver this event unique system other).events listener = system.events listener ++
        if other = listener ∧ ¬ (unique = true ∧ Queued this (system.events listener) event.type) then [event] else [] := by
  unfold deliver
  simp only [Listener.isSome_peek _ _ _ nonzero]
  split
  case isTrue blocked =>
    rw [if_neg, append_nil]
    rintro ⟨rfl, free⟩
    exact free blocked
  case isFalse free =>
    rw [events_addEvent]
    by_cases same : other = listener
    · subst same
      rw [if_pos rfl, if_pos ⟨rfl, free⟩]
    · rw [if_neg same, if_neg fun both => same both.1]

theorem deliver_frame {this : β} (system : EventSystem ι β δ) (event : Event β δ) (unique : Bool) (listener : ι) :
    (deliver this event unique system listener).broadcaster = system.broadcaster ∧
      (deliver this event unique system listener).alive = system.alive := by
  unfold deliver
  split <;> exact ⟨rfl, rfl⟩

theorem deliverEach_frame (event : Event β δ) (unique : Bool) (entries : List (ι × BitVec 32)) (system : EventSystem ι β δ) :
    (deliverEach this event unique entries system).broadcaster = system.broadcaster ∧
      (deliverEach this event unique entries system).alive = system.alive := by
  induction entries generalizing system with
  | nil => exact ⟨rfl, rfl⟩
  | cons entry rest ih =>
    unfold deliverEach
    rw [foldl_cons]
    split
    · exact ih system
    · obtain ⟨broadcaster, alive⟩ := ih (deliver this event unique system entry.1)
      obtain ⟨sameBroadcaster, sameAlive⟩ := deliver_frame system event unique entry.1
      exact ⟨broadcaster.trans sameBroadcaster, alive.trans sameAlive⟩

theorem events_deliverEach (event : Event β δ) (unique : Bool) {entries : List (ι × BitVec 32)}
    (distinct : (entries.map Prod.fst).Nodup) (system : EventSystem ι β δ) (listener : ι) :
    (deliverEach this event unique entries system).events listener = system.events listener ++
        if (∃ mask, (listener, mask) ∈ entries ∧ mask &&& event.type ≠ 0) ∧
            ¬ (unique = true ∧ Queued this (system.events listener) event.type) then [event] else [] := by
  induction entries generalizing system with
  | nil => simp [deliverEach]
  | cons entry rest ih =>
    obtain ⟨other, mask⟩ := entry
    obtain ⟨absent, distinct⟩ := nodup_cons.mp distinct
    have elsewhere : ∀ system : EventSystem ι β δ, other = listener →
        (deliverEach this event unique rest system).events listener = system.events listener := by
      intro system same
      rw [ih distinct system, if_neg, append_nil]
      rintro ⟨⟨mask, held, -⟩, -⟩
      exact absent (mem_map.mpr ⟨(listener, mask), held, same.symm⟩)
    unfold deliverEach at ih elsewhere ⊢
    rw [foldl_cons]
    by_cases same : other = listener
    · rw [elsewhere _ same]
      have only : (∃ found, (listener, found) ∈ (other, mask) :: rest ∧ found &&& event.type ≠ 0) ↔
          mask &&& event.type ≠ 0 := by
        constructor
        · rintro ⟨found, held, meets⟩
          rcases mem_cons.mp held with here | behind
          · rwa [← (Prod.mk.inj here).2]
          · exact absurd (mem_map.mpr ⟨(listener, found), behind, same.symm⟩) absent
        · exact fun meets => ⟨mask, by rw [same]; exact mem_cons_self, meets⟩
      simp only [only]
      by_cases apart : mask &&& event.type = 0
      · rw [if_pos apart, if_neg fun both => both.1 apart, append_nil]
      · have nonzero : event.type ≠ 0 := fun zero => apart (by rw [zero]; exact BitVec.and_zero)
        rw [if_neg apart, events_deliver system event unique other listener nonzero]
        simp only [same, ne_eq, apart, not_false_eq_true]
    · have only : (∃ found, (listener, found) ∈ (other, mask) :: rest ∧ found &&& event.type ≠ 0) ↔
          ∃ found, (listener, found) ∈ rest ∧ found &&& event.type ≠ 0 := by
        apply exists_congr
        intro found
        rw [mem_cons, Prod.mk.injEq]
        exact and_congr_left fun _ => or_iff_right fun here => same here.1.symm
      simp only [only]
      by_cases apart : mask &&& event.type = 0
      · rw [if_pos apart]
        exact ih distinct system
      · have nonzero : event.type ≠ 0 := fun zero => apart (by rw [zero]; exact BitVec.and_zero)
        have kept : (deliver this event unique system other).events listener = system.events listener := by
          rw [events_deliver system event unique other listener nonzero, if_neg fun both => same both.1, append_nil]
        rw [if_neg apart, ih distinct _, kept]

namespace Consistent

variable {past : List (Operation ι β δ)} {system : EventSystem ι β δ}

theorem privateBroadcastEvent (consistent : Consistent past system) (event : Event β δ) (unique : Bool) :
    Consistent past (EventSystem.privateBroadcastEvent this system event unique) := by
  obtain ⟨registered, alive, hijackingListeners, hijackingMasks⟩ := consistent
  unfold EventSystem.privateBroadcastEvent
  simp only
  split
  case h_1 listener _ =>
    obtain ⟨broadcaster, live⟩ := deliver_frame system (event.setBroadcaster this) unique listener
    exact ⟨by rw [broadcaster, live]; exact registered, by rw [live]; exact alive,
      by rw [broadcaster]; exact hijackingListeners, by rw [broadcaster]; exact hijackingMasks⟩
  case h_2 =>
    obtain ⟨broadcaster, live⟩ := deliverEach_frame (event.setBroadcaster this) unique
      (system.broadcaster.getListeners system.alive)
      { system with broadcaster := { system.broadcaster with listeners := system.broadcaster.getListeners system.alive } }
    exact ⟨by rw [broadcaster, live]; exact registered.pruned, by rw [live]; exact alive,
      by rw [broadcaster]; exact hijackingListeners, by rw [broadcaster]; exact hijackingMasks⟩

theorem perform (consistent : Consistent past system) {operation : Operation ι β δ} (callable : system.Callable operation) :
    Consistent (operation :: past) (system.perform this operation).2 := by
  cases operation with
  | addListener listener mask => exact consistent.addListener callable mask
  | removeListener listener mask => exact consistent.removeListener callable mask
  | hijackBroadcaster listener mask =>
    refine ⟨⟨consistent.registered.distinct, consistent.registered.masks⟩, fun other => (consistent.alive other).trans (live_cons nofun other).symm, ?_, ?_⟩
    · simp [EventSystem.perform, BroadcasterImpl.hijackBroadcaster, hijackers, consistent.hijackingListeners]
    · simp [EventSystem.perform, BroadcasterImpl.hijackBroadcaster, hijackers, consistent.hijackingMasks]
  | restoreBroadcaster => exact consistent.restoreBroadcaster
  | broadcastEvent event => exact (consistent.privateBroadcastEvent event false).later nofun rfl rfl
  | broadcastEventIfUnique event => exact (consistent.privateBroadcastEvent event true).later nofun rfl rfl
  | getEvent listener => exact (consistent.events _).later nofun rfl rfl
  | getEventForBroadcasterWithType listener broadcaster mask => exact (consistent.events _).later nofun rfl rfl
  | addEvent listener event => exact (consistent.events _).later nofun rfl rfl
  | expire listener => exact consistent.expire listener

end Consistent

variable {past : List (Operation ι β δ)}

variable {listener : ι} {operation : Operation ι β δ} {matcher : EventMatcher β}

omit [DecidableEq ι] [DecidableEq β] in
theorem nonzero_of_topHijacker {eventType : BitVec 32} (top : topHijacker past eventType = some listener) :
    eventType ≠ 0 := by
  rintro rfl
  unfold topHijacker at top
  cases found : hijackers past with
  | nil => simp [found] at top
  | cons first rest => simp [found] at top

theorem Consistent.events_broadcast {system : EventSystem ι β δ} (consistent : Consistent past system) (event : Event β δ)
    (unique : Bool) (live : Live past listener) :
    (EventSystem.privateBroadcastEvent this system event unique).events listener = system.events listener ++
        if Entitled past event.type listener ∧ ¬ (unique = true ∧ Queued this (system.events listener) event.type) then
          [event.setBroadcaster this] else [] := by
  have hijacked := consistent.hijackingListener event.type
  have type : (event.setBroadcaster this).type = event.type := rfl
  cases top : topHijacker past event.type with
  | some first =>
    have entitled : Entitled past event.type listener ↔ first = listener := by simp [Entitled, top]
    have goes : EventSystem.privateBroadcastEvent this system event unique =
        deliver this (event.setBroadcaster this) unique system first := by
      unfold EventSystem.privateBroadcastEvent
      simp [type, hijacked, top]
    have nonzero : (event.setBroadcaster this).type ≠ 0 := nonzero_of_topHijacker top
    rw [goes, events_deliver system _ unique first listener nonzero]
    simp [entitled, type]
  | none =>
    have entitled : Entitled past event.type listener ↔ accumulated past listener &&& event.type ≠ 0 := by simp [Entitled, top]
    have meets : (∃ mask, (listener, mask) ∈ system.broadcaster.getListeners system.alive ∧ mask &&& event.type ≠ 0) ↔
        accumulated past listener &&& event.type ≠ 0 := by
      constructor
      · rintro ⟨mask, held, meets⟩
        rwa [(consistent.registered.mem_getListeners.mp held).2.2] at meets
      · intro meets
        have nonzero : accumulated past listener ≠ 0 := fun zero => meets (by rw [zero]; exact BitVec.zero_and)
        have alive := (consistent.alive listener).mpr live
        exact ⟨_, consistent.registered.mem_getListeners.mpr ⟨alive, nonzero, rfl⟩, meets⟩
    have goes : EventSystem.privateBroadcastEvent this system event unique =
        deliverEach this (event.setBroadcaster this) unique (system.broadcaster.getListeners system.alive)
          { system with broadcaster := { system.broadcaster with
              listeners := system.broadcaster.getListeners system.alive } } := by
      unfold EventSystem.privateBroadcastEvent
      simp [type, hijacked, top]
    have distinct := BroadcasterImpl.distinct_getListeners system.alive consistent.registered.distinct
    rw [goes, events_deliverEach _ unique distinct]
    simp only [entitled, type, meets]

theorem events_getEventInternal (system : EventSystem ι β δ) (listener : ι) (matcher : EventMatcher β) (other : ι) :
    (system.getEventInternal listener matcher).1 = (system.events listener).find? matcher.accepts ∧
      (system.getEventInternal listener matcher).2.events other =
        if other = listener then (system.events listener).eraseP matcher.accepts else system.events other := by
  unfold getEventInternal
  rw [Listener.findNextEventInternal_eq]
  by_cases same : other = listener
  · subst same
    simp
  · simp [same]

theorem perform_request {system : EventSystem ι β δ} (request : operation.request = some (listener, matcher)) :
    system.perform this operation = system.getEventInternal listener matcher := by
  cases operation <;> cases request <;> rfl

theorem consistent_after (legal : Legal this past) : Consistent past (after this past) := by
  induction past with
  | nil => exact .new
  | cons operation past ih => exact (ih legal.1).perform legal.2

omit [DecidableEq ι] [DecidableEq β] in
theorem live_of_cons (live : Live (operation :: past) listener) : Live past listener :=
  fun gone => live (mem_cons_of_mem _ gone)

/-- An operation that does not ask a listener for an event queues there what it is to queue. -/
theorem queues_perform (legal : Legal this past)
    (live : Live (operation :: past) listener) (unasked : ∀ matcher, operation.request ≠ some (listener, matcher)) :
    (after this (operation :: past)).events listener =
      (after this past).events listener ++ queuedBy this past operation listener := by
  have consistent := consistent_after legal
  have liveBefore := live_of_cons live
  rw [after]
  cases operation with
  | broadcastEvent event =>
    refine (consistent.events_broadcast event false liveBefore).trans ?_
    simp [queuedBy]
  | broadcastEventIfUnique event =>
    refine (consistent.events_broadcast event true liveBefore).trans ?_
    simp [queuedBy]
  | addEvent other event => exact events_addEvent (after this past) event other listener
  | getEvent other =>
    have differ : listener ≠ other := fun same => unasked _ (by rw [same]; rfl)
    refine (events_getEventInternal (after this past) other ⟨none, 0⟩ listener).2.trans ?_
    simp [differ, queuedBy]
  | getEventForBroadcasterWithType other broadcaster mask =>
    have differ : listener ≠ other := fun same => unasked _ (by rw [same]; rfl)
    refine (events_getEventInternal (after this past) other ⟨broadcaster, mask⟩ listener).2.trans ?_
    simp [differ, queuedBy]
  | expire other =>
    have differ : listener ≠ other := fun same => live (by rw [same]; exact mem_cons_self)
    simp [perform, queuedBy, Function.update_of_ne differ]
  | _ => simp [perform, queuedBy]

theorem gives_perform (this : β) (past : List (Operation ι β δ))
    (request : operation.request = some (listener, matcher)) :
    ((after this past).perform this operation).1 = ((after this past).events listener).find? matcher.accepts ∧
      (after this (operation :: past)).events listener = ((after this past).events listener).eraseP matcher.accepts := by
  rw [after, perform_request request]
  obtain ⟨given, left⟩ := events_getEventInternal (after this past) listener matcher listener
  exact ⟨given, left.trans (if_pos rfl)⟩

theorem queuedBy_request {other : ι}
    (request : operation.request = some (other, matcher)) : queuedBy this past operation listener = [] := by
  cases operation <;> cases request <;> rfl

theorem ledger_of_run (legal : Legal this past) (live : Live past listener) :
    ∃ ledger : Ledger (Event β δ) (EventMatcher β), ledger.Orderly EventMatcher.accepts ∧
      ledger.arrivals = arrivals this past listener ∧ ledger.pending = (after this past).events listener ∧
        ∀ matcher, ledger.taken matcher = received this past listener matcher := by
  induction past with
  | nil => exact ⟨.empty, .empty, rfl, rfl, fun _ => rfl⟩
  | cons operation past ih =>
    obtain ⟨ledger, orderly, arrived, pending, taken⟩ := ih legal.1 (live_of_cons live)
    by_cases asked : ∃ matcher, operation.request = some (listener, matcher)
    · obtain ⟨matcher, request⟩ := asked
      obtain ⟨given, left⟩ := gives_perform this past request
      refine ⟨ledger.take EventMatcher.accepts matcher, orderly.take matcher, ?_, ?_, ?_⟩
      · simp [arrived, arrivals, queuedBy_request request]
      · simp [pending, left]
      · intro other
        rw [received, given, request, ← taken other]
        by_cases same : other = matcher
        · subst same
          rw [orderly.taken_take, pending, if_pos rfl]
        · rw [Ledger.taken_take_of_ne _ _ same, if_neg, append_nil]
          rintro ⟨rfl⟩
          exact same rfl
    · have unasked : ∀ matcher, operation.request ≠ some (listener, matcher) := fun matcher request => asked ⟨matcher, request⟩
      refine ⟨ledger.put (queuedBy this past operation listener), orderly.put _, ?_, ?_, ?_⟩
      · simp [arrived, arrivals]
      · simp [pending, queues_perform legal.1 live unasked]
      · intro matcher
        simp [taken, received, if_neg (unasked matcher)]

theorem handed_over (legal : Legal this past) (live : Live past listener) :
    ∃ ledger, HandedOver this past listener ledger := by
  obtain ⟨ledger, orderly, arrived, pending, taken⟩ := ledger_of_run legal live
  refine ⟨ledger, arrived, pending, taken, orderly.passed, ?_⟩
  intro matcher alone
  rw [← arrived, ← pending, ← taken]
  apply orderly.taken_append_pending
  intro other differ event held
  exact alone other differ event (by rw [← taken]; exact held)

/-- After every run the events are delivered as they are to be. -/
theorem events_delivered (legal : Legal this past) : Delivers this past where
  queues _ _ _ live unasked := queues_perform legal live unasked
  gives _ _ _ request := gives_perform this past request
  handsOver _ live := handed_over legal live

/-- A listener for two types, a hijacker of one of them, and an event of each sent and asked for. -/
def hijackedRun : List (Operation Nat Nat Unit) :=
  [.getEventForBroadcasterWithType 1 (some 0) 2, .getEvent 2, .restoreBroadcaster, .broadcastEventIfUnique ⟨none, 2, ()⟩,
    .broadcastEvent ⟨none, 2, ()⟩, .hijackBroadcaster 2 2, .broadcastEvent ⟨none, 2, ()⟩, .broadcastEvent ⟨none, 1, ()⟩,
    .addListener 1 3]

theorem events_delivered_hijackedRun : Legal 0 hijackedRun ∧ Delivers 0 hijackedRun :=
  ⟨by decide, events_delivered (by decide)⟩

example : received 0 hijackedRun 1 ⟨some 0, 2⟩ = [⟨some 0, 2, ()⟩] := by decide

end EventSystem

end Lldb
