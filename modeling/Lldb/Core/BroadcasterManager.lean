import Lldb.Library.OrderedMap
import Mathlib.Data.Finset.Max
import Mathlib.Data.Prod.Lex

/-! `BroadcasterManager`: which listeners are registered for which events of which classes.

Classes are ordered as `ConstString` orders them, listeners as their pointers are.
-/

set_option autoImplicit false

namespace Lldb

open Library

structure BroadcastEventSpec (κ : Type) where
  broadcasterClass : κ
  eventBits : BitVec 32
  deriving DecidableEq, Repr

namespace BroadcastEventSpec

variable {κ : Type}

theorem toLex_injective : Function.Injective fun spec : BroadcastEventSpec κ =>
    toLex (spec.broadcasterClass, spec.eventBits.toNat) := by
  rintro ⟨class_, bits⟩ ⟨other, otherBits⟩ same
  obtain ⟨rfl, bits⟩ := Prod.mk.inj (toLex.injective same)
  exact congrArg (BroadcastEventSpec.mk class_) (BitVec.eq_of_toNat_eq bits)

instance [LinearOrder κ] : LinearOrder (BroadcastEventSpec κ) := LinearOrder.lift' _ toLex_injective

end BroadcastEventSpec

structure BroadcasterManager (κ ι : Type) [LinearOrder κ] where
  eventMap : OrderedMap (BroadcastEventSpec κ) ι
  listeners : Finset ι

namespace BroadcasterManager

variable {κ ι : Type} [LinearOrder κ] [LinearOrder ι]

def empty : BroadcasterManager κ ι := ⟨.empty, ∅⟩

def availableBits (manager : BroadcasterManager κ ι) (spec : BroadcastEventSpec κ) : BitVec 32 :=
  (manager.eventMap.entries.filter fun entry => entry.1.broadcasterClass = spec.broadcasterClass).foldl
    (fun bits entry => bits &&& ~~~entry.1.eventBits) spec.eventBits

def registerListenerForEvents (manager : BroadcasterManager κ ι) (listener : ι) (spec : BroadcastEventSpec κ) :
    BitVec 32 × BroadcasterManager κ ι :=
  let available := manager.availableBits spec
  if available ≠ 0 then
    (available, { eventMap := manager.eventMap.insertNew ⟨spec.broadcasterClass, available⟩ listener
                  listeners := insert listener manager.listeners })
  else (available, manager)

/-- `ListenerMatchesAndSharedBits` -/
def sharesBits (spec : BroadcastEventSpec κ) (listener : ι) (entry : BroadcastEventSpec κ × ι) : Bool :=
  entry.1.broadcasterClass = spec.broadcasterClass ∧ entry.1.eventBits &&& spec.eventBits ≠ 0 ∧ entry.2 = listener

/-- The entries that match are taken out one after the other; what is left of those that are not
the exact one is put back.
-/
def unregisterListenerForEvents (manager : BroadcasterManager κ ι) (listener : ι) (spec : BroadcastEventSpec κ) :
    Bool × BroadcasterManager κ ι :=
  if listener ∉ manager.listeners then (false, manager)
  else
    let matching := manager.eventMap.entries.filter (sharesBits spec listener)
    let toBeReadded := (matching.filter fun entry => spec.eventBits ≠ entry.1.eventBits).map fun entry =>
      (⟨spec.broadcasterClass, entry.1.eventBits &&& ~~~spec.eventBits⟩ : BroadcastEventSpec κ)
    let kept := manager.eventMap.filter fun entry => !sharesBits spec listener entry
    (!matching.isEmpty, { eventMap := toBeReadded.foldl (fun map spec => map.insertNew spec listener) kept
                          listeners := manager.listeners.erase listener })

/-- The overload for a pointer: the iterator that `find_if` returns is dropped, so the first
listener of the set is erased.
-/
def removeListenerPointer (manager : BroadcasterManager κ ι) (listener : ι) : BroadcasterManager κ ι where
  eventMap := manager.eventMap.filter fun entry => entry.2 ≠ listener
  listeners :=
    match manager.listeners.min with
    | some first => manager.listeners.erase first
    | none => manager.listeners

def removeListener (manager : BroadcasterManager κ ι) (listener : ι) : BroadcasterManager κ ι :=
  if listener ∉ manager.listeners then manager
  else
    { eventMap := manager.eventMap.filter fun entry => entry.2 ≠ listener
      listeners := manager.listeners.erase listener }

inductive Operation (κ ι : Type) where
  | registerListenerForEvents (listener : ι) (spec : BroadcastEventSpec κ)
  | unregisterListenerForEvents (listener : ι) (spec : BroadcastEventSpec κ)
  | removeListenerPointer (listener : ι)
  | removeListener (listener : ι)
  deriving DecidableEq, Repr

def apply (manager : BroadcasterManager κ ι) : Operation κ ι → BroadcasterManager κ ι
  | .registerListenerForEvents listener spec => (manager.registerListenerForEvents listener spec).2
  | .unregisterListenerForEvents listener spec => (manager.unregisterListenerForEvents listener spec).2
  | .removeListenerPointer listener => manager.removeListenerPointer listener
  | .removeListener listener => manager.removeListener listener

end BroadcasterManager

end Lldb

/-! What the registrations of a manager say: who owns which bits of which class, and which
operations leave that as they should.
-/

namespace Lldb.BroadcasterManager

open Library List

variable {κ ι : Type} [LinearOrder κ]

def Owns (manager : BroadcasterManager κ ι) (listener : ι) (class_ : κ) (bit : Nat) : Prop :=
  ∃ entry ∈ manager.eventMap.entries,
    entry.1.broadcasterClass = class_ ∧ entry.2 = listener ∧ entry.1.eventBits.getLsbD bit

structure Consistent (manager : BroadcasterManager κ ι) : Prop where
  owners : ∀ listener, listener ∈ manager.listeners ↔ ∃ entry ∈ manager.eventMap.entries, entry.2 = listener
  nonzero : ∀ entry ∈ manager.eventMap.entries, entry.1.eventBits ≠ 0
  disjoint : ∀ first ∈ manager.eventMap.entries, ∀ second ∈ manager.eventMap.entries,
    first.1.broadcasterClass = second.1.broadcasterClass →
      ∀ bit, first.1.eventBits.getLsbD bit → second.1.eventBits.getLsbD bit → first = second

/-! Bits. -/

theorem exists_bit {bits : BitVec 32} (nonzero : bits ≠ 0) : ∃ bit, bits.getLsbD bit := by
  by_contra none_
  rw [not_exists] at none_
  refine nonzero (BitVec.eq_of_getLsbD_eq fun bit _ => ?_)
  simpa using none_ bit

theorem getLsbD_and_not (bits mask : BitVec 32) (bit : Nat) :
    (bits &&& ~~~mask).getLsbD bit ↔ bits.getLsbD bit ∧ ¬ mask.getLsbD bit := by
  rw [BitVec.getLsbD_and, Bool.and_eq_true]
  refine and_congr_right fun has => ?_
  simp [BitVec.lt_of_getLsbD has]

theorem getLsbD_foldl {α : Type} (mask : α → BitVec 32) (entries : List α) (bits : BitVec 32) (bit : Nat) :
    (entries.foldl (fun bits entry => bits &&& ~~~mask entry) bits).getLsbD bit ↔
      bits.getLsbD bit ∧ ∀ entry ∈ entries, ¬ (mask entry).getLsbD bit := by
  induction entries generalizing bits with
  | nil => simp
  | cons entry entries ih => rw [foldl_cons, ih, getLsbD_and_not, forall_mem_cons, and_assoc]

/-! Registration. -/

theorem getLsbD_availableBits (manager : BroadcasterManager κ ι) (spec : BroadcastEventSpec κ) (bit : Nat) :
    (manager.availableBits spec).getLsbD bit ↔
      spec.eventBits.getLsbD bit ∧ ∀ other, ¬ manager.Owns other spec.broadcasterClass bit := by
  refine (getLsbD_foldl (fun entry : BroadcastEventSpec κ × ι => entry.1.eventBits) _ _ bit).trans ?_
  refine and_congr_right fun _ => ⟨fun free other owns => ?_, fun free entry member has => ?_⟩
  · obtain ⟨entry, member, same, -, has⟩ := owns
    exact free entry (mem_filter.mpr ⟨member, decide_eq_true same⟩) has
  · obtain ⟨member, same⟩ := mem_filter.mp member
    exact free entry.2 ⟨entry, member, of_decide_eq_true same, rfl, has⟩

theorem consistent_empty : (empty : BroadcasterManager κ ι).Consistent where
  owners listener := by simp [empty, OrderedMap.empty]
  nonzero entry member := by cases member
  disjoint first member := by cases member

variable [LinearOrder ι]

def Effect (manager : BroadcasterManager κ ι) : Operation κ ι → Prop
  | .registerListenerForEvents listener spec =>
    let (bits, next) := manager.registerListenerForEvents listener spec
    (∀ bit, bits.getLsbD bit ↔ spec.eventBits.getLsbD bit ∧ ∀ other, ¬ manager.Owns other spec.broadcasterClass bit) ∧
      ∀ other class_ bit, next.Owns other class_ bit ↔
        manager.Owns other class_ bit ∨ other = listener ∧ class_ = spec.broadcasterClass ∧ bits.getLsbD bit
  | .unregisterListenerForEvents listener spec =>
    let (removed, next) := manager.unregisterListenerForEvents listener spec
    (removed ↔ ∃ bit, manager.Owns listener spec.broadcasterClass bit ∧ spec.eventBits.getLsbD bit) ∧
      ∀ other class_ bit, next.Owns other class_ bit ↔
        manager.Owns other class_ bit ∧ ¬ (other = listener ∧ class_ = spec.broadcasterClass ∧ spec.eventBits.getLsbD bit)
  | .removeListenerPointer listener =>
    ∀ other class_ bit, (manager.removeListenerPointer listener).Owns other class_ bit ↔
      manager.Owns other class_ bit ∧ other ≠ listener
  | .removeListener listener =>
    ∀ other class_ bit, (manager.removeListener listener).Owns other class_ bit ↔
      manager.Owns other class_ bit ∧ other ≠ listener

/-- When an operation does so: a listener that unregisters has no entry but the exact one, and one
that is removed by its pointer is the first of the listeners.
-/
def Suits (manager : BroadcasterManager κ ι) : Operation κ ι → Prop
  | .registerListenerForEvents _ _ => True
  | .unregisterListenerForEvents listener spec =>
    ∀ entry ∈ manager.eventMap.entries, entry.2 = listener → entry.1 = spec
  | .removeListenerPointer listener => ∀ first, manager.listeners.min = some first → first = listener
  | .removeListener _ => True

variable {manager : BroadcasterManager κ ι}

variable (consistent : manager.Consistent)
include consistent

variable (listener : ι)

theorem register_keeps (spec : BroadcastEventSpec κ) :
    manager.Effect (.registerListenerForEvents listener spec) ∧
      (manager.apply (.registerListenerForEvents listener spec)).Consistent := by
  have free := manager.getLsbD_availableBits spec
  unfold Effect apply registerListenerForEvents
  simp only
  by_cases available : manager.availableBits spec ≠ 0
  · rw [if_pos available]
    obtain ⟨bit, first⟩ := exists_bit available
    -- no entry has the key, since none has the bit
    have fresh : ∀ old ∈ manager.eventMap.entries, old.1 ≠ ⟨spec.broadcasterClass, manager.availableBits spec⟩ := by
      intro old member same
      have owned : manager.Owns old.2 spec.broadcasterClass bit := by
        refine ⟨old, member, ?_, rfl, ?_⟩
        · rw [same]
        · rw [same]
          exact first
      exact ((free bit).mp first).2 _ owned
    have members (entry : BroadcastEventSpec κ × ι) :
        entry ∈ (manager.eventMap.insertNew ⟨spec.broadcasterClass, manager.availableBits spec⟩ listener).entries ↔
          entry ∈ manager.eventMap.entries ∨ entry = (⟨spec.broadcasterClass, manager.availableBits spec⟩, listener) := by
      rw [OrderedMap.mem_insertNew, and_iff_left fresh]
    refine ⟨⟨free, fun other class_ bit => ⟨?_, ?_⟩⟩, fun other => ?_, fun entry member => ?_, ?_⟩
    · rintro ⟨entry, member, rfl, rfl, has⟩
      rcases (members entry).mp member with member | rfl
      · exact .inl ⟨entry, member, rfl, rfl, has⟩
      · exact .inr ⟨rfl, rfl, has⟩
    · rintro (⟨entry, member, same, own, has⟩ | ⟨rfl, rfl, has⟩)
      · exact ⟨entry, (members entry).mpr (.inl member), same, own, has⟩
      · exact ⟨_, (members _).mpr (.inr rfl), rfl, rfl, has⟩
    · simp only [Finset.mem_insert, consistent.owners]
      constructor
      · rintro (rfl | ⟨entry, member, own⟩)
        · exact ⟨_, (members _).mpr (.inr rfl), rfl⟩
        · exact ⟨entry, (members entry).mpr (.inl member), own⟩
      · rintro ⟨entry, member, rfl⟩
        rcases (members entry).mp member with member | rfl
        · exact .inr ⟨entry, member, rfl⟩
        · exact .inl rfl
    · rcases (members entry).mp member with member | rfl
      · exact consistent.nonzero entry member
      · exact available
    · intro left leftMember right rightMember same bit hasLeft hasRight
      rcases (members left).mp leftMember with leftMember | rfl <;>
        rcases (members right).mp rightMember with rightMember | rfl
      · exact consistent.disjoint left leftMember right rightMember same bit hasLeft hasRight
      · exact absurd ⟨left, leftMember, same, rfl, hasLeft⟩ (((free bit).mp hasRight).2 left.2)
      · exact absurd ⟨right, rightMember, same.symm, rfl, hasRight⟩ (((free bit).mp hasLeft).2 right.2)
      · rfl
  · rw [if_neg available]
    have none_ : manager.availableBits spec = 0 := not_not.mp available
    refine ⟨⟨free, fun other class_ bit => ?_⟩, consistent⟩
    simp [none_]

/-! Removal of all entries of a listener. -/

/-- Without the entries of a listener, the manager is consistent when just it leaves the set. -/
theorem without_keeps
    {listeners : Finset ι} (left : listeners = manager.listeners.erase listener) {next : BroadcasterManager κ ι}
    (next_ : next = ⟨manager.eventMap.filter fun entry => entry.2 ≠ listener, listeners⟩) :
    (∀ other class_ bit, next.Owns other class_ bit ↔ manager.Owns other class_ bit ∧ other ≠ listener) ∧
      next.Consistent := by
  subst next_
  have members (entry : BroadcastEventSpec κ × ι) :
      entry ∈ (manager.eventMap.filter fun entry => entry.2 ≠ listener).entries ↔
        entry ∈ manager.eventMap.entries ∧ entry.2 ≠ listener := by
    simp [OrderedMap.mem_filter]
  refine ⟨fun other class_ bit => ⟨?_, ?_⟩, fun other => ?_, fun entry member => ?_, ?_⟩
  · rintro ⟨entry, member, same, rfl, has⟩
    obtain ⟨member, apart⟩ := (members entry).mp member
    exact ⟨⟨entry, member, same, rfl, has⟩, apart⟩
  · rintro ⟨⟨entry, member, same, rfl, has⟩, apart⟩
    exact ⟨entry, (members entry).mpr ⟨member, apart⟩, same, rfl, has⟩
  · simp only [left, Finset.mem_erase, consistent.owners]
    constructor
    · rintro ⟨apart, entry, member, rfl⟩
      exact ⟨entry, (members entry).mpr ⟨member, apart⟩, rfl⟩
    · rintro ⟨entry, member, rfl⟩
      obtain ⟨member, apart⟩ := (members entry).mp member
      exact ⟨apart, entry, member, rfl⟩
  · exact consistent.nonzero entry ((members entry).mp member).1
  · intro first firstMember second secondMember
    exact consistent.disjoint first ((members first).mp firstMember).1 second ((members second).mp secondMember).1

theorem removeListener_keeps :
    manager.Effect (.removeListener listener) ∧ (manager.apply (.removeListener listener)).Consistent := by
  unfold Effect apply removeListener
  by_cases there : listener ∉ manager.listeners
  · simp only
    rw [if_pos there]
    refine ⟨fun other class_ bit => ⟨fun owns => ⟨owns, ?_⟩, And.left⟩, consistent⟩
    rintro rfl
    obtain ⟨entry, member, -, own, -⟩ := owns
    exact there ((consistent.owners other).mpr ⟨entry, member, own⟩)
  · simp only
    rw [if_neg there]
    exact without_keeps consistent listener rfl rfl

theorem removeListenerPointer_iff :
    manager.Effect (.removeListenerPointer listener) ∧ (manager.apply (.removeListenerPointer listener)).Consistent ↔
      manager.Suits (.removeListenerPointer listener) := by
  unfold Effect apply removeListenerPointer Suits
  cases least : manager.listeners.min with
  | top =>
    have empty_ := Finset.min_eq_top.mp least
    refine iff_of_true (without_keeps consistent listener ?_ rfl) (fun first same => by cases same)
    rw [empty_]
    rfl
  | coe first =>
    have member := Finset.mem_of_min least
    constructor
    · rintro ⟨-, next⟩ other same
      cases same
      by_contra apart
      obtain ⟨entry, there, own⟩ := (consistent.owners first).mp member
      have stays : first ∈ manager.listeners.erase first := by
        refine (next.owners first).mpr ⟨entry, ?_, own⟩
        exact (OrderedMap.mem_filter _ _ _).mpr ⟨there, decide_eq_true (own ▸ apart)⟩
      exact Finset.notMem_erase _ _ stays
    · intro first_
      have same := first_ first rfl
      subst same
      exact without_keeps consistent first rfl rfl

omit consistent

theorem sharesBits_iff (spec : BroadcastEventSpec κ) (listener : ι) (entry : BroadcastEventSpec κ × ι) :
    sharesBits spec listener entry ↔ entry.1.broadcasterClass = spec.broadcasterClass ∧
      entry.1.eventBits &&& spec.eventBits ≠ 0 ∧ entry.2 = listener := decide_eq_true_iff

variable (consistent : manager.Consistent)
include consistent

theorem only_of_erased {listener : ι} {spec : BroadcastEventSpec κ} {bits : List (BroadcastEventSpec κ)}
    (next : Consistent ⟨bits.foldl (fun map spec => map.insertNew spec listener)
      (manager.eventMap.filter fun entry => !sharesBits spec listener entry), manager.listeners.erase listener⟩)
    (readded : ∀ entry ∈ manager.eventMap.entries, sharesBits spec listener entry → spec.eventBits ≠ entry.1.eventBits →
      ⟨spec.broadcasterClass, entry.1.eventBits &&& ~~~spec.eventBits⟩ ∈ bits) :
    ∀ entry ∈ manager.eventMap.entries, entry.2 = listener → entry.1 = spec := by
  have gone (entry : BroadcastEventSpec κ × ι) (there : entry ∈ (bits.foldl (fun map spec => map.insertNew spec listener)
      (manager.eventMap.filter fun entry => !sharesBits spec listener entry)).entries) : entry.2 ≠ listener := by
    intro own
    exact Finset.notMem_erase _ _ ((next.owners listener).mpr ⟨entry, there, own⟩)
  intro entry member own
  by_cases shares : sharesBits spec listener entry
  · obtain ⟨class_, -, -⟩ := (sharesBits_iff _ _ _).mp shares
    by_contra apart
    have other : spec.eventBits ≠ entry.1.eventBits := by
      intro same
      exact apart (congrArg₂ BroadcastEventSpec.mk class_ same.symm)
    refine gone _ (OrderedMap.mem_foldl_insertNew (readded entry member shares other) fun old old_ same => ?_) rfl
    obtain ⟨before, unshared⟩ := (OrderedMap.mem_filter _ _ _).mp old_
    obtain ⟨bit, has⟩ := exists_bit (consistent.nonzero old before)
    have left : entry.1.eventBits.getLsbD bit := by
      rw [same] at has
      exact ((getLsbD_and_not _ _ bit).mp has).1
    have equal := consistent.disjoint old before entry member (by rw [same, class_]) bit has left
    rw [equal, shares] at unshared
    cases unshared
  · refine absurd own (gone entry (OrderedMap.mem_foldl_insertNew_of_mem bits ?_))
    exact (OrderedMap.mem_filter _ _ _).mpr ⟨member, by simp [shares]⟩

theorem unregister_iff (spec : BroadcastEventSpec κ) :
    manager.Effect (.unregisterListenerForEvents listener spec) ∧
      (manager.apply (.unregisterListenerForEvents listener spec)).Consistent ↔
      manager.Suits (.unregisterListenerForEvents listener spec) := by
  unfold Effect apply unregisterListenerForEvents Suits
  simp only
  by_cases there : listener ∉ manager.listeners
  · rw [if_pos there]
    have none_ : ∀ entry ∈ manager.eventMap.entries, entry.2 ≠ listener := by
      intro entry member own
      exact there ((consistent.owners listener).mpr ⟨entry, member, own⟩)
    refine iff_of_true ⟨⟨⟨nofun, ?_⟩, fun other class_ bit => ⟨fun owns => ⟨owns, ?_⟩, And.left⟩⟩, consistent⟩ ?_
    · rintro ⟨bit, ⟨entry, member, -, own, -⟩, -⟩
      exact absurd own (none_ entry member)
    · rintro ⟨rfl, -, -⟩
      obtain ⟨entry, member, -, own, -⟩ := owns
      exact none_ entry member own
    · intro entry member own
      exact absurd own (none_ entry member)
  · rw [if_neg there]
    constructor
    · rintro ⟨-, next⟩
      refine only_of_erased consistent next fun entry member shares other => ?_
      refine mem_map.mpr ⟨entry, ?_, rfl⟩
      exact mem_filter.mpr ⟨mem_filter.mpr ⟨member, shares⟩, decide_eq_true other⟩
    · intro only
      have matches_ : ∀ entry ∈ manager.eventMap.entries, sharesBits spec listener entry ↔ entry.2 = listener := by
        intro entry member
        refine ⟨fun shares => ((sharesBits_iff _ _ _).mp shares).2.2, fun own => (sharesBits_iff _ _ _).mpr ?_⟩
        have nonzero := consistent.nonzero entry member
        rw [← only entry member own, BitVec.and_self]
        exact ⟨rfl, nonzero, own⟩
      have kept : manager.eventMap.filter (fun entry => !sharesBits spec listener entry) =
          manager.eventMap.filter fun entry => entry.2 ≠ listener := by
        refine OrderedMap.filter_congr fun entry member => ?_
        rw [Bool.eq_iff_iff, Bool.not_eq_true', decide_eq_true_iff, ← Bool.not_eq_true, matches_ entry member]
      have exact_ : (manager.eventMap.entries.filter (sharesBits spec listener)).filter
          (fun entry => spec.eventBits ≠ entry.1.eventBits) = [] := by
        rw [filter_eq_nil_iff]
        intro entry member
        obtain ⟨member, shares⟩ := mem_filter.mp member
        simp [only entry member ((matches_ entry member).mp shares)]
      obtain ⟨owns, next⟩ := without_keeps consistent listener rfl rfl
      rw [exact_, kept]
      refine ⟨⟨?_, fun other class_ bit => (owns other class_ bit).trans (and_congr_right fun owned => ?_)⟩, next⟩
      · obtain ⟨entry, member, own⟩ := (consistent.owners listener).mp (not_not.mp there)
        obtain ⟨bit, has⟩ := exists_bit (consistent.nonzero entry member)
        have same := only entry member own
        refine iff_of_true ?_ ⟨bit, ⟨entry, member, by rw [same], own, has⟩, by rw [← same]; exact has⟩
        have nonempty := ne_nil_of_mem (mem_filter.mpr ⟨member, (matches_ entry member).mpr own⟩)
        simpa using nonempty
      · obtain ⟨entry, member, rfl, rfl, has⟩ := owned
        refine not_congr ⟨fun same => ?_, And.left⟩
        rw [← only entry member same]
        exact ⟨same, rfl, has⟩

theorem apply_iff (operation : Operation κ ι) :
    manager.Effect operation ∧ (manager.apply operation).Consistent ↔ manager.Suits operation := by
  cases operation with
  | registerListenerForEvents listener spec => exact iff_of_true (register_keeps consistent listener spec) trivial
  | unregisterListenerForEvents listener spec => exact unregister_iff consistent listener spec
  | removeListenerPointer listener => exact removeListenerPointer_iff consistent listener
  | removeListener listener => exact iff_of_true (removeListener_keeps consistent listener) trivial

def Throughout (holds : BroadcasterManager κ ι → Operation κ ι → Prop) :
    BroadcasterManager κ ι → List (Operation κ ι) → Prop
  | _, [] => True
  | manager, operation :: rest => holds manager operation ∧ Throughout holds (manager.apply operation) rest

theorem throughout_iff (operations : List (Operation κ ι)) :
    Throughout (fun manager operation => manager.Effect operation ∧ (manager.apply operation).Consistent) manager
      operations ↔ Throughout Suits manager operations := by
  induction operations generalizing manager with
  | nil => exact Iff.rfl
  | cons operation rest ih =>
    refine (and_congr_left fun _ => apply_iff consistent operation).trans (and_congr_right fun suits => ?_)
    exact ih ((apply_iff consistent operation).mpr suits).2

omit consistent

/-- From a new manager on, the registrations are consistent after every operation, and each has
its effect, exactly when every unregistration and removal by pointer suits the entries.
-/
theorem registrations_consistent_iff (operations : List (Operation κ ι)) :
    Throughout (fun manager operation => manager.Effect operation ∧ (manager.apply operation).Consistent) empty
      operations ↔ Throughout Suits empty operations :=
  throughout_iff consistent_empty operations

/-- Unregistering one bit of two erases the listener that keeps the other. -/
theorem registrations_not_always_consistent :
    ¬ ((empty : BroadcasterManager Nat Nat).apply (.registerListenerForEvents 1 ⟨0, 3⟩)
      |>.apply (.unregisterListenerForEvents 1 ⟨0, 1⟩)).Consistent := by
  intro consistent
  have there : (1 : Nat) ∈ (∅ : Finset Nat) := (consistent.owners 1).mpr ⟨(⟨0, 2⟩, 1), by decide, rfl⟩
  cases there

end Lldb.BroadcasterManager
