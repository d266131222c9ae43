import Lldb.Library.LowerBound
import Lldb.Library.OrderedMap
import Mathlib.Data.List.Nodup
import Mathlib.Data.Prod.Lex

/-! `BreakpointLocationList`: the locations of a breakpoint, by ID and by address.

The map is ordered by where addresses lie now, so an address in a section that is deleted moves in it.
-/

set_option autoImplicit false

namespace Lldb.BreakpointLocationList

open Library OrderedMap List

structure Address (σ : Type) where
  section_ : σ
  offset : Nat
  deriving DecidableEq

/-- A location; it stays the same `object` when its address changes. -/
structure Location (σ : Type) where
  object : Nat
  id : Nat
  address : Address σ
  deriving DecidableEq

/-- The sections that are there: the module's address, and the section's file address. -/
abbrev Sections (σ : Type) := σ → Option (Nat × Nat)

variable {σ : Type}

abbrev Key := Nat ×ₗ Nat

variable (sections : Sections σ)

/-- What `CompareModulePointerAndOffset` compares. -/
def key (address : Address σ) : Key :=
  match sections address.section_ with
  | some (module, start) => toLex (module, if start = 2 ^ 64 - 1 then start else (start + address.offset) % 2 ^ 64)
  | none => toLex (0, 2 ^ 64 - 1)

structure LocationList (σ : Type) where
  sections : Sections σ
  locations : List (Location σ)
  addressToLocation : OrderedMap Key (Address σ × Nat)
  nextId : Nat
  nextObject : Nat

def start : LocationList σ := ⟨sections, [], .empty, 0, 0⟩

variable (list : LocationList σ)

def findByID (id : Nat) : Option (Location σ) :=
  list.locations[lowerBound (fun position => list.locations[position]?.any fun location => location.id < id)
    list.locations.length]?.filter fun location => location.id = id

variable (address : Address σ)

def findByAddress : Option Nat :=
  if list.locations = [] then none
  else (list.addressToLocation.find? (key list.sections address)).map Prod.snd

def assign (object : Nat) : LocationList σ :=
  let place := key list.sections address
  let kept := (list.addressToLocation.find? place).elim address Prod.fst
  { list with addressToLocation := list.addressToLocation.insert place (kept, object) }

def erase (address : Address σ) : LocationList σ :=
  { list with addressToLocation := list.addressToLocation.erase (key list.sections address) }

/-- An ID that does not fit `break_id_t` is undefined. -/
def create : Option (LocationList σ × Nat) :=
  if list.nextId + 1 < 2 ^ 31 then
    let added := { list with
      locations := list.locations ++ [⟨list.nextObject, list.nextId + 1, address⟩]
      nextId := list.nextId + 1
      nextObject := list.nextObject + 1 }
    some (assign added address list.nextObject, list.nextObject)
  else none

def addLocation : Option (LocationList σ × Nat × Bool) :=
  match findByAddress list address with
  | some object => some (list, object, false)
  | none => (create list address).map fun (list, object) => (list, object, true)

def removeLocation (location : Location σ) : LocationList σ :=
  let list := erase list location.address
  match list.locations.find? fun other => other.object = location.object with
  | some listed =>
    let list := erase list listed.address
    { list with locations := list.locations.eraseP fun other => other.object = location.object }
  | none => list

/-- `BreakpointLocation::SwapLocation` as far as the list sees it. -/
def move (object : Nat) (address : Address σ) (location : Location σ) : Location σ :=
  if location.object = object then { location with address } else location

def swapLocation (toLocation fromLocation : Location σ) : LocationList σ :=
  let list := erase list toLocation.address
  let list := { list with locations := list.locations.map (move toLocation.object fromLocation.address) }
  assign (removeLocation list fromLocation) fromLocation.address toLocation.object

/-- In a deleted section, or in a module of an architecture that is not compatible. -/
def invalid (compatible : Nat → Bool) (location : Location σ) : Bool :=
  match sections location.address.section_ with
  | some (module, _) => module ≠ 0 && !compatible module
  | none => true

def removeInvalidLocations (compatible : Nat → Bool) : LocationList σ :=
  let test := invalid list.sections compatible
  { list.locations.foldl (fun list location => if test location then erase list location.address else list) list with
    locations := list.locations.filter fun location => !test location }

def compact : LocationList σ :=
  { list with nextId := list.locations.foldl (fun highest location => max highest location.id) 0 }

/-- Modules come and go. An ordered map can be used no more once its keys are in another order. -/
def changeSections (sections : Sections σ) : Option (LocationList σ) :=
  let entries := list.addressToLocation.entries.map fun entry => (key sections entry.2.1, entry.2)
  if sorted : entries.Pairwise fun first second => first.1 < second.1 then
    some { list with sections, addressToLocation := ⟨entries, sorted⟩ }
  else none

inductive Operation (σ : Type) where
  | add (address : Address σ)
  | remove (location : Location σ)
  | swap (toLocation fromLocation : Location σ)
  | removeInvalid (compatible : Nat → Bool)
  | compact
  | changeSections (sections : Sections σ)

def step : Operation σ → Option (LocationList σ)
  | .add address => (addLocation list address).map Prod.fst
  | .remove location => some (removeLocation list location)
  | .swap toLocation fromLocation => some (swapLocation list toLocation fromLocation)
  | .removeInvalid compatible => some (removeInvalidLocations list compatible)
  | .compact => some (compact list)
  | .changeSections sections => changeSections list sections

def run (list : LocationList σ) (operations : List (Operation σ)) : Option (LocationList σ) :=
  operations.foldlM step list

def Meets : Operation σ → Prop
  | .add address => (list.sections address.section_).isSome ∧ list.nextId + 1 < 2 ^ 31
  | .remove location => location ∈ list.locations ∨ ∀ other ∈ list.locations,
      other.object ≠ location.object ∧ key list.sections other.address ≠ key list.sections location.address
  | .swap toLocation fromLocation => toLocation ∈ list.locations ∧ fromLocation ∈ list.locations ∧ toLocation ≠ fromLocation
  | .changeSections sections => (list.addressToLocation.entries.map fun entry => (key sections entry.2.1, entry.2)).Pairwise
      fun first second => first.1 < second.1
  | _ => True

def AllMeet : LocationList σ → List (Operation σ) → Prop
  | _, [] => True
  | list, operation :: rest => Meets list operation ∧ (step list operation).elim True fun next => AllMeet next rest

def entry (location : Location σ) : Key × Address σ × Nat :=
  (key sections location.address, location.address, location.object)

structure Searchable : Prop where
  increasing : (list.locations.map Location.id).Pairwise (· < ·)
  byID : ∀ location ∈ list.locations, findByID list location.id = some location
  distinct : list.locations.Pairwise fun first second => key list.sections first.address ≠ key list.sections second.address
  byAddress : ∀ mapped, mapped ∈ list.addressToLocation.entries ↔ ∃ location ∈ list.locations, entry list.sections location = mapped
  again : ∀ location ∈ list.locations, addLocation list location.address = some (list, location.object, false)

structure Consistent : Prop where
  increasing : (list.locations.map Location.id).Pairwise (· < ·)
  objects : (list.locations.map Location.object).Nodup
  used : ∀ location ∈ list.locations, location.id ≤ list.nextId ∧ location.object < list.nextObject
  byAddress : ∀ mapped, mapped ∈ list.addressToLocation.entries ↔ ∃ location ∈ list.locations, entry list.sections location = mapped

variable {list : LocationList σ} {location other : Location σ}

namespace Consistent

variable (consistent : Consistent list)
include consistent

theorem eq_of_object (member : location ∈ list.locations) (otherIn : other ∈ list.locations)
    (same : location.object = other.object) : location = other :=
  inj_on_of_nodup_map consistent.objects member otherIn same

theorem eq_of_key (member : location ∈ list.locations) (otherIn : other ∈ list.locations)
    (same : key list.sections location.address = key list.sections other.address) : location = other := by
  have first := (consistent.byAddress _).mpr ⟨location, member, rfl⟩
  have second := (consistent.byAddress _).mpr ⟨other, otherIn, rfl⟩
  have equal := list.addressToLocation.eq_of_key_eq first second same
  exact consistent.eq_of_object member otherIn (congrArg (·.2.2) equal)

theorem findByAddress_eq_some_iff (address : Address σ) (object : Nat) : findByAddress list address = some object ↔
    ∃ location ∈ list.locations, key list.sections location.address = key list.sections address ∧ location.object = object := by
  unfold findByAddress
  split
  · next empty => simp [empty]
  · rw [Option.map_eq_some_iff]
    constructor
    · rintro ⟨mapped, found, rfl⟩
      obtain ⟨location, member, is⟩ := (consistent.byAddress _).mp ((find?_eq_some_iff _ _ _).mp found)
      exact ⟨location, member, congrArg Prod.fst is, congrArg (·.2.2) is⟩
    · rintro ⟨location, member, same, rfl⟩
      exact ⟨_, (find?_eq_some_iff _ _ _).mpr ((consistent.byAddress _).mpr ⟨location, member, by rw [entry, same]⟩), rfl⟩

theorem findByID_eq (member : location ∈ list.locations) : findByID list location.id = some location := by
  obtain ⟨front, back, split⟩ := append_of_mem member
  have increasing := consistent.increasing
  rw [split, map_append, pairwise_append, map_cons, pairwise_cons] at increasing
  obtain ⟨-, ⟨behind, -⟩, before⟩ := increasing
  have found := @lowerBound_append _ (fun other : Location σ => other.id < location.id) front (location :: back)
    (fun other inFront => decide_eq_true (before _ (mem_map_of_mem inFront) _ mem_cons_self)) (by
      refine forall_mem_cons.mpr ⟨by simp, fun other inBack => ?_⟩
      exact decide_eq_false (Nat.lt_asymm (behind _ (mem_map_of_mem inBack))))
  unfold findByID
  rw [split, found]
  simp

theorem searchable : Searchable list where
  increasing := consistent.increasing
  byID _ := consistent.findByID_eq
  distinct := by
    have apart := List.Nodup.of_map _ consistent.objects
    refine List.Pairwise.imp_of_mem (fun member otherIn different same => ?_) apart
    exact different (consistent.eq_of_key member otherIn same)
  byAddress := consistent.byAddress
  again location member := by
    have found := (consistent.findByAddress_eq_some_iff location.address location.object).mpr ⟨location, member, rfl, rfl⟩
    rw [addLocation, found]

theorem keep {locations : List (Location σ)} {map : OrderedMap Key (Address σ × Nat)} (kept : locations.Sublist list.locations)
    (byAddress : ∀ mapped, mapped ∈ map.entries ↔ ∃ location ∈ locations, entry list.sections location = mapped) :
    Consistent { list with locations, addressToLocation := map } where
  increasing := consistent.increasing.sublist (kept.map _)
  objects := consistent.objects.sublist (kept.map _)
  used location member := consistent.used location (kept.subset member)
  byAddress := byAddress

theorem addLocation {address : Address σ} (fits : list.nextId + 1 < 2 ^ 31) :
    ∃ next ∈ step list (.add address), Consistent next := by
  rw [step, BreakpointLocationList.addLocation]
  cases found : findByAddress list address with
  | some object => exact ⟨list, rfl, consistent⟩
  | none =>
    have absent : ∀ location ∈ list.locations, key list.sections location.address ≠ key list.sections address := by
      intro location member same
      have found' := (consistent.findByAddress_eq_some_iff address location.object).mpr ⟨location, member, same, rfl⟩
      rw [found] at found'
      cases found'
    have fresh : ∀ mapped ∈ list.addressToLocation.entries, mapped.1 ≠ key list.sections address := by
      intro mapped member
      obtain ⟨location, listed, rfl⟩ := (consistent.byAddress _).mp member
      exact absent location listed
    have empty : list.addressToLocation.find? (key list.sections address) = none := by
      refine Option.eq_none_iff_forall_ne_some.mpr fun value found => ?_
      exact fresh _ ((find?_eq_some_iff _ _ _).mp found) rfl
    refine ⟨_, by rw [create, if_pos fits]; rfl, ?_⟩
    constructor
    · have increasing := consistent.increasing
      rw [assign, map_append, pairwise_append]
      refine ⟨increasing, pairwise_singleton _ _, fun id member last isLast => ?_⟩
      obtain ⟨location, listed, rfl⟩ := mem_map.mp member
      obtain rfl := mem_singleton.mp isLast
      exact Nat.lt_succ_of_le (consistent.used location listed).1
    · rw [assign, map_append, nodup_append]
      refine ⟨consistent.objects, nodup_singleton _, fun object member last isLast => ?_⟩
      obtain ⟨location, listed, rfl⟩ := mem_map.mp member
      obtain rfl := mem_singleton.mp isLast
      exact (consistent.used location listed).2.ne
    · intro location member
      rcases mem_append.mp member with listed | isLast
      · have used := consistent.used location listed
        exact ⟨Nat.le_succ_of_le used.1, Nat.lt_succ_of_lt used.2⟩
      · obtain rfl := mem_singleton.mp isLast
        exact ⟨Nat.le_refl _, Nat.lt_succ_self _⟩
    · intro mapped
      simp only [assign, empty, mem_insert, consistent.byAddress, mem_append, mem_singleton]
      constructor
      · rintro (rfl | ⟨⟨location, listed, rfl⟩, -⟩)
        · exact ⟨_, .inr rfl, rfl⟩
        · exact ⟨location, .inl listed, rfl⟩
      · rintro ⟨location, listed | rfl, rfl⟩
        · exact .inr ⟨⟨location, listed, rfl⟩, absent location listed⟩
        · exact .inl rfl

omit consistent in
theorem eraseP_eq_filter {object : Nat} {locations : List (Location σ)} (distinct : (locations.map Location.object).Nodup) :
    (locations.eraseP fun other => other.object = object) = locations.filter fun other => other.object ≠ object := by
  induction locations with
  | nil => rfl
  | cons first rest ih =>
    obtain ⟨apart, distinct⟩ := nodup_cons.mp distinct
    by_cases same : first.object = object
    · have none_ : ∀ other ∈ rest, decide (other.object ≠ object) = true := by
        rintro other member
        exact decide_eq_true fun equal => apart (same.trans equal.symm ▸ mem_map_of_mem member)
      rw [eraseP_cons_of_pos (by simpa using same), filter_cons_of_neg (by simpa using same), filter_eq_self.mpr none_]
    · simpa [same] using ih distinct

omit consistent in
theorem find?_object {locations : List (Location σ)} (distinct : (locations.map Location.object).Nodup)
    (member : location ∈ locations) : (locations.find? fun other => other.object = location.object) = some location := by
  cases found : locations.find? fun other => other.object = location.object with
  | none => simpa using find?_eq_none.mp found location member
  | some other =>
    have same : other.object = location.object := by simpa using find?_some found
    rw [inj_on_of_nodup_map distinct (mem_of_find?_eq_some found) member same]

theorem removeLocation (meets : Meets list (.remove location)) :
    Consistent (BreakpointLocationList.removeLocation list location) := by
  rw [BreakpointLocationList.removeLocation]
  rcases meets with member | other
  · have found : (erase list location.address).locations.find? _ = _ := find?_object consistent.objects member
    rw [found]
    dsimp only [erase]
    rw [eraseP_eq_filter consistent.objects]
    refine consistent.keep filter_sublist fun mapped => ?_
    simp only [mem_erase, consistent.byAddress, mem_filter, decide_eq_true_eq]
    constructor
    · rintro ⟨⟨⟨other, otherIn, rfl⟩, away⟩, -⟩
      exact ⟨other, ⟨otherIn, fun same => away (by rw [consistent.eq_of_object otherIn member same]; rfl)⟩, rfl⟩
    · rintro ⟨other, ⟨otherIn, different⟩, rfl⟩
      have away : (entry list.sections other).1 ≠ key list.sections location.address := fun same =>
        different (congrArg Location.object (consistent.eq_of_key otherIn member same))
      exact ⟨⟨⟨other, otherIn, rfl⟩, away⟩, away⟩
  · have absent : (erase list location.address).locations.find? (fun other => other.object = location.object) = none :=
      find?_eq_none.mpr fun one member => by simpa using (other one member).1
    rw [absent]
    refine consistent.keep (List.Sublist.refl _) fun mapped => ?_
    rw [mem_erase, consistent.byAddress]
    refine and_iff_left_of_imp ?_
    rintro ⟨one, member, rfl⟩
    exact (other one member).2

theorem swapLocation {toLocation fromLocation : Location σ} (meets : Meets list (.swap toLocation fromLocation)) :
    Consistent (BreakpointLocationList.swapLocation list toLocation fromLocation) := by
  obtain ⟨toIn, fromIn, different⟩ := meets
  have objects : toLocation.object ≠ fromLocation.object := fun same => different (consistent.eq_of_object toIn fromIn same)
  have sameObject : Location.object ∘ move toLocation.object fromLocation.address = Location.object := by
    funext location
    dsimp only [Function.comp, move]
    split <;> rfl
  have sameID : Location.id ∘ move toLocation.object fromLocation.address = Location.id := by
    funext location
    dsimp only [Function.comp, move]
    split <;> rfl
  have moved : ((list.locations.map (move toLocation.object fromLocation.address)).map Location.object).Nodup := by
    rw [map_map, sameObject]
    exact consistent.objects
  have stays : ∀ location : Location σ, location.object ≠ toLocation.object →
      move toLocation.object fromLocation.address location = location := fun location other => if_neg other
  have fromMoved : fromLocation ∈ list.locations.map (move toLocation.object fromLocation.address) :=
    mem_map.mpr ⟨fromLocation, fromIn, stays _ objects.symm⟩
  simp only [BreakpointLocationList.swapLocation, BreakpointLocationList.removeLocation, erase, find?_object moved fromMoved, assign,
    find?_erase_self, Option.elim_none, eraseP_eq_filter moved]
  have kept := (filter_sublist (p := fun other : Location σ => decide (other.object ≠ fromLocation.object))
    (l := list.locations.map (move toLocation.object fromLocation.address)))
  constructor
  · refine List.Pairwise.sublist (kept.map _) ?_
    rw [map_map, sameID]
    exact consistent.increasing
  · exact moved.sublist (kept.map _)
  · intro location member
    obtain ⟨old, listed, rfl⟩ := mem_map.mp (kept.subset member)
    have used := consistent.used old listed
    exact ⟨(congrFun sameID old).trans_le used.1, (congrFun sameObject old).trans_lt used.2⟩
  · intro mapped
    simp only [mem_insert, mem_erase, consistent.byAddress, mem_filter, mem_map, decide_eq_true_eq]
    constructor
    · rintro (rfl | ⟨⟨⟨⟨⟨location, listed, rfl⟩, awayTo⟩, awayFrom⟩, -⟩, -⟩)
      · exact ⟨_, ⟨⟨toLocation, toIn, if_pos rfl⟩, objects⟩, rfl⟩
      · have notTo : location.object ≠ toLocation.object := fun same =>
          awayTo (by rw [consistent.eq_of_object listed toIn same]; rfl)
        have notFrom : location.object ≠ fromLocation.object := fun same =>
          awayFrom (by rw [consistent.eq_of_object listed fromIn same]; rfl)
        exact ⟨location, ⟨⟨location, listed, stays location notTo⟩, notFrom⟩, rfl⟩
    · rintro ⟨_, ⟨⟨location, listed, rfl⟩, notFrom⟩, rfl⟩
      by_cases isTo : location.object = toLocation.object
      · left
        rw [move, if_pos isTo, entry, isTo]
      · rw [stays location isTo] at notFrom ⊢
        have awayTo : (entry list.sections location).1 ≠ key list.sections toLocation.address := fun same =>
          isTo (congrArg Location.object (consistent.eq_of_key listed toIn same))
        have awayFrom : (entry list.sections location).1 ≠ key list.sections fromLocation.address := fun same =>
          notFrom (congrArg Location.object (consistent.eq_of_key listed fromIn same))
        exact .inr ⟨⟨⟨⟨⟨location, listed, rfl⟩, awayTo⟩, awayFrom⟩, awayFrom⟩, awayFrom⟩

omit consistent in
theorem foldl_erase (test : Location σ → Bool) (locations : List (Location σ)) : ∃ map : OrderedMap Key (Address σ × Nat),
    locations.foldl (fun list location => if test location then erase list location.address else list) list =
        { list with addressToLocation := map } ∧
      ∀ mapped, mapped ∈ map.entries ↔ mapped ∈ list.addressToLocation.entries ∧
        ∀ location ∈ locations, test location = true → mapped.1 ≠ key list.sections location.address := by
  induction locations generalizing list with
  | nil => exact ⟨_, rfl, fun mapped => by simp⟩
  | cons first rest ih =>
    rw [foldl_cons]
    by_cases holds : test first = true
    · obtain ⟨map, is, erased⟩ := @ih (erase list first.address)
      refine ⟨map, by rw [if_pos holds, is]; rfl, fun mapped => ?_⟩
      simp [erased, erase, mem_erase, and_assoc, forall_prop_of_true holds]
    · obtain ⟨map, is, erased⟩ := @ih list
      refine ⟨map, by rw [if_neg holds, is], fun mapped => ?_⟩
      simp [erased, forall_prop_of_false holds]

theorem removeInvalidLocations (compatible : Nat → Bool) :
    Consistent (BreakpointLocationList.removeInvalidLocations list compatible) := by
  rw [BreakpointLocationList.removeInvalidLocations]
  obtain ⟨map, is, erased⟩ := @foldl_erase σ list (invalid list.sections compatible) list.locations
  rw [is]
  refine consistent.keep filter_sublist fun mapped => ?_
  rw [erased, consistent.byAddress]
  constructor
  · rintro ⟨⟨location, listed, rfl⟩, away⟩
    refine ⟨location, mem_filter.mpr ⟨listed, ?_⟩, rfl⟩
    rw [Bool.not_eq_true', Bool.eq_false_iff]
    exact fun holds => away location listed holds rfl
  · rintro ⟨location, member, rfl⟩
    obtain ⟨listed, valid⟩ := mem_filter.mp member
    refine ⟨⟨location, listed, rfl⟩, fun other otherIn holds same => ?_⟩
    rw [consistent.eq_of_key listed otherIn same, holds] at valid
    cases valid

omit consistent in
theorem le_highest (locations : List (Location σ)) (highest : Nat) :
    highest ≤ locations.foldl (fun highest location => max highest location.id) highest ∧
      ∀ location ∈ locations, location.id ≤ locations.foldl (fun highest location => max highest location.id) highest := by
  induction locations generalizing highest with
  | nil => simp
  | cons first rest ih =>
    obtain ⟨grows, all⟩ := ih (max highest first.id)
    exact ⟨(Nat.le_max_left _ _).trans grows, forall_mem_cons.mpr ⟨(Nat.le_max_right _ _).trans grows, all⟩⟩

theorem compact : Consistent (BreakpointLocationList.compact list) :=
  { consistent with
    used := fun location member => ⟨(le_highest list.locations 0).2 location member, (consistent.used location member).2⟩ }

theorem changeSections {sections : Sections σ} (meets : Meets list (.changeSections sections)) :
    ∃ next ∈ step list (.changeSections sections), Consistent next := by
  refine ⟨_, dif_pos meets, ?_⟩
  refine { consistent with byAddress := fun mapped => ?_ }
  simp only [mem_map, consistent.byAddress]
  constructor
  · rintro ⟨_, ⟨location, listed, rfl⟩, rfl⟩
    exact ⟨location, listed, rfl⟩
  · rintro ⟨location, listed, rfl⟩
    exact ⟨_, ⟨location, listed, rfl⟩, rfl⟩

theorem step (operation : Operation σ) (meets : Meets list operation) :
    ∃ next ∈ BreakpointLocationList.step list operation, Consistent next :=
  match operation with
  | .add _ => consistent.addLocation meets.2
  | .remove _ => ⟨_, rfl, consistent.removeLocation meets⟩
  | .swap _ _ => ⟨_, rfl, consistent.swapLocation meets⟩
  | .removeInvalid compatible => ⟨_, rfl, consistent.removeInvalidLocations compatible⟩
  | .compact => ⟨_, rfl, consistent.compact⟩
  | .changeSections _ => consistent.changeSections meets

theorem run {operations : List (Operation σ)} (meet : AllMeet list operations) :
    ∃ last ∈ BreakpointLocationList.run list operations, Consistent last := by
  induction operations generalizing list with
  | nil => exact ⟨list, rfl, consistent⟩
  | cons operation rest ih =>
    obtain ⟨next, is, consistent⟩ := consistent.step operation meet.1
    obtain ⟨first, others⟩ := meet
    rw [is] at others
    obtain ⟨last, reached, consistent⟩ := ih consistent others
    refine ⟨last, ?_, consistent⟩
    rw [BreakpointLocationList.run, foldlM_cons, is]
    exact reached

end Consistent

theorem consistent_start : Consistent (start sections) where
  increasing := .nil
  objects := .nil
  used _ member := absurd member not_mem_nil
  byAddress _ := by simp [start, empty]

/-- From the start on the list stays searchable, in each run whose operations meet the condition. -/
theorem searchable_of_allMeet (sections : Sections σ) (operations : List (Operation σ))
    (meet : AllMeet (start sections) operations) : ∃ last ∈ run (start sections) operations, Searchable last := by
  obtain ⟨last, reached, consistent⟩ := (consistent_start sections).run meet
  exact ⟨last, reached, consistent.searchable⟩

def twoModules : Sections Bool := fun second => some (if second then 2 else 1, 4096)

theorem searchable_swapped : ∃ last ∈ run (start twoModules) [.add ⟨false, 0⟩, .add ⟨true, 0⟩,
    .swap ⟨0, 1, false, 0⟩ ⟨1, 2, true, 0⟩, .removeInvalid fun _ => true, .compact, .remove ⟨0, 1, true, 0⟩], Searchable last := by
  refine searchable_of_allMeet twoModules _ ⟨⟨rfl, by decide⟩, ⟨rfl, by decide⟩, ⟨?_, ?_, by decide⟩, trivial, trivial, .inl ?_, trivial⟩
  all_goals decide

/-- A location that was removed is removed again after another one was made at its address; or the second module goes,
and what is left in it is to be removed.
-/
theorem not_searchable :
    (∃ last ∈ run (start twoModules) [.add ⟨false, 0⟩, .remove ⟨0, 1, false, 0⟩, .add ⟨false, 0⟩, .remove ⟨0, 1, false, 0⟩],
      ¬ Searchable last) ∧
    run (start twoModules) [.add ⟨false, 0⟩, .add ⟨true, 0⟩,
      .changeSections fun second => if second then none else twoModules second, .removeInvalid fun _ => true] = none := by
  refine ⟨⟨_, rfl, fun searchable => ?_⟩, rfl⟩
  have mapped := (searchable.byAddress _).mpr ⟨_, mem_cons_self, rfl⟩
  cases mapped

end Lldb.BreakpointLocationList
