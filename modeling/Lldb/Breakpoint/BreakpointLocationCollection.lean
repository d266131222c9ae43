import Mathlib.Data.List.Nodup

/-! `BreakpointLocationCollection`: the owners of a breakpoint site, and the loop that asks them whether to stop
while what they do may change the collection.
-/

set_option autoImplicit false

namespace Lldb

open List

structure BreakpointLocation where
  breakpointID : Int
  id : Int
  deriving DecidableEq, Repr

structure BreakpointLocationCollection where
  locations : List BreakpointLocation
  distinct : locations.Nodup

namespace BreakpointLocationCollection

variable (collection : BreakpointLocationCollection)

def size : Nat := collection.locations.length

def add (location : BreakpointLocation) : BreakpointLocationCollection :=
  if found : location ∈ collection.locations then collection
  else ⟨collection.locations ++ [location],
    nodup_append_comm.mp (nodup_cons.mpr ⟨found, collection.distinct⟩)⟩

def remove (location : BreakpointLocation) : BreakpointLocationCollection :=
  ⟨collection.locations.erase location, collection.distinct.erase location⟩

def getByIndex (i : Nat) : Option BreakpointLocation :=
  collection.locations[i]?

inductive Edit where
  | add (location : BreakpointLocation)
  | remove (location : BreakpointLocation)
  deriving DecidableEq, Repr

def edit (collection : BreakpointLocationCollection) : Edit → BreakpointLocationCollection
  | .add location => collection.add location
  | .remove location => collection.remove location

/-- What the `ShouldStop` of a location does to the collection when it is the `n`-th to be called, and what it returns. -/
abbrev Callbacks := Nat → BreakpointLocation → List Edit × Bool

/-- The locals of `ShouldStop` and the collection. -/
structure Asking where
  collection : BreakpointLocationCollection
  i : Nat
  prevSize : Nat
  shouldStop : Bool

def Asking.Goes (asking : Asking) : Prop := asking.i < asking.prevSize

instance (asking : Asking) : Decidable asking.Goes := inferInstanceAs (Decidable (_ < _))

/-- The `n`-th turn of the loop. Nothing is said of a null location that is asked. -/
def Asking.turn (callbacks : Callbacks) (n : Nat) (asking : Asking) : Asking :=
  if asking.Goes then
    match asking.collection.getByIndex asking.i with
    | none => asking
    | some location =>
        let (edits, stops) := callbacks n location
        let collection := edits.foldl edit asking.collection
        { collection := collection
          i := if asking.prevSize = collection.size then asking.i + 1 else asking.i
          prevSize := collection.size
          shouldStop := asking.shouldStop || stops }
  else asking

/-- The loop of `ShouldStop` before its `n`-th turn, and as it was left from the turn on with which it ends. -/
def asking (callbacks : Callbacks) (owners : BreakpointLocationCollection) : Nat → Asking
  | 0 => ⟨owners, 0, owners.size, false⟩
  | n + 1 => (asking callbacks owners n).turn callbacks n

section Run

variable (callbacks : Callbacks) (owners : BreakpointLocationCollection)

/-- The `n`-th turn is made and calls the `ShouldStop` of the location. -/
def Asks (n : Nat) (location : BreakpointLocation) : Prop :=
  (asking callbacks owners n).Goes ∧
    (asking callbacks owners n).collection.getByIndex (asking callbacks owners n).i = some location

def Stays (location : BreakpointLocation) : Prop :=
  location ∈ owners.locations ∧ ∀ n asked, Asks callbacks owners n asked → .remove location ∉ (callbacks n asked).1

structure AsksEachOnce : Prop where
  ends : ∃ n, ¬ (asking callbacks owners n).Goes
  once : ∀ location, Stays callbacks owners location → ∃! n, Asks callbacks owners n location
  never_null : ∀ n, (asking callbacks owners n).Goes → ∃ location, Asks callbacks owners n location
  stops : ∀ n, ¬ (asking callbacks owners n).Goes →
    ((asking callbacks owners n).shouldStop ↔ ∃ m location, Asks callbacks owners m location ∧ (callbacks m location).2)

def StopsGrowing : Prop :=
  ∃ n, ∀ m ≥ n, (asking callbacks owners m).Goes →
    (asking callbacks owners (m + 1)).collection.size ≤ (asking callbacks owners m).collection.size

def position (n : Nat) (location : BreakpointLocation) : Nat :=
  (asking callbacks owners n).collection.locations.idxOf location

/-- The call leaves the locations that stay on the side of the index on which they were; the one asked is left in
front of it. -/
def KeepsSides (n : Nat) : Prop :=
  ∀ location, Stays callbacks owners location → (position callbacks owners n location ≤ (asking callbacks owners n).i →
      position callbacks owners (n + 1) location < (asking callbacks owners (n + 1)).i) ∧
    ((asking callbacks owners n).i < position callbacks owners n location →
      (asking callbacks owners (n + 1)).i ≤ position callbacks owners (n + 1) location)

end Run

/-! One turn: locations that stay are moved to the front only, and the index to the back. -/

theorem idxOf_erase_le {location removed : BreakpointLocation} (other : removed ≠ location)
    (locations : List BreakpointLocation) : (locations.erase removed).idxOf location ≤ locations.idxOf location := by
  induction locations with
  | nil => exact Nat.le_refl _
  | cons first rest ih =>
    by_cases same : first = removed
    · rw [same, erase_cons_head, idxOf_cons_ne rest other]
      exact Nat.le_succ _
    · rw [erase_cons_tail (by simpa using same)]
      by_cases here : first = location
      · rw [idxOf_cons_eq _ here]
        exact Nat.zero_le _
      · rw [idxOf_cons_ne _ here, idxOf_cons_ne _ here]
        exact Nat.succ_le_succ ih

theorem edit_keeps {collection : BreakpointLocationCollection} {location : BreakpointLocation} {change : Edit}
    (member : location ∈ collection.locations) (kept : change ≠ .remove location) :
    location ∈ (collection.edit change).locations ∧
      (collection.edit change).locations.idxOf location ≤ collection.locations.idxOf location := by
  cases change with
  | add added =>
    by_cases found : added ∈ collection.locations
    · rw [show collection.edit (.add added) = collection from dif_pos found]
      exact ⟨member, Nat.le_refl _⟩
    · have appended : (collection.edit (.add added)).locations = collection.locations ++ [added] :=
        congrArg locations (dif_neg found)
      rw [appended, idxOf_append_of_mem member]
      exact ⟨List.mem_append_left _ member, Nat.le_refl _⟩
  | remove removed =>
    have other : removed ≠ location := fun same => kept (congrArg Edit.remove same)
    exact ⟨(mem_erase_of_ne other.symm).mpr member, idxOf_erase_le other _⟩

theorem edits_keep {collection : BreakpointLocationCollection} {location : BreakpointLocation} {edits : List Edit}
    (member : location ∈ collection.locations) (kept : .remove location ∉ edits) :
    location ∈ (edits.foldl edit collection).locations ∧
      (edits.foldl edit collection).locations.idxOf location ≤ collection.locations.idxOf location := by
  induction edits generalizing collection with
  | nil => exact ⟨member, Nat.le_refl _⟩
  | cons change rest ih =>
    rw [List.mem_cons, not_or] at kept
    obtain ⟨inside, le⟩ := edit_keeps member (Ne.symm kept.1)
    obtain ⟨last, less⟩ := ih inside kept.2
    exact ⟨last, Nat.le_trans less le⟩

section Run

variable {callbacks : Callbacks} {owners : BreakpointLocationCollection} {n : Nat} {location : BreakpointLocation}

theorem turn_stop {current : Asking} (stops : ¬ current.Goes) : current.turn callbacks n = current := if_neg stops

theorem turn_eq {current : Asking} (goes : current.Goes)
    (asked : current.collection.getByIndex current.i = some location) :
    current.turn callbacks n = {
        collection := (callbacks n location).1.foldl edit current.collection
        i := if current.prevSize = ((callbacks n location).1.foldl edit current.collection).size then current.i + 1
          else current.i
        prevSize := ((callbacks n location).1.foldl edit current.collection).size
        shouldStop := current.shouldStop || (callbacks n location).2 } := by
  unfold Asking.turn
  rw [if_pos goes, asked]

theorem prevSize_eq (callbacks : Callbacks) (owners : BreakpointLocationCollection) (n : Nat) :
    (asking callbacks owners n).prevSize = (asking callbacks owners n).collection.size := by
  induction n with
  | zero => rfl
  | succ n ih =>
    unfold asking Asking.turn
    split
    · split
      · exact ih
      · rfl
    · exact ih

theorem exists_asks (goes : (asking callbacks owners n).Goes) : ∃ location, Asks callbacks owners n location := by
  have inside : (asking callbacks owners n).i < (asking callbacks owners n).collection.locations.length := by
    rw [Asking.Goes, prevSize_eq] at goes
    exact goes
  exact ⟨_, goes, getElem?_eq_getElem inside⟩

theorem asking_succ (asks : Asks callbacks owners n location) : asking callbacks owners (n + 1) =
    { collection := (callbacks n location).1.foldl edit (asking callbacks owners n).collection
      i := if (asking callbacks owners n).collection.size =
          ((callbacks n location).1.foldl edit (asking callbacks owners n).collection).size
        then (asking callbacks owners n).i + 1 else (asking callbacks owners n).i
      prevSize := ((callbacks n location).1.foldl edit (asking callbacks owners n).collection).size
      shouldStop := (asking callbacks owners n).shouldStop || (callbacks n location).2 } := by
  rw [asking, turn_eq asks.1 asks.2, prevSize_eq]

theorem asking_stopped (stops : ¬ (asking callbacks owners n).Goes) :
    asking callbacks owners (n + 1) = asking callbacks owners n := turn_stop stops

theorem i_step (callbacks : Callbacks) (owners : BreakpointLocationCollection) (n : Nat) :
    (asking callbacks owners n).i ≤ (asking callbacks owners (n + 1)).i := by
  by_cases goes : (asking callbacks owners n).Goes
  · obtain ⟨asked, asks⟩ := exists_asks goes
    rw [asking_succ asks]
    split
    · exact Nat.le_succ _
    · exact Nat.le_refl _
  · have same := asking_stopped goes
    exact Nat.le_of_eq (congrArg Asking.i same).symm

theorem stays_step (stays : Stays callbacks owners location)
    (member : location ∈ (asking callbacks owners n).collection.locations) :
    location ∈ (asking callbacks owners (n + 1)).collection.locations ∧
      position callbacks owners (n + 1) location ≤ position callbacks owners n location := by
  by_cases goes : (asking callbacks owners n).Goes
  · obtain ⟨asked, asks⟩ := exists_asks goes
    unfold position
    rw [asking_succ asks]
    exact edits_keep member (stays.2 n asked asks)
  · unfold position
    rw [asking_stopped goes]
    exact ⟨member, Nat.le_refl _⟩

/-! Whole runs. -/

theorem i_mono {m : Nat} (le : n ≤ m) : (asking callbacks owners n).i ≤ (asking callbacks owners m).i := by
  induction le with
  | refl => exact Nat.le_refl _
  | @step m _ ih => exact Nat.le_trans ih (i_step callbacks owners m)

variable (stays : Stays callbacks owners location)
include stays

theorem stays_member (n : Nat) : location ∈ (asking callbacks owners n).collection.locations := by
  induction n with
  | zero => exact stays.1
  | succ n ih => exact (stays_step stays ih).1

theorem position_anti {m : Nat} (le : n ≤ m) :
    position callbacks owners m location ≤ position callbacks owners n location := by
  induction le with
  | refl => exact Nat.le_refl _
  | @step m _ ih => exact Nat.le_trans (stays_step stays (stays_member stays m)).2 ih

theorem asks_iff :
    Asks callbacks owners n location ↔ (asking callbacks owners n).i = position callbacks owners n location := by
  have member := stays_member stays n
  have inside := idxOf_lt_length_of_mem member
  constructor
  · rintro ⟨-, asked⟩
    obtain ⟨below, at_⟩ := List.getElem?_eq_some_iff.mp asked
    rw [← at_]
    exact ((asking callbacks owners n).collection.distinct.idxOf_getElem _ below).symm
  · intro same
    have goes : (asking callbacks owners n).Goes := by
      rw [Asking.Goes, prevSize_eq, same]
      exact inside
    refine ⟨goes, ?_⟩
    rw [same]
    exact getElem?_idxOf member

omit stays

/-- A run that keeps the sides has asked the locations in front of the index once, and those behind it never. -/
theorem asked_once (keeps : ∀ n, (asking callbacks owners n).Goes → KeepsSides callbacks owners n)
    (stays : Stays callbacks owners location) (n : Nat) :
    (position callbacks owners n location < (asking callbacks owners n).i →
      ∃ m < n, Asks callbacks owners m location ∧ ∀ k < n, Asks callbacks owners k location → k = m) ∧
    ((asking callbacks owners n).i ≤ position callbacks owners n location →
      ∀ k < n, ¬ Asks callbacks owners k location) := by
  induction n with
  | zero => exact ⟨fun before => absurd before (Nat.not_lt_zero _), fun _ k before => absurd before (Nat.not_lt_zero _)⟩
  | succ n ih =>
    have earlier {k : Nat} (before : k < n + 1) (other : ¬ Asks callbacks owners n location)
        (asks : Asks callbacks owners k location) : k < n := by
      rcases Nat.lt_succ_iff_lt_or_eq.mp before with less | rfl
      · exact less
      · exact absurd asks other
    have extend (other : ¬ Asks callbacks owners n location) :
        (∃ m < n, Asks callbacks owners m location ∧ ∀ k < n, Asks callbacks owners k location → k = m) →
          ∃ m < n + 1, Asks callbacks owners m location ∧ ∀ k < n + 1, Asks callbacks owners k location → k = m := by
      rintro ⟨m, less, asks, only⟩
      exact ⟨m, Nat.lt_succ_of_lt less, asks, fun k before again => only k (earlier before other again) again⟩
    by_cases goes : (asking callbacks owners n).Goes
    · obtain ⟨front, behind⟩ := keeps n goes location stays
      rcases Nat.lt_trichotomy (position callbacks owners n location) (asking callbacks owners n).i with
        passed | here | ahead
      · have other : ¬ Asks callbacks owners n location := fun asks => by
          have same := (asks_iff stays).mp asks
          omega
        have next := front (by omega)
        exact ⟨fun _ => extend other (ih.1 passed), fun back => absurd next (Nat.not_lt.mpr back)⟩
      · have asks : Asks callbacks owners n location := (asks_iff stays).mpr here.symm
        have never := ih.2 (Nat.le_of_eq here.symm)
        have next := front (Nat.le_of_eq here)
        refine ⟨fun _ => ⟨n, Nat.lt_succ_self n, asks, fun k before again => ?_⟩,
          fun back => absurd next (Nat.not_lt.mpr back)⟩
        by_contra different
        exact never k (by omega) again
      · have other : ¬ Asks callbacks owners n location := fun asks => by
          have same := (asks_iff stays).mp asks
          omega
        have next := behind ahead
        exact ⟨fun back => absurd next (Nat.not_le.mpr back),
          fun _ k before again => ih.2 (by omega) k (earlier before other again) again⟩
    · have other : ¬ Asks callbacks owners n location := fun asks => goes asks.1
      have same : position callbacks owners (n + 1) location = position callbacks owners n location := by
        unfold position
        rw [asking_stopped goes]
      rw [asking_stopped goes, same]
      exact ⟨fun passed => extend other (ih.1 passed),
        fun ahead k before again => ih.2 ahead k (earlier before other again) again⟩

theorem stopped_after {m : Nat} (stops : ¬ (asking callbacks owners n).Goes) (le : n ≤ m) :
    ¬ (asking callbacks owners m).Goes := by
  induction le with
  | refl => exact stops
  | step _ ih =>
    rw [asking_stopped ih]
    exact ih

/-- While the collection does not grow, a turn brings the index and the size closer to each other. -/
theorem ends_of_stopsGrowing (stops : StopsGrowing callbacks owners) : ∃ n, ¬ (asking callbacks owners n).Goes := by
  obtain ⟨start, shrinks⟩ := stops
  have within (distance : Nat) : ∀ n ≥ start, (asking callbacks owners n).collection.size ≤
      (asking callbacks owners n).i + distance → ∃ m, ¬ (asking callbacks owners m).Goes := by
    induction distance with
    | zero =>
      intro n _ near
      refine ⟨n, ?_⟩
      rw [Asking.Goes, prevSize_eq]
      omega
    | succ distance ih =>
      intro n later near
      by_cases goes : (asking callbacks owners n).Goes
      · obtain ⟨asked, asks⟩ := exists_asks goes
        have less := shrinks n later goes
        apply ih (n + 1) (by omega)
        rw [asking_succ asks] at less ⊢
        dsimp only at less ⊢
        split <;> omega
      · exact ⟨n, goes⟩
  exact within (asking callbacks owners start).collection.size start (Nat.le_refl _) (Nat.le_add_left ..)

theorem shouldStop_iff (callbacks : Callbacks) (owners : BreakpointLocationCollection) (n : Nat) :
    (asking callbacks owners n).shouldStop ↔
      ∃ m < n, ∃ location, Asks callbacks owners m location ∧ (callbacks m location).2 := by
  induction n with
  | zero => exact ⟨nofun, fun ⟨m, before, _⟩ => absurd before (Nat.not_lt_zero m)⟩
  | succ n ih =>
    constructor
    · intro stops
      by_cases goes : (asking callbacks owners n).Goes
      · obtain ⟨asked, asks⟩ := exists_asks goes
        rw [asking_succ asks, Bool.or_eq_true] at stops
        rcases stops with before | now
        · obtain ⟨m, less, found⟩ := ih.mp before
          exact ⟨m, Nat.lt_succ_of_lt less, found⟩
        · exact ⟨n, Nat.lt_succ_self n, asked, asks, now⟩
      · rw [asking_stopped goes] at stops
        obtain ⟨m, less, found⟩ := ih.mp stops
        exact ⟨m, Nat.lt_succ_of_lt less, found⟩
    · rintro ⟨m, before, location, asks, stops⟩
      by_cases goes : (asking callbacks owners n).Goes
      · obtain ⟨asked, now⟩ := exists_asks goes
        rw [asking_succ now, Bool.or_eq_true]
        rcases Nat.lt_succ_iff_lt_or_eq.mp before with less | rfl
        · exact .inl (ih.mpr ⟨m, less, location, asks, stops⟩)
        · obtain rfl : location = asked := Option.some.inj (asks.2.symm.trans now.2)
          exact .inr stops
      · rw [asking_stopped goes]
        rcases Nat.lt_succ_iff_lt_or_eq.mp before with less | rfl
        · exact ih.mpr ⟨m, less, location, asks, stops⟩
        · exact absurd asks.1 goes

/-- A location in front of the index is not asked again, and one that is passed over never. -/
theorem keepsSides_of_once
    (once : ∀ location, Stays callbacks owners location → ∃! n, Asks callbacks owners n location) (n : Nat) :
    KeepsSides callbacks owners n := by
  intro location stays
  have later := i_step callbacks owners n
  have closer := (stays_step stays (stays_member stays n)).2
  obtain ⟨m, asks, only⟩ := once location stays
  constructor
  · intro front
    by_contra behind
    have now : Asks callbacks owners n location := (asks_iff stays).mpr (by omega)
    have again : Asks callbacks owners (n + 1) location := (asks_iff stays).mpr (by omega)
    have first := only n now
    have second := only (n + 1) again
    omega
  · intro behind
    by_contra front
    have place := (asks_iff stays).mp asks
    rcases Nat.lt_or_ge n m with after | before
    · have index : (asking callbacks owners (n + 1)).i ≤ (asking callbacks owners m).i := i_mono after
      have moved := position_anti stays (show n + 1 ≤ m from after)
      omega
    · have index : (asking callbacks owners m).i ≤ (asking callbacks owners n).i := i_mono before
      have moved := position_anti stays before
      omega

end Run

theorem asksEachOnce_iff (callbacks : Callbacks) (owners : BreakpointLocationCollection) :
    AsksEachOnce callbacks owners ↔ StopsGrowing callbacks owners ∧
      ∀ n, (asking callbacks owners n).Goes → KeepsSides callbacks owners n := by
  constructor
  · intro each
    obtain ⟨last, ended⟩ := each.ends
    exact ⟨⟨last, fun m later goes => absurd goes (stopped_after ended later)⟩,
      fun n _ => keepsSides_of_once each.once n⟩
  · rintro ⟨growing, keeps⟩
    obtain ⟨last, ended⟩ := ends_of_stopsGrowing growing
    refine ⟨⟨last, ended⟩, fun location stays => ?_, fun n goes => exists_asks goes, fun n stops => ?_⟩
    · have inside := idxOf_lt_length_of_mem (stays_member stays last)
      rw [Asking.Goes, prevSize_eq] at ended
      obtain ⟨m, -, asks, only⟩ := (asked_once keeps stays last).1 (Nat.lt_of_lt_of_le inside (Nat.not_lt.mp ended))
      refine ⟨m, asks, fun k again => only k ?_ again⟩
      by_contra late
      have stopped : ¬ (asking callbacks owners last).Goes := by
        rw [Asking.Goes, prevSize_eq]
        exact ended
      exact stopped_after stopped (Nat.not_lt.mp late) again.1
    · rw [shouldStop_iff]
      constructor
      · rintro ⟨m, -, found⟩
        exact ⟨m, found⟩
      · rintro ⟨m, location, asks, stopsHere⟩
        refine ⟨m, ?_, location, asks, stopsHere⟩
        by_contra late
        exact stopped_after stops (Nat.not_lt.mp late) asks.1

def twoOwners : BreakpointLocationCollection := ⟨[⟨1, 1⟩, ⟨2, 1⟩], by decide⟩

/-- The first of two owners removes the second one when it is asked, and is asked again. -/
def removesSecond : Callbacks := fun n _ => (if n = 0 then [.remove ⟨2, 1⟩] else [], false)

theorem not_asksEachOnce : ¬ ∀ (callbacks : Callbacks) (owners : BreakpointLocationCollection),
    AsksEachOnce callbacks owners := by
  intro always
  have stays : Stays removesSecond twoOwners ⟨1, 1⟩ := by
    refine ⟨by decide, fun n _ _ removed => ?_⟩
    change Edit.remove ⟨1, 1⟩ ∈ (if n = 0 then [Edit.remove ⟨2, 1⟩] else []) at removed
    split at removed
    · exact absurd removed (by decide)
    · exact absurd removed not_mem_nil
  obtain ⟨n, -, only⟩ := (always removesSecond twoOwners).once ⟨1, 1⟩ stays
  have first := only 0 ⟨by decide, rfl⟩
  have second := only 1 ⟨by decide, rfl⟩
  omega

end BreakpointLocationCollection

end Lldb
