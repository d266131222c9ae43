import Lldb.Library.HalfOpen
import Lldb.SymbolFile.DWARFDebugArangeSet

/-! What adding descriptors to a set and compacting it leaves.

The descriptors are read as intervals; nothing here uses a section.
-/

set_option autoImplicit false

namespace Lldb

open Library

namespace ArangeDescriptor

variable (descriptor : ArangeDescriptor)

def interval : HalfOpen Nat where
  first := descriptor.address
  last := descriptor.address + descriptor.length
  ordered := Nat.le_add_right _ _

def ofInterval (interval : HalfOpen Nat) : ArangeDescriptor := ⟨interval.first, interval.last - interval.first⟩

theorem ofInterval_interval : ofInterval descriptor.interval = descriptor := by
  simp [ofInterval, interval]

def Unwrapped : Prop := descriptor.address + descriptor.length < 2 ^ 64

theorem endAddress_eq {descriptor : ArangeDescriptor} (unwrapped : descriptor.Unwrapped) :
    descriptor.endAddress = descriptor.address + descriptor.length := Nat.mod_eq_of_lt unwrapped

end ArangeDescriptor

namespace DWARFDebugArangeSet

open ArangeDescriptor HalfOpen

structure Ordered (descriptors : List ArangeDescriptor) : Prop where
  sorted : descriptors.Pairwise fun earlier later => earlier.address < later.address
  unwrapped : ∀ descriptor ∈ descriptors, descriptor.Unwrapped

/-- Descriptors that are as ordered as before, with the extent of a range more. -/
structure Extended (range : ArangeDescriptor) (descriptors next : List ArangeDescriptor) : Prop where
  ordered : Ordered next
  sameExtent : SameExtent ((range :: descriptors).map interval) (next.map interval)

variable {range found : ArangeDescriptor} {front back : List ArangeDescriptor}

theorem Extended.insert (unwrapped : range.Unwrapped) (ordered : Ordered (front ++ back))
    (before : ∀ descriptor ∈ front, descriptor.address < range.address)
    (behind : ∀ descriptor ∈ back, range.address < descriptor.address) :
    Extended range (front ++ back) (front ++ range :: back) where
  ordered := by
    obtain ⟨first, second, across⟩ := List.pairwise_append.mp ordered.sorted
    constructor
    · refine List.pairwise_append.mpr
        ⟨first, List.pairwise_cons.mpr ⟨behind, second⟩, fun earlier early later late => ?_⟩
      rcases List.mem_cons.mp late with rfl | late
      · exact before earlier early
      · exact across earlier early later late
    · intro descriptor member
      rcases List.mem_cons.mp (List.perm_middle.mem_iff.mp member) with rfl | member
      · exact unwrapped
      · exact ordered.unwrapped descriptor member
  sameExtent := .of_perm (List.perm_middle.symm.map _)

theorem Extended.replace {joined : ArangeDescriptor} (unwrapped : joined.Unwrapped)
    (ordered : Ordered (front ++ found :: back))
    (before : ∀ descriptor ∈ front, descriptor.address < joined.address) (least : joined.address ≤ found.address)
    (same : SameExtent [range.interval, found.interval] [joined.interval]) :
    Extended range (front ++ found :: back) (front ++ joined :: back) where
  ordered := by
    obtain ⟨first, second, across⟩ := List.pairwise_append.mp ordered.sorted
    obtain ⟨behind, second⟩ := List.pairwise_cons.mp second
    constructor
    · refine List.pairwise_append.mpr ⟨first, List.pairwise_cons.mpr ⟨fun later late => ?_, second⟩,
        fun earlier early later late => ?_⟩
      · exact least.trans_lt (behind later late)
      · rcases List.mem_cons.mp late with rfl | late
        · exact before earlier early
        · exact across earlier early later (List.mem_cons_of_mem _ late)
    · intro descriptor member
      rcases List.mem_append.mp member with member | member
      · exact ordered.unwrapped descriptor (List.mem_append_left _ member)
      · rcases List.mem_cons.mp member with rfl | member
        · exact unwrapped
        · exact ordered.unwrapped descriptor (List.mem_append_right _ (List.mem_cons_of_mem _ member))
  sameExtent := by
    -- The range is brought to the descriptor found, and both are replaced.
    have moved : ((range :: (front ++ found :: back)).map interval).Perm
        ([range.interval, found.interval] ++ (front ++ back).map interval) :=
      ((List.perm_middle.cons range).map interval)
    have replaced : ((front ++ joined :: back).map interval).Perm ([joined.interval] ++ (front ++ back).map interval) :=
      List.perm_middle.map interval
    exact (SameExtent.of_perm moved).trans ((same.append (.refl _)).trans (SameExtent.of_perm replaced).symm)

theorem sameExtent_of_join {current next joined : ArangeDescriptor} (order : current.address ≤ next.address)
    (touch : next.address ≤ current.address + current.length) (first : joined.address = current.address)
    (last : joined.address + joined.length = max (current.address + current.length) (next.address + next.length)) :
    SameExtent [current.interval, next.interval] [joined.interval] := by
  have same : joined.interval = current.interval.join next.interval := by
    simp [interval, HalfOpen.join, first, ← last]
  rw [same]
  exact .join order touch

theorem sub_wrapped {address last : Nat} (order : address ≤ last) (small : last < 2 ^ 64) :
    (last + 2 ^ 64 - address) % 2 ^ 64 = last - address := by omega

theorem Extended.joinBehind {size : Nat} (ordered : Ordered (front ++ found :: back))
    (before : ∀ descriptor ∈ front, descriptor.address < range.address) (order : range.address ≤ found.address)
    (touch : found.address ≤ range.address + range.length) (unwrapped : range.address + size < 2 ^ 64)
    (last : range.address + size = max (range.address + range.length) (found.address + found.length)) :
    Extended range (front ++ found :: back) (front ++ ⟨range.address, size⟩ :: back) :=
  .replace unwrapped ordered before order (sameExtent_of_join order touch rfl last)

theorem Extended.joinBefore {size : Nat} (ordered : Ordered (front ++ found :: back))
    (order : found.address ≤ range.address)
    (touch : range.address ≤ found.address + found.length) (unwrapped : found.address + size < 2 ^ 64)
    (last : found.address + size = max (found.address + found.length) (range.address + range.length)) :
    Extended range (front ++ found :: back) (front ++ ⟨found.address, size⟩ :: back) := by
  refine .replace unwrapped ordered (fun descriptor member => ?_) le_rfl ?_
  · exact (List.pairwise_append.mp ordered.sorted).2.2 descriptor member found List.mem_cons_self
  · exact (SameExtent.of_perm (List.Perm.swap _ _ _)).trans (sameExtent_of_join order touch rfl last)

theorem insertIdx_length (front back : List ArangeDescriptor) (range : ArangeDescriptor) :
    (front ++ back).insertIdx front.length range = front ++ range :: back := by
  induction front with
  | nil => exact List.insertIdx_zero
  | cons first front ih => exact List.insertIdx_succ_cons.trans (congrArg (first :: ·) ih)

theorem addDescriptor_behind {front : List ArangeDescriptor} (unwrapped : range.Unwrapped) (ordered : Ordered front)
    (before : ∀ descriptor ∈ front, descriptor.address < range.address) :
    Extended range front (addDescriptor range front) := by
  have position := @lowerBound_append _ (fun other => decide (other.address < range.address)) front []
    (fun descriptor member => decide_eq_true (before descriptor member)) nofun
  have nothing (descriptor) (member : descriptor ∈ ([] : List ArangeDescriptor)) :
      range.address < descriptor.address :=
    absurd member List.not_mem_nil
  have inserted := @Extended.insert range front [] unwrapped (by rwa [List.append_nil]) before nothing
  have ends := endAddress_eq unwrapped
  rw [List.append_nil] at inserted position
  rw [addDescriptor, position, List.getElem?_eq_none le_rfl]
  rcases List.eq_nil_or_concat front with rfl | ⟨front, last, rfl⟩
  · exact inserted
  · rw [List.concat_eq_append] at ordered before inserted ⊢
    have lastUnwrapped := ordered.unwrapped last (List.mem_append_right _ List.mem_cons_self)
    have lastEnds := endAddress_eq lastUnwrapped
    have less := before last (List.mem_append_right _ List.mem_cons_self)
    unfold Unwrapped at unwrapped lastUnwrapped
    rw [List.getLast?_concat, List.dropLast_concat]
    dsimp only
    split_ifs with apart adjoin
    · exact inserted
    · exact .joinBefore ordered less.le (by omega) (by omega) (by omega)
    · exact .joinBefore ordered less.le (by omega) (by omega) (by omega)

/-- The first descriptor that does not begin below the range is `found`. -/
theorem addDescriptor_found {front rest : List ArangeDescriptor} {found : ArangeDescriptor}
    (unwrapped : range.Unwrapped) (ordered : Ordered (front ++ found :: rest))
    (before : ∀ descriptor ∈ front, descriptor.address < range.address) (order : range.address ≤ found.address) :
    Extended range (front ++ found :: rest) (addDescriptor range (front ++ found :: rest)) := by
  have later := (List.pairwise_cons.mp (List.pairwise_append.mp ordered.sorted).2.1).1
  have behind : ∀ descriptor ∈ found :: rest, range.address ≤ descriptor.address :=
    List.forall_mem_cons.mpr ⟨order, fun other member => order.trans (later other member).le⟩
  have position := @lowerBound_append _ (fun other => decide (other.address < range.address)) front (found :: rest)
    (fun descriptor member => decide_eq_true (before descriptor member))
    (fun descriptor member => decide_eq_false (Nat.not_lt.mpr (behind descriptor member)))
  have ends := endAddress_eq unwrapped
  have foundUnwrapped := ordered.unwrapped found (List.mem_append_right _ List.mem_cons_self)
  have foundEnds := endAddress_eq foundUnwrapped
  have inserted (less : range.address < found.address) := Extended.insert unwrapped ordered before
    (List.forall_mem_cons.mpr ⟨less, fun other member => less.trans (later other member)⟩)
  unfold Unwrapped at unwrapped foundUnwrapped
  rw [addDescriptor, position, List.getElem?_append_right le_rfl, Nat.sub_self, List.getElem?_cons_zero]
  simp only [List.set_append_right _ _ le_rfl, Nat.sub_self]
  split_ifs with less apart adjoin same
  · rw [insertIdx_length]
    exact inserted less
  · exact .joinBehind ordered before order (by omega) (by omega) (by omega)
  · exact .joinBehind ordered before order (by omega) (by omega) (by omega)
  · exact .joinBefore ordered same.ge (by omega) (by omega) (by omega)
  · exact absurd (Nat.le_antisymm order (Nat.not_lt.mp less)) same

variable {descriptors ranges : List ArangeDescriptor}

theorem addDescriptor_extended (unwrapped : range.Unwrapped)
    (ordered : Ordered descriptors) : Extended range descriptors (addDescriptor range descriptors) := by
  obtain ⟨front, back, rfl, before, behind⟩ :=
    @exists_parts _ (fun other : ArangeDescriptor => decide (other.address < range.address)) descriptors
      (ordered.sorted.imp fun {earlier later} less small => decide_eq_true (less.trans (of_decide_eq_true small)))
  replace before (descriptor) (member : descriptor ∈ front) := of_decide_eq_true (before descriptor member)
  cases back with
  | nil =>
    rw [List.append_nil] at ordered ⊢
    exact addDescriptor_behind unwrapped ordered before
  | cons found rest =>
    have order := not_lt.mp (of_decide_eq_false (behind found List.mem_cons_self))
    exact addDescriptor_found unwrapped ordered before order

/-- A set that was empty, after the calls of `AddDescriptor`. -/
def addDescriptors (ranges : List ArangeDescriptor) : List ArangeDescriptor :=
  ranges.foldl (fun descriptors range => addDescriptor range descriptors) []

theorem foldl_addDescriptor {ranges descriptors : List ArangeDescriptor} (unwrapped : ∀ range ∈ ranges, range.Unwrapped)
    (ordered : Ordered descriptors) :
    Ordered (ranges.foldl (fun descriptors range => addDescriptor range descriptors) descriptors) ∧
      SameExtent ((ranges ++ descriptors).map interval)
        ((ranges.foldl (fun descriptors range => addDescriptor range descriptors) descriptors).map interval) := by
  induction ranges generalizing descriptors with
  | nil => exact ⟨ordered, .refl _⟩
  | cons range ranges ih =>
    have extended := addDescriptor_extended (unwrapped range List.mem_cons_self) ordered
    obtain ⟨final, same⟩ := ih (fun other member => unwrapped other (List.mem_cons_of_mem _ member)) extended.ordered
    refine ⟨final, .trans ?_ same⟩
    have moved : ((range :: ranges ++ descriptors).map interval).Perm
        (ranges.map interval ++ (range :: descriptors).map interval) := by
      rw [← List.map_append]
      exact List.perm_middle.symm.map interval
    have split : (ranges ++ addDescriptor range descriptors).map interval =
        ranges.map interval ++ (addDescriptor range descriptors).map interval := List.map_append
    rw [split]
    exact (SameExtent.of_perm moved).trans (.append (.refl _) extended.sameExtent)

theorem addDescriptors_extent (unwrapped : ∀ range ∈ ranges, range.Unwrapped) :
    Ordered (addDescriptors ranges) ∧ SameExtent (ranges.map interval) ((addDescriptors ranges).map interval) := by
  have all := @foldl_addDescriptor ranges [] unwrapped ⟨.nil, fun _ member => absurd member List.not_mem_nil⟩
  rw [List.append_nil] at all
  exact all

/-! Compacting. -/

theorem endAddress_sub_wrapped {address last : Nat} (small : address < 2 ^ 64) (inside : last < 2 ^ 64) :
    (⟨address, (last + 2 ^ 64 - address) % 2 ^ 64⟩ : ArangeDescriptor).endAddress = last := by
  unfold endAddress
  dsimp only
  omega

/-- Behind the last index the loop compares with the first descriptor, until it erases the end of the vector. -/
theorem compactLoop_wrapped {index : Nat} (last : index + 1 = 2 ^ 32) {descriptors : List ArangeDescriptor}
    {current first : ArangeDescriptor} (atIndex : descriptors[index]? = some current)
    (atFirst : descriptors[0]? = some first) (small : current.address < 2 ^ 64)
    (touch : first.address ≤ current.endAddress) (fuel : Nat) : compactLoop fuel index descriptors = none := by
  induction fuel generalizing descriptors current with
  | zero => rfl
  | succ fuel ih =>
    have next : DebugLine.uint32 (index + 1) = 0 := by
      rw [last]
      rfl
    have some_ : 0 < descriptors.length := (List.getElem?_eq_some_iff.mp atFirst).1
    rw [compactLoop, next, atIndex, atFirst]
    dsimp only
    split_ifs with inside
    · have least : current.endAddress < 2 ^ 64 := Nat.mod_lt _ (by decide)
      have other : first.endAddress < 2 ^ 64 := Nat.mod_lt _ (by decide)
      refine @ih _ ⟨current.address,
        (max current.endAddress first.endAddress + 2 ^ 64 - current.address) % 2 ^ 64⟩ ?_ ?_ small ?_
      · rw [List.getElem?_eraseIdx_of_lt (Nat.lt_succ_self _), List.getElem?_set_self (Nat.lt_of_succ_lt inside)]
      · rw [List.getElem?_eraseIdx_of_lt (Nat.succ_pos _), List.getElem?_set_ne (by omega), atFirst]
      · rw [endAddress_sub_wrapped small (max_lt least other)]
        exact touch.trans (le_max_left _ _)
    · rfl

theorem endAddress_ofInterval {interval : HalfOpen Nat} (inside : interval.last < 2 ^ 64) :
    (ofInterval interval).endAddress = interval.last := by
  have ordered := interval.ordered
  rw [endAddress, ofInterval, Nat.add_sub_cancel' ordered, Nat.mod_eq_of_lt inside]

theorem getElem?_ofInterval (front : List (HalfOpen Nat)) (current : HalfOpen Nat) (rest : List (HalfOpen Nat)) :
    ((front ++ current :: rest).map ofInterval)[front.length]? = some (ofInterval current) := by
  simp

theorem set_eraseIdx_ofInterval (front : List (HalfOpen Nat)) {current following : HalfOpen Nat}
    (rest : List (HalfOpen Nat)) (currentInside : current.last < 2 ^ 64) (followingInside : following.last < 2 ^ 64) :
    (((front ++ current :: following :: rest).map ofInterval).set front.length ⟨(ofInterval current).address,
      (max current.last following.last + 2 ^ 64 - (ofInterval current).address) % 2 ^ 64⟩).eraseIdx (front.length + 1) =
      (front ++ current.join following :: rest).map ofInterval := by
  have size : (max current.last following.last + 2 ^ 64 - (ofInterval current).address) % 2 ^ 64 =
      max current.last following.last - current.first :=
    sub_wrapped (current.ordered.trans (le_max_left _ _)) (max_lt currentInside followingInside)
  have same : front.length = (front.map ofInterval).length := by rw [List.length_map]
  rw [size, List.map_append, List.map_append, same, List.set_append_right _ _ le_rfl, Nat.sub_self,
    List.eraseIdx_append_of_length_le (Nat.le_add_right _ 1), Nat.add_sub_cancel_left]
  rfl

theorem compactLoop_round {front : List (HalfOpen Nat)} {current following : HalfOpen Nat} {rest : List (HalfOpen Nat)}
    (index : front.length + 1 < 2 ^ 32) (currentInside : current.last < 2 ^ 64)
    (followingInside : following.last < 2 ^ 64)
    (fuel : Nat) :
    compactLoop (fuel + 1) front.length ((front ++ current :: following :: rest).map ofInterval) =
      if following.first ≤ current.last then
        compactLoop fuel front.length ((front ++ current.join following :: rest).map ofInterval)
      else compactLoop fuel (front ++ [current]).length ((front ++ [current] ++ following :: rest).map ofInterval) := by
  have next : DebugLine.uint32 (front.length + 1) = front.length + 1 := Nat.mod_eq_of_lt index
  have inside : front.length + 1 < ((front ++ current :: following :: rest).map ofInterval).length := by
    rw [List.length_map, List.length_append, List.length_cons, List.length_cons]
    omega
  have atNext := getElem?_ofInterval (front ++ [current]) following rest
  rw [← List.append_cons, List.length_append, List.length_singleton] at atNext
  rw [compactLoop, next, if_pos inside, getElem?_ofInterval, atNext]
  dsimp only
  rw [endAddress_ofInterval currentInside, endAddress_ofInterval followingInside, if_pos inside,
    set_eraseIdx_ofInterval front rest currentInside followingInside, ← List.append_cons, List.length_append]
  rfl

/-- From an index on the descriptors are merged, if the index never leaves its type. -/
theorem compactLoop_eq {front : List (HalfOpen Nat)} {current : HalfOpen Nat} {rest : List (HalfOpen Nat)}
    (index : front.length < 2 ^ 32) (unwrapped : ∀ interval ∈ current :: rest, interval.last < 2 ^ 64)
    (before : ∀ interval ∈ front, interval.first ≤ current.last) {fuel : Nat} (enough : rest.length < fuel) :
    compactLoop fuel front.length ((front ++ current :: rest).map ofInterval) =
      if front.length + (merge current rest).length < 2 ^ 32 then some ((front ++ merge current rest).map ofInterval)
      else none := by
  induction fuel generalizing front current rest with
  | zero => exact absurd enough (Nat.not_lt_zero _)
  | succ fuel ih =>
    have currentInside := unwrapped current List.mem_cons_self
    by_cases last : front.length + 1 = 2 ^ 32
    · have merged := merge_pos current rest
      rw [if_neg (by omega)]
      obtain ⟨first, others, rfl⟩ := List.exists_cons_of_length_pos (l := front) (by omega)
      refine @compactLoop_wrapped _ last _ _ (ofInterval first) (getElem?_ofInterval _ current rest) rfl
        (current.ordered.trans_lt currentInside) ?_ _
      rw [endAddress_ofInterval currentInside]
      exact before first List.mem_cons_self
    · cases rest with
      | nil =>
        have next : DebugLine.uint32 (front.length + 1) = front.length + 1 := Nat.mod_eq_of_lt (by omega)
        rw [compactLoop, next, if_neg (by simp), merge, if_pos (by rw [List.length_singleton]; omega)]
      | cons following rest =>
        obtain ⟨followingInside, others⟩ := List.forall_mem_cons.mp (List.forall_mem_cons.mp unwrapped).2
        rw [compactLoop_round (by omega) currentInside followingInside, merge]
        by_cases touch : following.first ≤ current.last
        · rw [if_pos touch, if_pos touch]
          exact ih index (List.forall_mem_cons.mpr ⟨max_lt currentInside followingInside, others⟩)
            (fun other member => (before other member).trans (le_max_left _ _)) (Nat.lt_of_succ_lt_succ enough)
        · have gap : current.last < following.last := (not_le.mp touch).trans_le following.ordered
          have behind (other) (member : other ∈ front ++ [current]) : other.first ≤ following.last := by
            rcases List.mem_append.mp member with member | member
            · exact (before other member).trans gap.le
            · cases List.mem_singleton.mp member
              exact current.ordered.trans gap.le
          rw [if_neg touch, if_neg touch, ih (by rw [List.length_append, List.length_singleton]; omega)
            (List.forall_mem_cons.mpr ⟨followingInside, others⟩) behind (Nat.lt_of_succ_lt_succ enough),
            List.append_assoc, List.length_append, List.length_singleton, Nat.add_assoc,
            Nat.add_comm 1]
          rfl

theorem compact_eq (ordered : Ordered descriptors) :
    ∃ merged, Gapped merged ∧ SameExtent (descriptors.map interval) merged ∧
      compact descriptors = if merged.length < 2 ^ 32 then some (merged.map ofInterval) else none := by
  cases descriptors with
  | nil => exact ⟨[], .nil, .refl _, rfl⟩
  | cons first rest =>
    refine ⟨merge first.interval (rest.map interval), merge_gapped _ _, merge_sameExtent ?_, ?_⟩
    · rw [← List.map_cons]
      exact List.pairwise_map.mpr (ordered.sorted.imp le_of_lt)
    · have same : ([] ++ first.interval :: rest.map interval).map ofInterval = first :: rest := by
        rw [List.nil_append, ← List.map_cons, List.map_map]
        exact (List.map_congr_left fun descriptor _ => ofInterval_interval descriptor).trans (List.map_id _)
      have all := @compactLoop_eq [] first.interval (rest.map interval) (by decide) ?_
        (fun _ member => absurd member List.not_mem_nil) (rest.length + 2) (by rw [List.length_map]; omega)
      · rw [same, List.length_nil, zero_add] at all
        exact all
      · rw [← List.map_cons]
        exact List.forall_mem_map.mpr ordered.unwrapped

/-- Where a piece of the union begins: no range that begins before reaches there. -/
def pieces (ranges : List ArangeDescriptor) : Finset Nat :=
  (ranges.map (·.address)).toFinset.filter fun start =>
    ∀ range ∈ ranges, range.address < start → range.address + range.length < start

theorem coe_pieces (ranges : List ArangeDescriptor) : (pieces ranges : Set Nat) = starts (ranges.map interval) := by
  ext start
  simp [pieces, starts, firsts, reached, interval]

/-- Sorted, with gaps between them, and with the addresses of the ranges. -/
structure Compacted (ranges descriptors : List ArangeDescriptor) : Prop where
  gaps : descriptors.Pairwise fun earlier later => earlier.address + earlier.length < later.address
  union : ∀ address, (∃ descriptor ∈ descriptors, descriptor.address ≤ address ∧
    address < descriptor.address + descriptor.length) ↔
      ∃ range ∈ ranges, range.address ≤ address ∧ address < range.address + range.length

theorem compact_addDescriptors (unwrapped : ∀ range ∈ ranges, range.Unwrapped) :
    ∃ descriptors, descriptors.length = (pieces ranges).card ∧ Compacted ranges descriptors ∧
      compact (addDescriptors ranges) = if (pieces ranges).card < 2 ^ 32 then some descriptors else none := by
  obtain ⟨ordered, added⟩ := addDescriptors_extent unwrapped
  obtain ⟨merged, gapped, same, compacted⟩ := compact_eq ordered
  replace same := added.trans same
  have card := gapped.card ((coe_pieces ranges).trans same.starts_eq)
  have last (interval : HalfOpen Nat) : (ofInterval interval).address + (ofInterval interval).length = interval.last :=
    Nat.add_sub_cancel' interval.ordered
  refine ⟨merged.map ofInterval, by simp [card], ⟨?_, fun address => ?_⟩, by rw [card, compacted]⟩
  · refine List.pairwise_map.mpr (gapped.imp fun {earlier later} gap => ?_)
    rw [last]
    exact gap
  · have both := Set.ext_iff.mp same.covered_eq address
    simp only [covered, List.mem_map, exists_exists_and_eq_and] at both
    simp only [List.mem_map, exists_exists_and_eq_and, last]
    exact both.symm

/-- Adding and compacting is exact when the pieces can be counted in 32 bits. -/
theorem compact_iff {ranges : List ArangeDescriptor} (unwrapped : ∀ range ∈ ranges, range.Unwrapped) :
    (∃ descriptors, compact (addDescriptors ranges) = some descriptors ∧ Compacted ranges descriptors) ↔
      (pieces ranges).card < 2 ^ 32 := by
  obtain ⟨descriptors, -, exact_, compacted⟩ := compact_addDescriptors unwrapped
  rw [compacted]
  constructor
  · rintro ⟨result, found, -⟩
    by_contra many
    rw [if_neg many] at found
    cases found
  · intro few
    exact ⟨descriptors, if_pos few, exact_⟩

theorem compact_iff_three : (∃ descriptors, compact (addDescriptors [⟨8, 4⟩, ⟨2, 3⟩, ⟨4, 4⟩]) = some descriptors ∧
      Compacted [⟨8, 4⟩, ⟨2, 3⟩, ⟨4, 4⟩] descriptors) ↔ (pieces [⟨8, 4⟩, ⟨2, 3⟩, ⟨4, 4⟩]).card < 2 ^ 32 :=
  compact_iff (by unfold Unwrapped; decide)

def everySecond (count : Nat) : List ArangeDescriptor := (List.range count).map fun index => ⟨2 * index, 1⟩

theorem card_everySecond (count : Nat) : (pieces (everySecond count)).card = count := by
  have gapped : Gapped ((everySecond count).map interval) := by
    rw [everySecond, List.map_map]
    refine List.pairwise_map.mpr (List.pairwise_lt_range.imp fun {earlier later} less => ?_)
    change 2 * earlier + 1 < 2 * later
    omega
  rw [gapped.card (coe_pieces _), List.length_map, everySecond, List.length_map, List.length_range]

theorem not_compact : ¬ ∃ descriptors, compact (addDescriptors (everySecond (2 ^ 32))) = some descriptors ∧
    Compacted (everySecond (2 ^ 32)) descriptors := by
  rintro ⟨result, found, -⟩
  have unwrapped : ∀ range ∈ everySecond (2 ^ 32), range.Unwrapped := by
    refine List.forall_mem_map.mpr fun index member => ?_
    have small := List.mem_range.mp member
    unfold Unwrapped
    dsimp only
    omega
  obtain ⟨descriptors, -, -, compacted⟩ := compact_addDescriptors unwrapped
  rw [compacted, card_everySecond] at found
  cases found

end DWARFDebugArangeSet

end Lldb
