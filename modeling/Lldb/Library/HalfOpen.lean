import Mathlib.Data.Finset.Card

/-! Intervals of a linear order without their ends, and lists of them of the same extent.

Neighbours of a sorted list are joined where the next one begins in or at the end of the current one.
-/

set_option autoImplicit false

namespace Library

open List

structure HalfOpen (α : Type) [LinearOrder α] where
  first : α
  last : α
  ordered : first ≤ last

namespace HalfOpen

variable {α : Type} [LinearOrder α]

def join (current next : HalfOpen α) : HalfOpen α where
  first := current.first
  last := max current.last next.last
  ordered := current.ordered.trans (le_max_left _ _)

def covered (intervals : List (HalfOpen α)) : Set α :=
  {place | ∃ interval ∈ intervals, interval.first ≤ place ∧ place < interval.last}

def reached (intervals : List (HalfOpen α)) : Set α :=
  {place | ∃ interval ∈ intervals, interval.first < place ∧ place ≤ interval.last}

def firsts (intervals : List (HalfOpen α)) : Set α := {place | ∃ interval ∈ intervals, interval.first = place}

def starts (intervals : List (HalfOpen α)) : Set α := firsts intervals \ reached intervals

structure SameExtent (left right : List (HalfOpen α)) : Prop where
  covered_eq : covered left = covered right
  reached_eq : reached left = reached right
  starts_eq : starts left = starts right

variable (left right : List (HalfOpen α))
include left right

theorem covered_append : covered (left ++ right) = covered left ∪ covered right := by
  ext place
  simp [covered, or_and_right, exists_or]

theorem reached_append : reached (left ++ right) = reached left ∪ reached right := by
  ext place
  simp [reached, or_and_right, exists_or]

theorem firsts_append : firsts (left ++ right) = firsts left ∪ firsts right := by
  ext place
  simp [firsts, or_and_right, exists_or]

theorem starts_append : starts (left ++ right) = starts left \ reached right ∪ starts right \ reached left := by
  ext place
  simp only [starts, firsts_append, reached_append]
  by_cases below : place ∈ reached left <;> by_cases above : place ∈ reached right <;> simp [below, above]

omit left right

namespace SameExtent

variable {left middle right : List (HalfOpen α)}

theorem refl (intervals : List (HalfOpen α)) : SameExtent intervals intervals := ⟨rfl, rfl, rfl⟩

theorem symm (same : SameExtent left right) : SameExtent right left :=
  ⟨same.covered_eq.symm, same.reached_eq.symm, same.starts_eq.symm⟩

theorem trans (first : SameExtent left middle) (second : SameExtent middle right) : SameExtent left right :=
  ⟨first.covered_eq.trans second.covered_eq, first.reached_eq.trans second.reached_eq,
    first.starts_eq.trans second.starts_eq⟩

theorem of_perm (perm : left.Perm right) : SameExtent left right := by
  have reached_eq : reached left = reached right := Set.ext fun place => by
    simp [reached, perm.mem_iff]
  have firsts_eq : firsts left = firsts right := Set.ext fun place => by
    simp [firsts, perm.mem_iff]
  refine ⟨Set.ext fun place => ?_, reached_eq, by rw [starts, starts, reached_eq, firsts_eq]⟩
  simp [covered, perm.mem_iff]

theorem append {others nexts : List (HalfOpen α)} (same : SameExtent left right) (behind : SameExtent others nexts) :
    SameExtent (left ++ others) (right ++ nexts) where
  covered_eq := by rw [covered_append, covered_append, same.covered_eq, behind.covered_eq]
  reached_eq := by rw [reached_append, reached_append, same.reached_eq, behind.reached_eq]
  starts_eq := by
    simp [starts_append, same.starts_eq, same.reached_eq, behind.starts_eq, behind.reached_eq]

theorem cons (interval : HalfOpen α) (same : SameExtent left right) :
    SameExtent (interval :: left) (interval :: right) := (refl [interval]).append same

/-- Two intervals that touch, the one that begins first before the other, have the extent of one. -/
theorem join {current next : HalfOpen α} (order : current.first ≤ next.first) (touch : next.first ≤ current.last) :
    SameExtent [current, next] [current.join next] where
  covered_eq := by
    ext place
    simp only [covered, HalfOpen.join, mem_cons, not_mem_nil, or_false, exists_eq_or_imp,
      exists_eq_left, lt_max_iff]
    constructor
    · rintro (⟨above, below⟩ | ⟨above, below⟩)
      · exact ⟨above, .inl below⟩
      · exact ⟨order.trans above, .inr below⟩
    · rintro ⟨above, below⟩
      by_cases inside : place < current.last
      · exact .inl ⟨above, inside⟩
      · exact .inr ⟨touch.trans (not_lt.mp inside), below.resolve_left inside⟩
  reached_eq := by
    ext place
    simp only [reached, HalfOpen.join, mem_cons, not_mem_nil, or_false, exists_eq_or_imp,
      exists_eq_left, le_max_iff]
    constructor
    · rintro (⟨above, below⟩ | ⟨above, below⟩)
      · exact ⟨above, .inl below⟩
      · exact ⟨order.trans_lt above, .inr below⟩
    · rintro ⟨above, below⟩
      by_cases inside : place ≤ current.last
      · exact .inl ⟨above, inside⟩
      · exact .inr ⟨touch.trans_lt (not_le.mp inside), below.resolve_left inside⟩
  starts_eq := by
    ext place
    simp only [starts, firsts, reached, mem_cons, not_mem_nil,
      or_false, exists_eq_or_imp, exists_eq_left]
    constructor
    · rintro ⟨rfl | rfl, free⟩
      · exact ⟨rfl, fun inside => inside.1.false⟩
      · have same : current.first = next.first := by
          by_contra different
          exact free (.inl ⟨lt_of_le_of_ne order different, touch⟩)
        exact ⟨same, fun inside => inside.1.ne same⟩
    · rintro ⟨rfl, -⟩
      exact ⟨.inl rfl, fun inside => inside.elim (fun current => current.1.false) fun next => next.1.not_ge order⟩

end SameExtent

def merge (current : HalfOpen α) : List (HalfOpen α) → List (HalfOpen α)
  | [] => [current]
  | next :: rest => if next.first ≤ current.last then merge (current.join next) rest else current :: merge next rest

variable (current : HalfOpen α)

theorem merge_first (rest : List (HalfOpen α)) :
    ∃ head tail, merge current rest = head :: tail ∧ head.first = current.first := by
  induction rest generalizing current with
  | nil => exact ⟨current, [], rfl, rfl⟩
  | cons next rest ih =>
    rw [merge]
    split_ifs with touch
    · exact ih (current.join next)
    · exact ⟨current, merge next rest, rfl, rfl⟩

theorem merge_pos (rest : List (HalfOpen α)) : 0 < (merge current rest).length := by
  obtain ⟨head, tail, merged, -⟩ := merge_first current rest
  rw [merged]
  exact Nat.succ_pos _

def Gapped (intervals : List (HalfOpen α)) : Prop := intervals.Pairwise fun left right => left.last < right.first

theorem merge_gapped (rest : List (HalfOpen α)) : Gapped (merge current rest) := by
  induction rest generalizing current with
  | nil => exact pairwise_singleton _ _
  | cons next rest ih =>
    rw [merge]
    split_ifs with touch
    · exact ih (current.join next)
    · obtain ⟨head, tail, merged, first⟩ := merge_first next rest
      have gapped := ih next
      rw [merged] at gapped ⊢
      refine pairwise_cons.mpr ⟨fun other member => ?_, gapped⟩
      have gap : current.last < head.first := first ▸ not_le.mp touch
      rcases mem_cons.mp member with rfl | behind
      · exact gap
      · exact gap.trans (head.ordered.trans_lt (rel_of_pairwise_cons gapped behind))

theorem merge_sameExtent {current : HalfOpen α} {rest : List (HalfOpen α)}
    (sorted : (current :: rest).Pairwise fun left right => left.first ≤ right.first) :
    SameExtent (current :: rest) (merge current rest) := by
  induction rest generalizing current with
  | nil => exact .refl _
  | cons next rest ih =>
    obtain ⟨order, sorted⟩ := pairwise_cons.mp sorted
    rw [merge]
    split_ifs with touch
    · have joined := (SameExtent.join (order next mem_cons_self) touch).append (.refl rest)
      refine joined.trans (ih (pairwise_cons.mpr ⟨fun other member => ?_, (pairwise_cons.mp sorted).2⟩))
      exact order other (mem_cons_of_mem _ member)
    · exact (ih sorted).cons current

theorem Gapped.starts_eq {intervals : List (HalfOpen α)} (gapped : Gapped intervals) :
    starts intervals = firsts intervals := by
  refine Set.Subset.antisymm (fun place inside => inside.1) fun place begins => ⟨begins, ?_⟩
  obtain ⟨interval, member, rfl⟩ := begins
  rintro ⟨other, otherMember, below, above⟩
  -- Of two intervals of the list one is behind the other.
  have free := List.Pairwise.forall_of_forall_of_flip
    (R := fun left right : HalfOpen α => ¬ (left.first < right.first ∧ right.first ≤ left.last))
    (fun interval _ both => both.1.false) (gapped.imp fun gap both => both.2.not_gt gap)
    (gapped.imp fun {left right} gap both => both.1.not_gt (left.ordered.trans_lt gap)) otherMember member
  exact free ⟨below, above⟩

theorem Gapped.card {intervals : List (HalfOpen α)} (gapped : Gapped intervals) {pieces : Finset α}
    (all : (pieces : Set α) = starts intervals) : pieces.card = intervals.length := by
  have increasing : (intervals.map first).Nodup :=
    pairwise_map.mpr (gapped.imp fun {left right} gap => (left.ordered.trans_lt gap).ne)
  have same : pieces = (intervals.map first).toFinset := by
    apply Finset.coe_injective
    rw [all, gapped.starts_eq]
    ext place
    simp [firsts]
  rw [same, toFinset_card_of_nodup increasing, length_map]

end HalfOpen

end Library
