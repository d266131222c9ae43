import Lldb.Core.RangeCoalescing

/-! Insertion with combining of a range that may reach into any number of others.

A range touches another one where they overlap or adjoin; ends are not cut to 64 bits here.
-/

set_option autoImplicit false

namespace Lldb

open Library (Window)
open List Option

namespace Range

def touches (range other : Range) : Bool :=
  range.base ≤ other.base + other.size && other.base ≤ range.base + range.size

theorem touches_iff {range other : Range} :
    range.touches other ↔ range.base ≤ other.base + other.size ∧ other.base ≤ range.base + range.size := by
  unfold touches
  rw [Bool.and_eq_true, decide_eq_true_eq, decide_eq_true_eq]

/-- The base has 64 bits and the size `width` bits. -/
structure Bounded (width : Nat) (range : Range) : Prop where
  base : range.base < 2 ^ 64
  size : range.size < 2 ^ width

structure Joined (width : Nat) (range : Range) : Prop where
  fits : range.base + range.size < 2 ^ 64
  size : range.size < 2 ^ width

variable {left right : Range}

theorem union_joined {width : Nat} {joined : Range} (union : left.union width right = some joined) :
    joined.Joined width := by
  unfold Range.union doesAdjoinOrIntersect at union
  split_ifs at union with adjoin
  rw [Bool.and_eq_true, decide_eq_true_eq, decide_eq_true_eq] at adjoin
  obtain rfl := Option.some.inj union
  have leftEnd : left.rangeEnd < 2 ^ 64 := Nat.mod_lt _ (Nat.two_pow_pos 64)
  have rightEnd : right.rangeEnd < 2 ^ 64 := Nat.mod_lt _ (Nat.two_pow_pos 64)
  have less := Nat.mod_le ((max left.rangeEnd right.rangeEnd + 2 ^ 64 - min left.base right.base) % 2 ^ 64) (2 ^ width)
  exact ⟨by dsimp only; omega, Nat.mod_lt _ (Nat.two_pow_pos width)⟩

theorem union_none {width : Nat} (gap : left.base + left.size < right.base)
    (bounded : right.base < 2 ^ 64) : left.union width right = none ∧ right.union width left = none := by
  have leftEnd : left.rangeEnd = left.base + left.size := Nat.mod_eq_of_lt (by omega)
  constructor
  · unfold Range.union doesAdjoinOrIntersect
    rw [leftEnd, if_neg (by rw [Bool.and_eq_true, decide_eq_true_eq, decide_eq_true_eq]; omega)]
  · unfold Range.union doesAdjoinOrIntersect
    rw [leftEnd, if_neg (by rw [Bool.and_eq_true, decide_eq_true_eq, decide_eq_true_eq]; omega)]

theorem union_some {width : Nat} (touch : left.touches right)
    (leftFits : left.base + left.size < 2 ^ 64) (rightFits : right.base + right.size < 2 ^ 64)
    (span : max (left.base + left.size) (right.base + right.size) < min left.base right.base + 2 ^ width) :
    left.union width right = some ⟨min left.base right.base,
      max (left.base + left.size) (right.base + right.size) - min left.base right.base⟩ := by
  have leftEnd : left.rangeEnd = left.base + left.size := Nat.mod_eq_of_lt leftFits
  have rightEnd : right.rangeEnd = right.base + right.size := Nat.mod_eq_of_lt rightFits
  rw [touches_iff] at touch
  unfold Range.union doesAdjoinOrIntersect
  rw [leftEnd, rightEnd, if_pos (by rw [Bool.and_eq_true, decide_eq_true_eq, decide_eq_true_eq]; omega)]
  dsimp only
  generalize stop : max (left.base + left.size) (right.base + right.size) = last at span ⊢
  generalize start : min left.base right.base = first at span ⊢
  have wrap : (last + 2 ^ 64 - first) % 2 ^ 64 = last - first := by omega
  rw [wrap, Nat.mod_eq_of_lt (by omega)]

end Range

structure Hull (parts : List Range) (hull : Range) : Prop where
  lower : ∀ part ∈ parts, hull.base ≤ part.base
  upper : ∀ part ∈ parts, part.base + part.size ≤ hull.base + hull.size
  first : ∃ part ∈ parts, hull.base = part.base
  last : ∃ part ∈ parts, hull.base + hull.size = part.base + part.size

theorem Hull.single (range : Range) : Hull [range] range := by
  constructor <;> simp

variable {parts : List Range} {hull : Range}

theorem Hull.cons (isHull : Hull parts hull) (part : Range) : Hull (part :: parts) ⟨min part.base hull.base,
      max (part.base + part.size) (hull.base + hull.size) - min part.base hull.base⟩ := by
  obtain ⟨lower, upper, ⟨first, inFirst, begins⟩, last, inLast, ends⟩ := isHull
  constructor
  · rw [forall_mem_cons]
    refine ⟨min_le_left _ _, fun other member => ?_⟩
    exact le_trans (min_le_right _ _) (lower other member)
  · rw [forall_mem_cons]
    dsimp only
    refine ⟨by omega, fun other member => ?_⟩
    have within := upper other member
    omega
  · by_cases less : part.base ≤ hull.base
    · exact ⟨part, mem_cons_self, min_eq_left less⟩
    · exact ⟨first, .tail _ inFirst, begins ▸ Nat.min_eq_right (Nat.le_of_not_le less)⟩
  · dsimp only
    by_cases less : part.base + part.size ≤ hull.base + hull.size
    · exact ⟨last, .tail _ inLast, by omega⟩
    · exact ⟨part, mem_cons_self, by omega⟩

theorem Hull.perm {parts others : List Range} {hull : Range} (isHull : Hull parts hull) (perm : parts.Perm others) :
    Hull others hull := by
  obtain ⟨lower, upper, first, last⟩ := isHull
  simp only [perm.mem_iff] at lower upper first last
  exact ⟨lower, upper, first, last⟩

def Joinable (width : Nat) (parts : List Range) : Prop :=
  ∀ left ∈ parts, ∀ right ∈ parts,
    right.base + right.size < 2 ^ 64 ∧ right.base + right.size < left.base + 2 ^ width

theorem Joinable.subset {width : Nat} {parts some_ : List Range} (joinable : Joinable width parts)
    (subset : ∀ part ∈ some_, part ∈ parts) : Joinable width some_ :=
  fun left inLeft right inRight => joinable left (subset left inLeft) right (subset right inRight)

theorem Hull.union {width : Nat} (isHull : Hull parts hull) {part other : Range}
    (joinable : Joinable width (part :: parts)) (member : other ∈ parts) (touch : part.touches other) :
    ∃ joined, part.union width hull = some joined ∧ hull.union width part = some joined ∧
      Hull (part :: parts) joined := by
  obtain ⟨first, inFirst, begins⟩ := isHull.first
  obtain ⟨last, inLast, ends⟩ := isHull.last
  have lower := isHull.lower other member
  have upper := isHull.upper other member
  have own := joinable part mem_cons_self part mem_cons_self
  have before := joinable first (.tail _ inFirst) part mem_cons_self
  have behind := joinable part mem_cons_self last (.tail _ inLast)
  have whole := joinable first (.tail _ inFirst) last (.tail _ inLast)
  rw [Range.touches_iff] at touch
  have forward : part.touches hull := Range.touches_iff.mpr (by omega)
  have backward : hull.touches part := Range.touches_iff.mpr (by omega)
  refine ⟨_, Range.union_some forward own.1 (by omega) (by omega), ?_, isHull.cons part⟩
  rw [Range.union_some backward (by omega) own.1 (by omega), max_comm, min_comm]

theorem Hull.mem_iff {entry : Range} (isHull : Hull (entry :: parts) hull)
    (touch : ∀ part ∈ parts, part.touches entry) (place : Nat) :
    place ∈ hull.window ↔ place ∈ entry.window ∨ ∃ part ∈ parts, place ∈ part.window := by
  rw [← exists_mem_cons_iff (fun part : Range => place ∈ part.window)]
  have touching : ∀ part ∈ entry :: parts, part.base ≤ entry.base + entry.size ∧
      entry.base ≤ part.base + part.size := by
    rw [forall_mem_cons]
    exact ⟨by omega, fun part member => Range.touches_iff.mp (touch part member)⟩
  constructor
  · intro inside
    obtain ⟨first, inFirst, begins⟩ := isHull.first
    obtain ⟨last, inLast, ends⟩ := isHull.last
    have inside_ : hull.base ≤ place ∧ place < hull.base + hull.size := inside
    have left := touching first inFirst
    have right := touching last inLast
    by_cases before : place < entry.base
    · exact ⟨first, inFirst, Window.mem_iff.mpr (by simp only [Range.window]; omega)⟩
    · by_cases behind : place < entry.base + entry.size
      · exact ⟨entry, mem_cons_self, Window.mem_iff.mpr (by simp only [Range.window]; omega)⟩
      · exact ⟨last, inLast, Window.mem_iff.mpr (by simp only [Range.window]; omega)⟩
  · rintro ⟨part, member, inside⟩
    have inside_ : part.base ≤ place ∧ place < part.base + part.size := inside
    have lower := isHull.lower part member
    have upper := isHull.upper part member
    exact Window.mem_iff.mpr (by simp only [Range.window]; omega)

/-! What insertion must do. -/

/-- The places are those of the old list and the entry, and there is a gap between each two neighbours. -/
structure Inserted (entries : List Range) (entry : Range) (after : List Range) : Prop where
  covered : ∀ place, (∃ other ∈ after, place ∈ other.window) ↔
    place ∈ entry.window ∨ ∃ other ∈ entries, place ∈ other.window
  spaced : Spaced after

theorem inserted_of_hull {front absorbed back : List Range} {entry : Range}
    (spaced : Spaced (front ++ absorbed ++ back)) (isHull : Hull (entry :: absorbed) hull)
    (touch : ∀ part ∈ absorbed, part.touches entry) (below : ∀ other ∈ front, other.base + other.size < entry.base)
    (above : ∀ other ∈ back, entry.base + entry.size < other.base) :
    Inserted (front ++ absorbed ++ back) entry (front ++ hull :: back) := by
  constructor
  · intro place
    have inHull := isHull.mem_iff touch place
    simp only [mem_append, mem_cons, or_and_right, exists_or, exists_eq_left, inHull]
    grind
  · obtain ⟨ordered, behind, across⟩ := pairwise_append.mp spaced.pairwise
    obtain ⟨start, -, before⟩ := pairwise_append.mp ordered
    obtain ⟨first, inFirst, begins⟩ := isHull.first
    obtain ⟨last, inLast, ends⟩ := isHull.last
    have isFirst : ∀ other ∈ front, other.base + other.size < hull.base := by
      intro other member
      rw [begins]
      rcases mem_cons.mp inFirst with rfl | within
      · exact below other member
      · exact before other member first within
    have isLast : ∀ other ∈ back, hull.base + hull.size < other.base := by
      intro other member
      rw [ends]
      rcases mem_cons.mp inLast with rfl | within
      · exact above other member
      · exact across last (mem_append_right _ within) other member
    apply List.Pairwise.isChain
    refine pairwise_append.mpr ⟨start, pairwise_cons.mpr ⟨isLast, behind⟩, ?_⟩
    intro left inFront right listed
    rcases mem_cons.mp listed with rfl | inBack
    · exact isFirst left inFront
    · exact across left (mem_append_left _ inFront) right inBack

theorem Spaced.eq_or_gap {entries : List Range} (spaced : Spaced entries) {left right : Range}
    (leftListed : left ∈ entries) (rightListed : right ∈ entries) :
    left = right ∨ left.base + left.size < right.base ∨ right.base + right.size < left.base := by
  refine List.Pairwise.forall_of_forall_of_flip
    (R := fun left right : Range =>
      left = right ∨ left.base + left.size < right.base ∨ right.base + right.size < left.base)
    (fun _ _ => .inl rfl) (spaced.pairwise.imp fun gap => .inr (.inl gap))
    (spaced.pairwise.imp fun gap => .inr (.inr gap)) leftListed rightListed

/-- Ranges with gaps between them that have all places from one to another have them in one range. -/
theorem Spaced.exists_whole {entries : List Range} (spaced : Spaced entries) {first stop : Nat} (less : first < stop)
    (covered : ∀ place, first ≤ place → place < stop → ∃ entry ∈ entries, place ∈ entry.window) :
    ∃ entry ∈ entries, entry.base ≤ first ∧ stop ≤ entry.base + entry.size := by
  obtain ⟨entry, listed, here⟩ := covered first (le_refl _) less
  have here_ : entry.base ≤ first ∧ first < entry.base + entry.size := here
  refine ⟨entry, listed, here_.1, ?_⟩
  by_contra short
  obtain ⟨other, also, there⟩ := covered (entry.base + entry.size) (by omega) (by omega)
  have there_ : other.base ≤ entry.base + entry.size ∧ entry.base + entry.size < other.base + other.size := there
  rcases spaced.eq_or_gap listed also with rfl | gap | gap
  · omega
  · omega
  · omega

namespace RangeVector

variable {width : Nat}

/-! What becomes of the entries, whether ends are cut or not. -/

variable {front after before entries : List Range} {range entry hull other : Range}

theorem mem_combineNext {position : Range} (member : range ∈ combineNext width front position after) :
    range ∈ front ∨ range = position ∨ range ∈ after ∨ range.Joined width := by
  cases after with
  | nil =>
    rw [combineNext, mem_append, mem_singleton] at member
    exact member.imp_right .inl
  | cons next rest =>
    rw [combineNext] at member
    cases union : position.union width next with
    | none =>
      rw [union] at member
      simp only [mem_append, mem_cons] at member ⊢
      grind
    | some joined =>
      rw [union] at member
      have narrow := Range.union_joined union
      simp only [mem_append, mem_cons] at member ⊢
      grind

theorem mem_combinePrevAndNext {position : Range} (member : range ∈ combinePrevAndNext width before position after) :
    range ∈ before ∨ range = position ∨ range ∈ after ∨ range.Joined width := by
  rcases eq_nil_or_concat before with rfl | ⟨front, previous, rfl⟩
  · exact mem_combineNext member
  · rw [concat_eq_append] at member ⊢
    unfold combinePrevAndNext at member
    rw [getLast?_concat, dropLast_concat] at member
    dsimp only at member
    cases union : previous.union width position with
    | none =>
      rw [union] at member
      have inside := mem_combineNext member
      simp only [mem_append, mem_cons] at inside ⊢
      grind
    | some joined =>
      rw [union] at member
      have narrow := Range.union_joined union
      have inside := mem_combineNext member
      simp only [mem_append, mem_singleton] at inside ⊢
      grind

theorem insert_cases (vector : RangeVector width) (entry : Range) :
    (∃ before after, vector.entries = before ++ after ∧ (vector.insert entry true).entries = before ++ entry :: after) ∨
      ∃ front other back, vector.entries = front ++ other :: back ∧ (other.union width entry).isSome ∧
        ∀ range ∈ (vector.insert entry true).entries, range ∈ front ∨ range ∈ back ∨ range.Joined width := by
  have split := (take_append_drop (vector.lowerBound entry) vector.entries).symm
  dsimp only [insert]
  generalize vector.entries.take (vector.lowerBound entry) = before at split ⊢
  generalize vector.entries.drop (vector.lowerBound entry) = after at split ⊢
  rw [if_pos rfl]
  split
  case h_1 joined found =>
    obtain ⟨next, first, union⟩ := bind_eq_some_iff.mp found
    obtain ⟨rest, rfl⟩ := head?_eq_some_iff.mp first
    refine .inr ⟨before, next, rest, split, union ▸ rfl, fun range member => ?_⟩
    have inside := mem_combinePrevAndNext member
    have narrow := Range.union_joined union
    rw [tail_cons] at inside
    grind
  case h_2 =>
    split
    case h_1 joined found =>
      obtain ⟨previous, last, union⟩ := bind_eq_some_iff.mp found
      obtain ⟨front, rfl⟩ := getLast?_eq_some_iff.mp last
      rw [append_assoc, singleton_append] at split
      refine .inr ⟨front, previous, after, split, union ▸ rfl, fun range member => ?_⟩
      rw [dropLast_concat] at member
      have inside := mem_combinePrevAndNext member
      have narrow := Range.union_joined union
      grind
    case h_2 => exact .inl ⟨before, after, split, rfl⟩

/-! What makes the insertion right. -/

def together (entries : List Range) (entry : Range) : List Range := entry :: entries.filter (·.touches entry)

def touchedAbove (entries : List Range) (entry : Range) : Nat :=
  (entries.filter fun other => !other.lt entry && other.touches entry).length

/-- One of them is joined, and a second one if there is no range less than the entry or the entry touches one. -/
def Few (entries : List Range) (entry : Range) : Prop :=
  touchedAbove entries entry ≤ 1 ∨ touchedAbove entries entry = 2 ∧
    ((∀ other ∈ entries, ¬ other.lt entry) ∨ ∃ other ∈ entries, other.lt entry ∧ other.touches entry)

/-- The entry touches nothing, or few ranges, all of them together with their ends among the addresses and with a span
that is a size.
-/
def Suits (width : Nat) (entries : List Range) (entry : Range) : Prop :=
  (∀ other ∈ entries, ¬ other.touches entry) ∨ Joinable width (together entries entry) ∧ Few entries entry

theorem mem_together : range ∈ together entries entry ↔ range = entry ∨ range ∈ entries ∧ range.touches entry := by
  rw [together, mem_cons, mem_filter]

theorem joinable_of_inserted {vector : RangeVector width} (spaced : Spaced vector.entries)
    (bounds : ∀ other ∈ vector.entries, other.Bounded width) (entryBounds : entry.Bounded width)
    (inserted : Inserted vector.entries entry (vector.insert entry true).entries) {touched : Range}
    (listed : touched ∈ vector.entries) (touch : touched.touches entry) :
    Joinable width (together vector.entries entry) := by
  have within (range : Range) (member : range ∈ together vector.entries entry) :
      (range.base ≤ entry.base + entry.size ∧ entry.base ≤ range.base + range.size) ∧
        ∀ place, place ∈ range.window → ∃ other ∈ (vector.insert entry true).entries, place ∈ other.window := by
    rcases mem_together.mp member with rfl | ⟨old, touches⟩
    · exact ⟨by omega, fun place inside => (inserted.covered place).mpr (.inl inside)⟩
    · exact ⟨Range.touches_iff.mp touches, fun place inside =>
        (inserted.covered place).mpr (.inr ⟨range, old, inside⟩)⟩
  obtain ⟨self, own⟩ := within entry (mem_together.mpr (.inl rfl))
  have cases_ := vector.insert_cases entry
  have sized : ∀ range ∈ (vector.insert entry true).entries, range.size < 2 ^ width := by
    intro range member
    rcases cases_ with ⟨before, after, split, plain⟩ | ⟨front, other, back, split, -, only⟩
    · rw [plain] at member
      rw [split] at bounds
      rcases mem_append.mp member with old | member
      · exact (bounds range (mem_append_left _ old)).size
      · rcases mem_cons.mp member with rfl | old
        · exact entryBounds.size
        · exact (bounds range (mem_append_right _ old)).size
    · rw [split] at bounds
      rcases only range member with old | old | joined
      · exact (bounds range (mem_append_left _ old)).size
      · exact (bounds range (mem_append_right _ (.tail _ old))).size
      · exact joined.size
  -- All places between two of them are theirs or the entry's.
  have whole (left : Range) (inLeft : left ∈ together vector.entries entry) (right : Range)
      (inRight : right ∈ together vector.entries entry) (less : left.base < right.base + right.size) :
      ∃ range ∈ (vector.insert entry true).entries,
        range.base ≤ left.base ∧ right.base + right.size ≤ range.base + range.size := by
    obtain ⟨leftTouch, leftPlaces⟩ := within left inLeft
    obtain ⟨rightTouch, rightPlaces⟩ := within right inRight
    refine inserted.spaced.exists_whole less fun place above below => ?_
    by_cases before : place < entry.base
    · exact leftPlaces place (Window.mem_iff.mpr (by simp only [Range.window]; omega))
    · by_cases behind : place < entry.base + entry.size
      · exact own place (Window.mem_iff.mpr (by simp only [Range.window]; omega))
      · exact rightPlaces place (Window.mem_iff.mpr (by simp only [Range.window]; omega))
  intro left inLeft right inRight
  constructor
  · by_contra atEnd
    have entryBase := entryBounds.base
    obtain ⟨range, member, first, last⟩ := whole entry (mem_together.mpr (.inl rfl)) right inRight (by omega)
    rw [Range.touches_iff] at touch
    rcases cases_ with ⟨before, after, split, plain⟩ | ⟨front, other, back, split, united, only⟩
    · -- The entry would stand beside the range that it touches.
      have pairs := inserted.spaced.pairwise
      rw [plain] at pairs
      obtain ⟨-, behind, across⟩ := pairwise_append.mp pairs
      rcases mem_append.mp (split ▸ listed) with inBefore | inAfter
      · have gap := across touched inBefore entry mem_cons_self
        omega
      · have gap := (pairwise_cons.mp behind).1 touched inAfter
        omega
    · -- The range is none that was united, so the one with which the entry was bounds before it.
      have pairs := spaced.pairwise
      rw [split] at pairs bounds
      obtain ⟨-, behind, across⟩ := pairwise_append.mp pairs
      have otherBase := (bounds other (mem_append_right _ mem_cons_self)).base
      rcases only range member with inFront | inBack | joined
      · have gap := across range inFront other mem_cons_self
        omega
      · have gap := (pairwise_cons.mp behind).1 range inBack
        rw [(Range.union_none (by omega) entryBase).1] at united
        cases united
      · have fits := joined.fits
        omega
  · by_cases less : left.base < right.base + right.size
    · obtain ⟨range, member, first, last⟩ := whole left inLeft right inRight less
      have size := sized range member
      omega
    · have positive := Nat.two_pow_pos width
      omega

/-- The entry is united with some of the ranges that it touches; with all of them under a condition. -/
def Unites (entries : List Range) (entry : Range) (after : List Range) (all : Prop) : Prop :=
  ∃ (front absorbed back : List Range) (hull : Range),
    entries = front ++ absorbed ++ back ∧ after = front ++ hull :: back ∧ Hull (entry :: absorbed) hull ∧
      (∀ other ∈ absorbed, other.touches entry) ∧ (∀ other ∈ front, other.base + other.size < entry.base) ∧
      (∀ other ∈ back, ¬ other.lt entry) ∧ (all ↔ ∀ other ∈ back, ¬ other.touches entry)

theorem Unites.inserted_iff {all : Prop}
    (unites : Unites entries entry after all) (spaced : Spaced entries) : Inserted entries entry after ↔ all := by
  obtain ⟨front, absorbed, back, hull, rfl, rfl, isHull, touch, below, above, isAll⟩ := unites
  rw [isAll]
  constructor
  · intro inserted other member
    have gap := (pairwise_cons.mp (pairwise_append.mp inserted.spaced.pairwise).2.1).1 other member
    have upper := isHull.upper entry mem_cons_self
    rw [Range.touches_iff]
    omega
  · intro apart
    refine inserted_of_hull spaced isHull touch below fun other member => ?_
    have notLess := above other member
    have gap := apart other member
    rw [Range.lt_iff] at notLess
    rw [Range.touches_iff] at gap
    omega

theorem touchedAbove_parts (less : ∀ other ∈ before, other.lt entry) (notLess : ∀ other ∈ after, ¬ other.lt entry) :
    touchedAbove (before ++ after) entry = (after.filter (·.touches entry)).length := by
  have nothing : before.filter (fun other => !other.lt entry && other.touches entry) = [] := by
    rw [filter_eq_nil_iff]
    intro other member
    rw [less other member]
    exact Bool.false_ne_true
  have same : after.filter (fun other => !other.lt entry && other.touches entry) = after.filter (·.touches entry) := by
    apply filter_congr
    intro other member
    rw [Bool.eq_false_iff.mpr (notLess other member), Bool.not_false, Bool.true_and]
  rw [touchedAbove, filter_append, nothing, same, nil_append]

theorem few_parts (less : ∀ other ∈ before, other.lt entry) (notLess : ∀ other ∈ after, ¬ other.lt entry) :
    Few (before ++ after) entry ↔ (after.filter (·.touches entry)).length ≤ 1 ∨
      (after.filter (·.touches entry)).length = 2 ∧ (before = [] ∨ ∃ other ∈ before, other.touches entry) := by
  have none_ : (∀ other ∈ before ++ after, ¬ other.lt entry) ↔ before = [] := by
    constructor
    · intro all
      cases before with
      | nil => rfl
      | cons first rest => exact absurd (less first mem_cons_self) (all first mem_cons_self)
    · rintro rfl
      exact notLess
  have some_ : (∃ other ∈ before ++ after, other.lt entry ∧ other.touches entry) ↔
      ∃ other ∈ before, other.touches entry := by
    constructor
    · rintro ⟨other, member, lt, touch⟩
      rcases mem_append.mp member with inBefore | inAfter
      · exact ⟨other, inBefore, touch⟩
      · exact absurd lt (notLess other inAfter)
    · rintro ⟨other, member, touch⟩
      exact ⟨other, mem_append_left _ member, less other member, touch⟩
  rw [Few, touchedAbove_parts less notLess, none_, some_]

theorem combineNext_gap (gap : ∀ next ∈ after.head?, hull.base + hull.size < next.base ∧ next.base < 2 ^ 64) :
    combineNext width front hull after = front ++ hull :: after := by
  cases after with
  | nil => rfl
  | cons next rest =>
    obtain ⟨apart, bounded⟩ := gap next rfl
    rw [combineNext, (Range.union_none apart bounded).1]

theorem combineNext_touch (front rest : List Range) {parts : List Range} {next : Range}
    (isHull : Hull parts hull) (joinable : Joinable width (next :: parts)) (member : other ∈ parts) (touch : next.touches other) :
    ∃ joined, combineNext width front hull (next :: rest) = front ++ joined :: rest ∧ Hull (next :: parts) joined := by
  obtain ⟨joined, -, union, whole⟩ := isHull.union joinable member touch
  refine ⟨joined, ?_, whole⟩
  rw [combineNext, union]

theorem base_le_of_not_lt (notLess : ¬ other.lt entry) : entry.base ≤ other.base := by
  rw [Range.lt_iff] at notLess
  omega

theorem base_le_of_lt (less : other.lt entry) : other.base ≤ entry.base := by
  rw [Range.lt_iff] at less
  omega

theorem below_last {prev : Range} (spaced : Spaced (front ++ [prev] ++ after)) :
    ∀ other ∈ front, other.base + other.size < prev.base := by
  intro other member
  have order := (pairwise_append.mp (pairwise_append.mp spaced.pairwise).1).2.2
  exact order other member prev (mem_singleton_self prev)

theorem apart_of_head (spaced : Spaced after) (gap : ∀ next ∈ after.head?, entry.base + entry.size < next.base) :
    ∀ other ∈ after, entry.base + entry.size < other.base := by
  cases after with
  | nil => nofun
  | cons next rest =>
    have first := gap next rfl
    rw [forall_mem_cons]
    refine ⟨first, fun other member => ?_⟩
    have later := (pairwise_cons.mp spaced.pairwise).1 other member
    omega

theorem not_touches_of_gap (gap : entry.base + entry.size < other.base) : ¬ other.touches entry := by
  rw [Range.touches_iff]
  omega

theorem gap_of_not_touches (notLess : ¬ other.lt entry) (apart : ¬ other.touches entry) :
    entry.base + entry.size < other.base := by
  have base := base_le_of_not_lt notLess
  rw [Range.touches_iff] at apart
  omega

theorem gap_below_of_not_touches (less : other.lt entry) (apart : ¬ other.touches entry) :
    other.base + other.size < entry.base := by
  rw [Range.lt_iff] at less
  rw [Range.touches_iff] at apart
  omega

theorem filter_touches_eq_nil :
    (entries.filter (·.touches entry)).length = 0 ↔ ∀ other ∈ entries, ¬ other.touches entry := by
  rw [length_eq_zero_iff, filter_eq_nil_iff]

theorem joinable_of_touches {parts : List Range} (joinable : Joinable width (together entries entry))
    (all : ∀ part ∈ parts, part = entry ∨ part ∈ entries ∧ part.touches entry) : Joinable width parts :=
  joinable.subset fun part member => mem_together.mpr (all part member)

theorem union_entry (joinable : Joinable width (together entries entry))
    (member : other ∈ entries) (touch : other.touches entry) :
    ∃ joined, other.union width entry = some joined ∧ Hull [other, entry] joined := by
  have pair : Joinable width [other, entry] := by
    apply joinable_of_touches joinable
    simp only [mem_cons, not_mem_nil, or_false]
    rintro part (rfl | rfl)
    · exact .inr ⟨member, touch⟩
    · exact .inl rfl
  obtain ⟨joined, union, -, isHull⟩ := (Hull.single entry).union pair (mem_singleton_self entry) touch
  exact ⟨joined, union, isHull⟩

theorem unites_rest (front absorbed : List Range) {rest : List Range}
    (spaced : Spaced (front ++ absorbed ++ rest)) (bounds : ∀ other ∈ rest, other.Bounded width)
    (joinable : Joinable width (together (front ++ absorbed ++ rest) entry))
    (notLess : ∀ other ∈ rest, ¬ other.lt entry) (touch : ∀ other ∈ absorbed, other.touches entry)
    (below : ∀ other ∈ front, other.base + other.size < entry.base) (isHull : Hull (entry :: absorbed) hull) :
    Unites (front ++ absorbed ++ rest) entry (combineNext width front hull rest)
      ((rest.filter (·.touches entry)).length ≤ 1) := by
  obtain ⟨-, ordered, across⟩ := pairwise_append.mp spaced.pairwise
  by_cases more : ∃ next ∈ rest.head?, next.touches entry
  · obtain ⟨next, head, touches⟩ := more
    obtain ⟨tail, rfl⟩ := head?_eq_some_iff.mp head
    have parts : Joinable width (next :: entry :: absorbed) := by
      apply joinable_of_touches joinable
      simp only [mem_cons, mem_append]
      rintro part (rfl | rfl | member)
      · exact .inr ⟨.inr (.inl rfl), touches⟩
      · exact .inl rfl
      · exact .inr ⟨.inl (.inr member), touch part member⟩
    obtain ⟨joined, combined, whole⟩ := combineNext_touch front tail isHull parts mem_cons_self touches
    refine ⟨front, absorbed ++ [next], tail, joined, by simp, combined, ?_, ?_, below, ?_, ?_⟩
    · exact whole.perm (perm_append_singleton next (entry :: absorbed)).symm
    · rw [forall_mem_append]
      exact ⟨touch, forall_mem_singleton.mpr touches⟩
    · exact fun other member => notLess other (.tail _ member)
    · rw [filter_cons, if_pos touches, length_cons, ← filter_touches_eq_nil]
      omega
  · have apart : ∀ next ∈ rest.head?, entry.base + entry.size < next.base := by
      intro next head
      have member := mem_of_mem_head? head
      exact gap_of_not_touches (notLess next member) fun touches => more ⟨next, head, touches⟩
    have untouched : ∀ other ∈ rest, ¬ other.touches entry := fun other member =>
      not_touches_of_gap (apart_of_head ordered.isChain apart other member)
    refine ⟨front, absorbed, rest, hull, rfl, combineNext_gap fun next head => ?_, isHull, touch, below, notLess, ?_⟩
    · obtain ⟨last, inLast, ends⟩ := isHull.last
      have member := mem_of_mem_head? head
      refine ⟨?_, (bounds next member).base⟩
      rw [ends]
      rcases mem_cons.mp inLast with rfl | within
      · exact apart next head
      · exact across last (mem_append_right _ within) next member
    · rw [filter_touches_eq_nil.mpr untouched]
      exact iff_of_true (Nat.zero_le 1) untouched

theorem Unites.congr {all other : Prop}
    (unites : Unites entries entry after all) (same : other ↔ all) : Unites entries entry after other :=
  propext same ▸ unites

theorem unites_above {rest : List Range} {next joined : Range}
    (spaced : Spaced (before ++ next :: rest)) (bounds : ∀ other ∈ before ++ next :: rest, other.Bounded width)
    (entryBase : entry.base < 2 ^ 64) (less : ∀ other ∈ before, other.lt entry)
    (notLess : ∀ other ∈ next :: rest, ¬ other.lt entry)
    (joinable : Joinable width (together (before ++ next :: rest) entry)) (touch : next.touches entry)
    (isHull : Hull [next, entry] joined) :
    Unites (before ++ next :: rest) entry (combinePrevAndNext width before joined rest)
      (Few (before ++ next :: rest) entry) := by
  have few := few_parts less notLess
  rw [filter_cons, if_pos touch, length_cons] at few
  have boundsRest : ∀ other ∈ rest, other.Bounded width := fun other member =>
    bounds other (mem_append_right _ (.tail _ member))
  have notLessRest : ∀ other ∈ rest, ¬ other.lt entry := fun other member => notLess other (.tail _ member)
  rcases eq_nil_or_concat before with rfl | ⟨front, prev, rfl⟩
  · have unites := unites_rest [] [next] spaced boundsRest joinable notLessRest
      (forall_mem_singleton.mpr touch) nofun (isHull.perm (List.Perm.swap entry next []))
    refine unites.congr (few.trans ?_)
    simp only [true_or, and_true]
    omega
  · rw [concat_eq_append] at *
    have prevLess := less prev (mem_append_right _ (mem_singleton_self prev))
    have below : ∀ other ∈ front, other.base + other.size < entry.base := fun other member =>
      lt_of_lt_of_le (below_last spaced other member) (base_le_of_lt prevLess)
    unfold combinePrevAndNext
    rw [getLast?_concat, dropLast_concat]
    dsimp only
    by_cases prevTouch : prev.touches entry
    · have parts : Joinable width [prev, next, entry] := by
        apply joinable_of_touches joinable
        simp only [mem_cons, not_mem_nil, or_false, mem_append]
        rintro part (rfl | rfl | rfl)
        · exact .inr ⟨.inl (.inr rfl), prevTouch⟩
        · exact .inr ⟨.inr (.inl rfl), touch⟩
        · exact .inl rfl
      obtain ⟨whole, union, -, isWhole⟩ := isHull.union parts (mem_cons_of_mem _ (mem_singleton_self entry))
        prevTouch
      rw [union]
      have shape : front ++ [prev] ++ next :: rest = front ++ [prev, next] ++ rest := by simp
      rw [shape] at spaced joinable few ⊢
      have unites := unites_rest front [prev, next] spaced boundsRest joinable notLessRest
        (by simp only [forall_mem_cons, not_mem_nil, false_imp_iff, implies_true, prevTouch, touch, and_self])
        below (isWhole.perm (perm_append_singleton entry [prev, next]))
      refine unites.congr (few.trans ?_)
      have some_ : ∃ other ∈ front ++ [prev], other.touches entry :=
        ⟨prev, mem_append_right _ (mem_singleton_self prev), prevTouch⟩
      simp only [some_, or_true, and_true]
      omega
    · -- The position moves to the previous entry, which is not joined.
      have gap := gap_below_of_not_touches prevLess prevTouch
      have start : joined.base = entry.base := by
        obtain ⟨first, inFirst, begins⟩ := isHull.first
        have lower := isHull.lower entry (mem_cons_of_mem _ (mem_singleton_self entry))
        have base := base_le_of_not_lt (notLess next mem_cons_self)
        rcases mem_pair.mp inFirst with rfl | rfl
        · omega
        · exact begins
      rw [(Range.union_none (by omega) (by omega)).1]
      dsimp only
      rw [combineNext_gap fun other head => by
        obtain rfl := Option.some.inj head
        omega]
      have apart : ∀ other ∈ front ++ [prev], ¬ other.touches entry := by
        rw [forall_mem_append]
        refine ⟨fun other member => ?_, forall_mem_singleton.mpr prevTouch⟩
        have far := below other member
        rw [Range.touches_iff]
        omega
      refine ⟨front ++ [prev], [next], rest, joined, by simp, by simp, isHull.perm (List.Perm.swap entry next []),
        forall_mem_singleton.mpr touch, ?_, notLessRest, few.trans ?_⟩
      · rw [forall_mem_append]
        exact ⟨below, forall_mem_singleton.mpr gap⟩
      · have none_ : ¬ (front ++ [prev] = [] ∨ ∃ other ∈ front ++ [prev], other.touches entry) := by
          rintro (nothing | ⟨other, member, touches⟩)
          · exact absurd nothing (by simp)
          · exact apart other member touches
        rw [← filter_touches_eq_nil]
        simp only [none_, and_false, or_false]
        omega

theorem combinePrevAndNext_gap (bounded : hull.base < 2 ^ 64)
    (below : ∀ prev ∈ before.getLast?, prev.base + prev.size < hull.base)
    (above : ∀ next ∈ after.head?, hull.base + hull.size < next.base ∧ next.base < 2 ^ 64) :
    combinePrevAndNext width before hull after = before ++ hull :: after := by
  rcases eq_nil_or_concat before with rfl | ⟨front, prev, rfl⟩
  · exact combineNext_gap above
  · rw [concat_eq_append] at *
    have gap := below prev getLast?_concat
    unfold combinePrevAndNext
    rw [getLast?_concat, dropLast_concat]
    dsimp only
    rw [(Range.union_none gap bounded).1]
    dsimp only
    rw [combineNext_gap fun other head => by
      obtain rfl := Option.some.inj head
      exact ⟨gap, bounded⟩]
    rw [append_assoc, singleton_append]

theorem unites_below {prev joined : Range}
    (spaced : Spaced (front ++ [prev] ++ after)) (bounds : ∀ other ∈ after, other.Bounded width)
    (entryBase : entry.base < 2 ^ 64) (less : ∀ other ∈ front ++ [prev], other.lt entry)
    (notLess : ∀ other ∈ after, ¬ other.lt entry) (touch : prev.touches entry)
    (apart : ∀ other ∈ after, ¬ other.touches entry) (isHull : Hull [prev, entry] joined) :
    Unites (front ++ [prev] ++ after) entry (combinePrevAndNext width front joined after)
      (Few (front ++ [prev] ++ after) entry) := by
  obtain ⟨-, -, across⟩ := pairwise_append.mp spaced.pairwise
  have belowPrev := below_last spaced
  have prevBase := base_le_of_lt (less prev (mem_append_right _ (mem_singleton_self prev)))
  have start : joined.base = prev.base := by
    obtain ⟨first, inFirst, begins⟩ := isHull.first
    have lower := isHull.lower prev mem_cons_self
    rcases mem_pair.mp inFirst with rfl | rfl
    · exact begins
    · omega
  have combined : combinePrevAndNext width front joined after = front ++ joined :: after := by
    refine combinePrevAndNext_gap (by omega) (fun other last => ?_) fun next head => ?_
    · rw [start]
      exact belowPrev other (mem_of_getLast? last)
    · have member := mem_of_mem_head? head
      refine ⟨?_, (bounds next member).base⟩
      obtain ⟨last, inLast, ends⟩ := isHull.last
      rw [ends]
      rcases mem_pair.mp inLast with rfl | rfl
      · exact across last (mem_append_right _ (mem_singleton_self last)) next member
      · exact gap_of_not_touches (notLess next member) (apart next member)
  have few : Few (front ++ [prev] ++ after) entry := by
    rw [few_parts less notLess, filter_touches_eq_nil.mpr apart]
    exact .inl (Nat.zero_le 1)
  refine ⟨front, [prev], after, joined, rfl, combined, isHull.perm (List.Perm.swap entry prev []),
    forall_mem_singleton.mpr touch, fun other member => ?_, notLess, iff_of_true few apart⟩
  exact lt_of_lt_of_le (belowPrev other member) prevBase

theorem unites_plain (less : ∀ other ∈ before, other.lt entry)
    (notLess : ∀ other ∈ after, ¬ other.lt entry) (apart : ∀ other ∈ before ++ after, ¬ other.touches entry) :
    Unites (before ++ after) entry (before ++ entry :: after) True := by
  refine ⟨before, [], after, entry, by simp, rfl, Hull.single entry, nofun, fun other member => ?_, notLess, ?_⟩
  · exact gap_below_of_not_touches (less other member) (apart other (mem_append_left _ member))
  · exact iff_of_true trivial fun other member => apart other (mem_append_right _ member)

theorem insert_unites {vector : RangeVector width} (spaced : Spaced vector.entries)
    (bounds : ∀ other ∈ vector.entries, other.Bounded width) (entryBase : entry.base < 2 ^ 64) :
    ((∀ other ∈ vector.entries, ¬ other.touches entry) →
        Unites vector.entries entry (vector.insert entry true).entries True) ∧
      (¬ (∀ other ∈ vector.entries, ¬ other.touches entry) → Joinable width (together vector.entries entry) →
        Unites vector.entries entry (vector.insert entry true).entries (Few vector.entries entry)) := by
  have split := (take_append_drop (vector.lowerBound entry) vector.entries).symm
  obtain ⟨less, notLess⟩ := lowerBound_parts spaced.sorted entry
  dsimp only [insert]
  generalize vector.entries.take (vector.lowerBound entry) = before at split less ⊢
  generalize vector.entries.drop (vector.lowerBound entry) = after at split notLess ⊢
  rw [split] at spaced bounds ⊢
  rw [if_pos rfl]
  have spacedAfter : Spaced after := List.IsChain.right_of_append spaced
  by_cases above : ∃ next ∈ after.head?, next.touches entry
  · obtain ⟨next, head, touch⟩ := above
    obtain ⟨rest, rfl⟩ := head?_eq_some_iff.mp head
    have member : next ∈ before ++ next :: rest := mem_append_right _ mem_cons_self
    refine ⟨fun apart => absurd touch (apart next member), fun _ joinable => ?_⟩
    obtain ⟨joined, union, isHull⟩ := union_entry joinable member touch
    rw [head?_cons, bind_some, union]
    exact unites_above spaced bounds entryBase less notLess joinable touch isHull
  · have apart : ∀ other ∈ after, ¬ other.touches entry := by
      have gaps := apart_of_head spacedAfter fun next head =>
        gap_of_not_touches (notLess next (mem_of_mem_head? head)) fun touches => above ⟨next, head, touches⟩
      exact fun other member => not_touches_of_gap (gaps other member)
    have nothing : (after.head?.bind fun next => next.union width entry) = none := by
      rw [bind_eq_none_iff]
      intro next head
      have member := mem_of_mem_head? head
      exact (Range.union_none (gap_of_not_touches (notLess next member) (apart next member))
        (bounds next (mem_append_right _ member)).base).2
    rw [nothing]
    dsimp only
    rcases eq_nil_or_concat before with rfl | ⟨front, prev, rfl⟩
    · exact ⟨fun _ => unites_plain less notLess apart, fun some_ => absurd apart some_⟩
    · rw [concat_eq_append] at *
      rw [getLast?_concat, dropLast_concat, bind_some]
      have member : prev ∈ front ++ [prev] ++ after :=
        mem_append_left _ (mem_append_right _ (mem_singleton_self prev))
      have prevLess := less prev (mem_append_right _ (mem_singleton_self prev))
      by_cases touch : prev.touches entry
      · refine ⟨fun none_ => absurd touch (none_ prev member), fun _ joinable => ?_⟩
        obtain ⟨joined, union, isHull⟩ := union_entry joinable member touch
        rw [union]
        exact unites_below spaced (fun other listed => bounds other (mem_append_right _ listed)) entryBase less
          notLess touch apart isHull
      · have gap := gap_below_of_not_touches prevLess touch
        rw [(Range.union_none gap entryBase).1]
        refine ⟨fun none_ => unites_plain less notLess none_, fun some_ => absurd ?_ some_⟩
        rw [forall_mem_append, forall_mem_append, forall_mem_singleton]
        refine ⟨⟨fun other listed => ?_, touch⟩, apart⟩
        have far := below_last spaced other listed
        have prevBase := base_le_of_lt prevLess
        rw [Range.touches_iff]
        omega

/-- Insertion with combining keeps the places and the gaps just if the entry touches nothing, or only as many ranges as
the insertion looks at, with ends and a span that are computed exactly.
-/
theorem insert_true_iff {vector : RangeVector width} {entry : Range} (spaced : Spaced vector.entries)
    (bounds : ∀ other ∈ vector.entries, other.Bounded width) (entryBounds : entry.Bounded width) :
    Inserted vector.entries entry (vector.insert entry true).entries ↔ Suits width vector.entries entry := by
  obtain ⟨plain, united⟩ := insert_unites spaced bounds entryBounds.base
  by_cases apart : ∀ other ∈ vector.entries, ¬ other.touches entry
  · exact iff_of_true (((plain apart).inserted_iff spaced).mpr trivial) (.inl apart)
  · constructor
    · intro inserted
      obtain ⟨touched, listed, touch⟩ : ∃ other ∈ vector.entries, other.touches entry := by
        by_contra nothing
        exact apart fun other member touches => nothing ⟨other, member, touches⟩
      have joinable := joinable_of_inserted spaced bounds entryBounds inserted listed touch
      exact .inr ⟨joinable, ((united apart joinable).inserted_iff spaced).mp inserted⟩
    · intro suits
      obtain ⟨joinable, few⟩ := suits.resolve_left apart
      exact ((united apart joinable).inserted_iff spaced).mpr few

def islands : RangeVector 32 := ⟨[⟨0, 10⟩, ⟨20, 10⟩, ⟨40, 10⟩]⟩

theorem insert_true_iff_islands : Inserted islands.entries ⟨10, 10⟩ (islands.insert ⟨10, 10⟩ true).entries := by
  have spaced : Spaced islands.entries := by
    unfold Spaced
    decide
  have bounds : ∀ other ∈ islands.entries, other.Bounded 32 := by
    simp only [islands, forall_mem_cons]
    exact ⟨⟨by decide, by decide⟩, ⟨by decide, by decide⟩, ⟨by decide, by decide⟩, nofun⟩
  refine (insert_true_iff spaced bounds ⟨by decide, by decide⟩).mpr (.inr ⟨?_, .inl (by decide)⟩)
  have both : together islands.entries ⟨10, 10⟩ = [⟨10, 10⟩, ⟨0, 10⟩, ⟨20, 10⟩] := by decide
  rw [both]
  simp [Joinable]

/-- An entry that reaches into four others: only two of them are joined. -/
theorem insert_true_leaves : ¬ ∀ (vector : RangeVector 64) (entry : Range), Spaced vector.entries →
    (∀ other ∈ vector.entries, other.Bounded 64) → entry.Bounded 64 → 0 < entry.size →
      Inserted vector.entries entry (vector.insert entry true).entries := by
  intro claim
  have bounds : ∀ other ∈ [(⟨0, 10⟩ : Range), ⟨20, 10⟩, ⟨40, 10⟩, ⟨60, 10⟩], other.Bounded 64 := by
    simp only [forall_mem_cons]
    exact ⟨⟨by decide, by decide⟩, ⟨by decide, by decide⟩, ⟨by decide, by decide⟩, ⟨by decide, by decide⟩, nofun⟩
  have spaced := (claim ⟨[⟨0, 10⟩, ⟨20, 10⟩, ⟨40, 10⟩, ⟨60, 10⟩]⟩ ⟨5, 60⟩ (by unfold Spaced; decide) bounds
    ⟨by decide, by decide⟩ (by decide)).spaced
  rw [show (insert ⟨[⟨0, 10⟩, ⟨20, 10⟩, ⟨40, 10⟩, ⟨60, 10⟩]⟩ ⟨5, 60⟩ true : RangeVector 64).entries =
    [⟨0, 65⟩, ⟨60, 10⟩] by decide] at spaced
  exact absurd (isChain_cons_cons.mp spaced).1 (by decide)

end RangeVector

end Lldb
