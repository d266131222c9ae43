import Mathlib.Algebra.Order.Ring.Int

/-! Finite maps kept as strictly increasing association lists.

A position is an index into the entries, as an iterator of an ordered container
is: `upperBound` is the first position whose key exceeds the given one, and
`eraseWhile` deletes from a position on for as long as a test holds.
-/

set_option autoImplicit false

namespace Library

open List Option

structure OrderedMap (κ ν : Type) [LinearOrder κ] where
  entries : List (κ × ν)
  sorted : entries.Pairwise fun first second => first.1 < second.1

namespace OrderedMap

variable {κ ν : Type} [LinearOrder κ]

def empty : OrderedMap κ ν := ⟨[], .nil⟩

instance : Inhabited (OrderedMap κ ν) := ⟨empty⟩

def isEmpty (map : OrderedMap κ ν) : Bool := map.entries.isEmpty

def find? (map : OrderedMap κ ν) (key : κ) : Option ν :=
  (map.entries.find? fun entry => entry.1 = key).map Prod.snd

def insertEntry (key : κ) (value : ν) : List (κ × ν) → List (κ × ν)
  | [] => [(key, value)]
  | entry :: rest =>
      if key < entry.1 then (key, value) :: entry :: rest
      else if key = entry.1 then (key, value) :: rest
      else entry :: insertEntry key value rest

/-- Position of the first entry whose key exceeds `key`. -/
def upperBound (map : OrderedMap κ ν) (key : κ) : Nat :=
  (map.entries.takeWhile fun entry => entry.1 ≤ key).length

/-- The entries an iterator still has to visit after the one at `key`. -/
def after (map : OrderedMap κ ν) (key : κ) : List (κ × ν) :=
  map.entries.drop (map.upperBound key)

variable {key : κ} {entries : List (κ × ν)} {map : OrderedMap κ ν} {entry : κ × ν}

theorem mem_insertEntry {value : ν} (sorted : entries.Pairwise fun first second => first.1 < second.1) (entry : κ × ν) :
    entry ∈ insertEntry key value entries ↔ entry = (key, value) ∨ entry ∈ entries ∧ entry.1 ≠ key := by
  induction entries with
  | nil => simp [insertEntry]
  | cons first rest ih =>
    obtain ⟨below, tail⟩ := pairwise_cons.mp sorted
    have larger : ∀ other ∈ rest, first.1 < other.1 := below
    by_cases before : key < first.1
    · simp only [insertEntry, before, if_true, mem_cons]
      constructor
      · rintro (same | same | member)
        · exact .inl same
        · subst same
          exact .inr ⟨.inl rfl, before.ne'⟩
        · exact .inr ⟨.inr member, (before.trans (larger entry member)).ne'⟩
      · rintro (same | ⟨member, _⟩)
        · exact .inl same
        · exact .inr member
    · by_cases same : key = first.1
      · rw [insertEntry, if_neg before, if_pos same, mem_cons, mem_cons, same]
        constructor
        · rintro (fresh | member)
          · exact .inl fresh
          · exact .inr ⟨.inr member, (larger entry member).ne'⟩
        · rintro (fresh | ⟨old | member, other⟩)
          · exact .inl fresh
          · exact absurd (congrArg Prod.fst old) other
          · exact .inr member
      · simp only [insertEntry, before, if_false, same, mem_cons, ih tail]
        constructor
        · rintro (old | fresh | ⟨member, other⟩)
          · subst old
            exact .inr ⟨.inl rfl, fun equal => same equal.symm⟩
          · exact .inl fresh
          · exact .inr ⟨.inr member, other⟩
        · rintro (fresh | ⟨old | member, other⟩)
          · exact .inr (.inl fresh)
          · exact .inl old
          · exact .inr (.inr ⟨member, other⟩)

theorem insertEntry_sorted (key : κ) (value : ν) (sorted : entries.Pairwise fun first second => first.1 < second.1) :
    (insertEntry key value entries).Pairwise fun first second => first.1 < second.1 := by
  induction entries with
  | nil => exact .cons (by simp) .nil
  | cons first rest ih =>
    obtain ⟨below, tail⟩ := pairwise_cons.mp sorted
    simp only [insertEntry]
    split
    · rename_i before
      refine .cons (fun other member => ?_) sorted
      rcases mem_cons.mp member with same | member
      · exact same ▸ before
      · exact before.trans (below other member)
    · split
      · rename_i same
        exact .cons (fun other member => same ▸ below other member) tail
      · rename_i before same
        refine .cons (fun other member => ?_) (ih tail)
        rcases (mem_insertEntry tail other).mp member with fresh | ⟨old, _⟩
        · exact fresh ▸ lt_of_le_of_ne (not_lt.mp before) (Ne.symm same)
        · exact below other old

def insert (map : OrderedMap κ ν) (key : κ) (value : ν) : OrderedMap κ ν :=
  ⟨insertEntry key value map.entries, insertEntry_sorted key value map.sorted⟩

def erase (map : OrderedMap κ ν) (key : κ) : OrderedMap κ ν :=
  ⟨map.entries.filter fun entry => entry.1 ≠ key, map.sorted.filter _⟩

/-- Delete the entries from `position` on, up to the first one that fails `test`. -/
def eraseWhile (map : OrderedMap κ ν) (position : Nat) (test : κ × ν → Bool) : OrderedMap κ ν where
  entries := map.entries.take position ++ (map.entries.drop position).dropWhile test
  sorted := by
    have kept : (map.entries.take position ++ (map.entries.drop position).dropWhile test).Sublist
        (map.entries.take position ++ map.entries.drop position) :=
      (List.Sublist.refl _).append (dropWhile_sublist test)
    rw [take_append_drop] at kept
    exact map.sorted.sublist kept

theorem mem_insert (map : OrderedMap κ ν) (key : κ) (value : ν) (entry : κ × ν) :
    entry ∈ (map.insert key value).entries ↔ entry = (key, value) ∨ entry ∈ map.entries ∧ entry.1 ≠ key :=
  mem_insertEntry map.sorted entry

theorem mem_erase (map : OrderedMap κ ν) (key : κ) (entry : κ × ν) :
    entry ∈ (map.erase key).entries ↔ entry ∈ map.entries ∧ entry.1 ≠ key := by
  simp [erase]

def filter (map : OrderedMap κ ν) (test : κ × ν → Bool) : OrderedMap κ ν :=
  ⟨map.entries.filter test, map.sorted.filter test⟩

theorem mem_filter (map : OrderedMap κ ν) (test : κ × ν → Bool) (entry : κ × ν) :
    entry ∈ (map.filter test).entries ↔ entry ∈ map.entries ∧ test entry := List.mem_filter

/-- Insertion of a key that an ordered container leaves as it is when the key is there. -/
def insertNew (map : OrderedMap κ ν) (key : κ) (value : ν) : OrderedMap κ ν :=
  if map.entries.any fun entry => entry.1 = key then map else map.insert key value

theorem mem_insertNew (map : OrderedMap κ ν) (key : κ) (value : ν) (entry : κ × ν) :
    entry ∈ (map.insertNew key value).entries ↔
      entry ∈ map.entries ∨ entry = (key, value) ∧ ∀ old ∈ map.entries, old.1 ≠ key := by
  unfold insertNew
  split
  · rename_i there
    obtain ⟨old, member, same⟩ := any_eq_true.mp there
    refine ⟨.inl, fun either => either.elim id fun fresh => ?_⟩
    exact absurd (of_decide_eq_true same) (fresh.2 old member)
  · rename_i absent
    have fresh : ∀ old ∈ map.entries, old.1 ≠ key := by
      intro old member same
      exact absent (any_eq_true.mpr ⟨old, member, decide_eq_true same⟩)
    rw [mem_insert]
    constructor
    · rintro (added | ⟨member, -⟩)
      · exact .inr ⟨added, fresh⟩
      · exact .inl member
    · rintro (member | ⟨added, -⟩)
      · exact .inr ⟨member, fresh entry member⟩
      · exact .inl added

theorem filter_congr {test other : κ × ν → Bool}
    (same : ∀ entry ∈ map.entries, test entry = other entry) : map.filter test = map.filter other := by
  unfold filter
  simp [List.filter_congr same]

theorem mem_foldl_insertNew_of_mem {value : ν} (keys : List κ)
    (member : entry ∈ map.entries) : entry ∈ (keys.foldl (fun map key => map.insertNew key value) map).entries := by
  induction keys generalizing map with
  | nil => exact member
  | cons key keys ih => exact ih ((mem_insertNew _ _ _ _).mpr (.inl member))

theorem mem_foldl_insertNew {value : ν} {keys : List κ} (member : key ∈ keys)
    (fresh : ∀ old ∈ map.entries, old.1 ≠ key) :
    (key, value) ∈ (keys.foldl (fun map key => map.insertNew key value) map).entries := by
  induction keys generalizing map with
  | nil => cases member
  | cons first keys ih =>
    by_cases same : first = key
    · subst same
      exact mem_foldl_insertNew_of_mem keys ((mem_insertNew _ _ _ _).mpr (.inr ⟨rfl, fresh⟩))
    · refine ih ((mem_cons.mp member).resolve_left (Ne.symm same)) fun old old_ => ?_
      rcases (mem_insertNew _ _ _ _).mp old_ with before | ⟨rfl, -⟩
      · exact fresh old before
      · exact same

theorem eq_of_key_eq (map : OrderedMap κ ν) {first second : κ × ν}
    (left : first ∈ map.entries) (right : second ∈ map.entries) (same : first.1 = second.1) :
    first = second := by
  have forward : map.entries.Pairwise fun x y => x.1 = y.1 → x = y :=
    map.sorted.imp fun below equal => absurd equal below.ne
  have backward : map.entries.Pairwise (flip fun x y => x.1 = y.1 → x = y) :=
    map.sorted.imp fun below equal => absurd equal below.ne'
  exact forward.forall_of_forall_of_flip (fun _ _ _ => rfl) backward left right same

theorem find?_eq_some_iff (map : OrderedMap κ ν) (key : κ) (value : ν) :
    map.find? key = some value ↔ (key, value) ∈ map.entries := by
  unfold find?
  constructor
  · intro found
    obtain ⟨entry, lookup, rfl⟩ := map_eq_some_iff.mp found
    have same : entry.1 = key := by simpa using find?_some lookup
    have member := mem_of_find?_eq_some lookup
    rw [← same]
    exact member
  · intro member
    cases lookup : map.entries.find? fun entry => entry.1 = key with
    | none =>
      have absent := find?_eq_none.mp lookup (key, value) member
      simp at absent
    | some entry =>
      have same : entry.1 = key := by simpa using find?_some lookup
      have equal := map.eq_of_key_eq (mem_of_find?_eq_some lookup) member same
      simp [equal]

theorem find?_insert_self (map : OrderedMap κ ν) (key : κ) (value : ν) :
    (map.insert key value).find? key = some value :=
  ((map.insert key value).find?_eq_some_iff key value).mpr
    ((map.mem_insert key value (key, value)).mpr (.inl rfl))

theorem find?_congr {other : OrderedMap κ ν}
    (same : ∀ value, (key, value) ∈ map.entries ↔ (key, value) ∈ other.entries) : map.find? key = other.find? key := by
  refine Option.ext fun value => ?_
  simp [find?_eq_some_iff, same]

theorem find?_insert_of_ne (map : OrderedMap κ ν) {other : κ} (value : ν) (ne : other ≠ key) :
    (map.insert key value).find? other = map.find? other := by
  refine find?_congr fun held => ?_
  rw [mem_insert]
  simp [ne]

theorem insertNew_eq_insert (absent : map.find? key = none) (value : ν) :
    map.insertNew key value = map.insert key value := by
  refine if_neg fun there => ?_
  obtain ⟨old, member, same⟩ := any_eq_true.mp there
  have found := (map.find?_eq_some_iff key old.2).mpr (of_decide_eq_true same ▸ member)
  rw [absent] at found
  cases found

theorem find?_erase_self (map : OrderedMap κ ν) (key : κ) : (map.erase key).find? key = none := by
  refine eq_none_iff_forall_ne_some.mpr fun value found => ?_
  rw [find?_eq_some_iff, mem_erase] at found
  exact found.2 rfl

theorem find?_erase_of_ne (map : OrderedMap κ ν) {other : κ} (ne : other ≠ key) :
    (map.erase key).find? other = map.find? other := by
  refine find?_congr fun held => ?_
  rw [mem_erase, and_iff_left ne]

theorem after_eq_dropWhile (map : OrderedMap κ ν) (key : κ) :
    map.after key = map.entries.dropWhile fun entry => entry.1 ≤ key := by
  have parts := takeWhile_append_dropWhile (p := fun entry => entry.1 ≤ key) (l := map.entries)
  calc map.after key
      = (map.entries.takeWhile _ ++ map.entries.dropWhile _).drop (map.upperBound key) :=
        congrArg (List.drop _) parts.symm
    _ = map.entries.dropWhile _ := drop_left

theorem mem_of_mem_after (map : OrderedMap κ ν) (member : entry ∈ map.after key) : entry ∈ map.entries :=
  mem_of_mem_drop member

theorem after_insert (map : OrderedMap κ ν) (key : κ) (value : ν) :
    (map.insert key value).after key = map.after key := by
  rw [after_eq_dropWhile, after_eq_dropWhile]
  change (insertEntry key value map.entries).dropWhile _ = _
  induction map.entries with
  | nil => simp [insertEntry]
  | cons first rest ih =>
    simp only [insertEntry]
    split
    · rw [dropWhile_cons_of_pos (by simp)]
    · split
      · rename_i same
        rw [dropWhile_cons_of_pos (by simp), dropWhile_cons_of_pos (by simp [same])]
      · rename_i before _
        have le : first.1 ≤ key := not_lt.mp before
        rw [dropWhile_cons_of_pos (by simpa using le), dropWhile_cons_of_pos (by simpa using le), ih]

private theorem mem_dropWhile_sorted {test : κ × ν → Bool}
    (sorted : entries.Pairwise fun first second => first.1 < second.1) (entry : κ × ν) :
    entry ∈ entries.dropWhile test ↔ entry ∈ entries ∧ ¬ ∀ other ∈ entries, other.1 ≤ entry.1 → test other = true := by
  induction entries with
  | nil => simp
  | cons first rest ih =>
    obtain ⟨below, tail⟩ := pairwise_cons.mp sorted
    by_cases holds : test first = true
    · rw [dropWhile_cons_of_pos holds, ih tail]
      constructor
      · rintro ⟨member, blocked⟩
        exact ⟨.tail _ member, fun all =>
          blocked fun other inRest le => all other (.tail _ inRest) le⟩
      · rintro ⟨member, blocked⟩
        have restBlocked : ¬ ∀ other ∈ rest, other.1 ≤ entry.1 → test other = true := by
          intro all
          apply blocked
          intro other inside le
          rcases mem_cons.mp inside with same | inRest
          · exact same ▸ holds
          · exact all other inRest le
        rcases mem_cons.mp member with same | member
        · subst same
          refine absurd ?_ restBlocked
          intro other inRest le
          exact absurd (below other inRest) (not_lt.mpr le)
        · exact ⟨member, restBlocked⟩
    · rw [dropWhile_cons_of_neg holds]
      constructor
      · intro member
        refine ⟨member, fun all => holds (all first (.head _) ?_)⟩
        rcases mem_cons.mp member with same | inRest
        · exact same ▸ le_rfl
        · exact (below entry inRest).le
      · exact And.left

/-- What an `eraseWhile` walk deletes: the entries reached through entries that all
pass the test. -/
theorem mem_eraseWhile (map : OrderedMap κ ν) (position : Nat) (test : κ × ν → Bool) (entry : κ × ν) :
    entry ∈ (map.eraseWhile position test).entries ↔ entry ∈ map.entries ∧ ¬ (entry ∈ map.entries.drop position ∧
        ∀ other ∈ map.entries.drop position, other.1 ≤ entry.1 → test other = true) := by
  have whole : ∀ other : κ × ν, other ∈ map.entries ↔
      other ∈ map.entries.take position ∨ other ∈ map.entries.drop position := by
    intro other
    simp [← mem_append]
  have sorted := map.sorted
  rw [← take_append_drop position map.entries] at sorted
  obtain ⟨_, right, cross⟩ := pairwise_append.mp sorted
  have disjoint : entry ∈ map.entries.take position → entry ∉ map.entries.drop position :=
    fun left inside => lt_irrefl _ (cross entry left entry inside)
  simp only [eraseWhile, mem_append, mem_dropWhile_sorted right, whole entry]
  constructor
  · rintro (left | ⟨inside, blocked⟩)
    · exact ⟨.inl left, fun reached => disjoint left reached.1⟩
    · exact ⟨.inr inside, fun reached => blocked reached.2⟩
  · rintro ⟨left | inside, blocked⟩
    · exact .inl left
    · exact .inr ⟨inside, fun all => blocked ⟨inside, all⟩⟩

/-- Position of the first entry whose key is not below `key`. -/
def lowerBound (map : OrderedMap κ ν) (key : κ) : Nat :=
  (map.entries.takeWhile fun entry => entry.1 < key).length

/-- The entry at the lower bound of `key`, or the one before it where that lies beyond `key`. -/
def atOrBefore (map : OrderedMap κ ν) (key : κ) : Option (κ × ν) :=
  let position := map.lowerBound key
  match map.entries[position]?.filter fun entry => ¬ key < entry.1 with
  | some entry => some entry
  | none => if position = 0 then none else map.entries[position - 1]?

theorem split_lowerBound (map : OrderedMap κ ν) (key : κ) :
    ∃ front back, map.entries = front ++ back ∧ map.lowerBound key = front.length ∧
      (∀ entry ∈ front, entry.1 < key) ∧ ∀ entry ∈ back, key ≤ entry.1 := by
  refine ⟨_, _, (takeWhile_append_dropWhile (p := fun entry => entry.1 < key)).symm, rfl,
    fun entry member => by simpa using all_eq_true.mp all_takeWhile entry member, ?_⟩
  have sorted := map.sorted
  rw [← takeWhile_append_dropWhile (p := fun entry => entry.1 < key) (l := map.entries)] at sorted
  have tail := (pairwise_append.mp sorted).2.1
  intro entry member
  cases rest : map.entries.dropWhile fun entry => entry.1 < key with
  | nil =>
    rw [rest] at member
    cases member
  | cons first others =>
    have stopped : ¬ first.1 < key := by
      have head := head_dropWhile_not (fun entry : κ × ν => decide (entry.1 < key)) (l := map.entries)
      simpa [rest] using head
    rw [rest] at member tail
    rcases mem_cons.mp member with rfl | member
    · exact not_lt.mp stopped
    · exact (not_lt.mp stopped).trans ((pairwise_cons.mp tail).1 entry member).le

theorem le_last_of_sorted {front : List (κ × ν)} (sorted : front.Pairwise fun first second => first.1 < second.1)
    (last : front.getLast? = some entry) : ∀ other ∈ front, other.1 ≤ entry.1 := by
  obtain ⟨before, rfl⟩ := getLast?_eq_some_iff.mp last
  intro other member
  rcases mem_append.mp member with earlier | same
  · exact ((pairwise_append.mp sorted).2.2 other earlier entry (mem_singleton_self entry)).le
  · rw [mem_singleton.mp same]

theorem atOrBefore_spec (map : OrderedMap κ ν) (key : κ) : match map.atOrBefore key with
    | some entry => entry ∈ map.entries ∧ entry.1 ≤ key ∧ ∀ other ∈ map.entries, other.1 ≤ key → other.1 ≤ entry.1
    | none => ∀ other ∈ map.entries, key < other.1 := by
  obtain ⟨front, back, split, position, below, above⟩ := map.split_lowerBound key
  have sorted := map.sorted
  rw [split] at sorted
  obtain ⟨frontSorted, backSorted, -⟩ := pairwise_append.mp sorted
  have first : map.entries[map.lowerBound key]? = back.head? := by
    simp [split, position, List.getElem?_append_right (Nat.le_refl _), List.head?_eq_getElem?]
  cases here : back.head?.filter fun entry => ¬ key < entry.1 with
  | some entry =>
    obtain ⟨head, least⟩ := filter_eq_some_iff.mp here
    have member : entry ∈ map.entries := by
      rw [split]
      exact mem_append_right front (mem_of_mem_head? head)
    have reached : key = entry.1 := le_antisymm (above entry (mem_of_mem_head? head)) (by simpa using least)
    simp only [atOrBefore, first, here]
    exact ⟨member, reached.ge, fun other _ atMost => atMost.trans reached.le⟩
  | none =>
    -- Everything from the lower bound on lies beyond the key.
    have beyond : ∀ other ∈ back, key < other.1 := by
      intro other member
      cases back with
      | nil => cases member
      | cons head rest =>
        have past : key < head.1 := by simpa using here
        rcases mem_cons.mp member with rfl | member
        · exact past
        · exact past.trans ((pairwise_cons.mp backSorted).1 other member)
    have last : map.atOrBefore key = front.getLast? := by
      rw [atOrBefore]
      simp only [first, here]
      rw [position]
      by_cases empty : front.length = 0
      · simp [length_eq_zero_iff.mp empty]
      · rw [if_neg empty, split, getElem?_append_left (by omega), getLast?_eq_getElem?]
    rw [last]
    cases found : front.getLast? with
    | some entry =>
      have member := mem_of_getLast? found
      refine ⟨split ▸ mem_append_left back member, (below entry member).le, fun other inside atMost => ?_⟩
      rw [split] at inside
      rcases mem_append.mp inside with earlier | later
      · exact le_last_of_sorted frontSorted found other earlier
      · exact absurd atMost (not_le.mpr (beyond other later))
    | none =>
      intro other inside
      rw [split, getLast?_eq_none_iff.mp found] at inside
      exact beyond other inside

theorem atOrBefore_eq_some_iff (map : OrderedMap κ ν) (key : κ) (entry : κ × ν) :
    map.atOrBefore key = some entry ↔ entry ∈ map.entries ∧ entry.1 ≤ key ∧
      ∀ other ∈ map.entries, other.1 ≤ key → other.1 ≤ entry.1 := by
  have spec := map.atOrBefore_spec key
  constructor
  · intro found
    rw [found] at spec
    exact spec
  · rintro ⟨member, atMost, largest⟩
    cases found : map.atOrBefore key with
    | none =>
      rw [found] at spec
      exact absurd atMost (not_le.mpr (spec entry member))
    | some other =>
      rw [found] at spec
      obtain ⟨inside, bounded, maximal⟩ := spec
      have same := le_antisymm (largest other inside bounded) (maximal entry member atMost)
      rw [map.eq_of_key_eq inside member same]

/-- In ascending entries, those in front of the first key beyond a bound are those up to the bound. -/
theorem mem_takeWhile_of_sorted
    (sorted : entries.Pairwise fun first second => first.1 < second.1) (bound : κ) (entry : κ × ν) :
    entry ∈ entries.takeWhile (fun entry => decide (entry.1 ≤ bound)) ↔ entry ∈ entries ∧ entry.1 ≤ bound := by
  induction entries with
  | nil => simp
  | cons first rest ih =>
    obtain ⟨larger, tail⟩ := pairwise_cons.mp sorted
    by_cases within : first.1 ≤ bound
    · rw [takeWhile_cons_of_pos (by simpa using within), mem_cons, mem_cons, ih tail]
      constructor
      · rintro (rfl | ⟨member, reached⟩)
        · exact ⟨.inl rfl, within⟩
        · exact ⟨.inr member, reached⟩
      · rintro ⟨rfl | member, reached⟩
        · exact .inl rfl
        · exact .inr ⟨member, reached⟩
    · rw [takeWhile_cons_of_neg (by simpa using within)]
      constructor
      · nofun
      · rintro ⟨member, reached⟩
        rcases mem_cons.mp member with rfl | later
        · exact absurd reached within
        · exact absurd ((larger entry later).le.trans reached) within

theorem between_bounds (map : OrderedMap κ ν) {lower upper : κ} (ordered : lower ≤ upper) :
    ∃ front back, map.entries = front ++ back ∧ map.lowerBound lower = front.length ∧
      (∀ entry ∈ front, entry.1 < lower) ∧ (∀ entry ∈ back, lower ≤ entry.1) ∧
      (map.entries.take (map.upperBound upper)).drop (map.lowerBound lower) =
        back.takeWhile fun entry => decide (entry.1 ≤ upper) := by
  obtain ⟨front, back, split, position, below, above⟩ := map.split_lowerBound lower
  refine ⟨front, back, split, position, below, above, ?_⟩
  have taken : map.entries.take (map.upperBound upper) =
      map.entries.takeWhile fun entry => decide (entry.1 ≤ upper) := by
    have parts := takeWhile_append_dropWhile (p := fun entry : κ × ν => decide (entry.1 ≤ upper))
      (l := map.entries)
    calc map.entries.take (map.upperBound upper)
        = (map.entries.takeWhile (fun entry => decide (entry.1 ≤ upper)) ++
            map.entries.dropWhile fun entry => decide (entry.1 ≤ upper)).take (map.upperBound upper) := by rw [parts]
      _ = map.entries.takeWhile fun entry => decide (entry.1 ≤ upper) := take_left
  rw [taken, split, position, takeWhile_append_of_pos
    fun entry member => decide_eq_true ((below entry member).le.trans ordered), drop_left]

theorem any_lowerBound (map : OrderedMap κ ν) (key : κ) :
    (map.entries[map.lowerBound key]?.any fun entry => entry.1 = key) = (map.find? key).isSome := by
  obtain ⟨front, back, split, position, below, above⟩ := map.split_lowerBound key
  have first : map.entries[map.lowerBound key]? = back.head? := by
    simp [split, position, List.getElem?_append_right (Nat.le_refl _), List.head?_eq_getElem?]
  have sorted := map.sorted
  rw [split] at sorted
  have tail := (pairwise_append.mp sorted).2.1
  rw [Bool.eq_iff_iff, first, isSome_iff_exists]
  constructor
  · intro there
    obtain ⟨entry, head, same⟩ := (any_eq_true _ _).mp there
    refine ⟨entry.2, (map.find?_eq_some_iff key entry.2).mpr ?_⟩
    rw [← of_decide_eq_true same, split]
    exact mem_append_right _ (mem_of_head? head)
  · rintro ⟨value, found⟩
    have member := (map.find?_eq_some_iff key value).mp found
    rw [split, mem_append] at member
    have later : (key, value) ∈ back := member.resolve_left fun early => lt_irrefl _ (below _ early)
    cases back with
    | nil => cases later
    | cons entry rest =>
      rcases mem_cons.mp later with rfl | behind
      · simp
      · have larger := (pairwise_cons.mp tail).1 _ behind
        exact absurd (above entry mem_cons_self) (not_le.mpr larger)

theorem atOrBefore_eq (map : OrderedMap κ ν) (key : κ) : map.atOrBefore key = match map.find? key with
      | some value => some (key, value)
      | none => if map.lowerBound key = 0 then none else map.entries[map.lowerBound key - 1]? := by
  cases found : map.find? key with
  | some value =>
    rw [atOrBefore_eq_some_iff]
    exact ⟨(map.find?_eq_some_iff key value).mp found, le_rfl, fun _ _ le => le⟩
  | none =>
    have absent := map.any_lowerBound key
    rw [found, isSome_none] at absent
    obtain ⟨front, back, split, position, below, above⟩ := map.split_lowerBound key
    have first : map.entries[map.lowerBound key]? = back.head? := by
      simp [split, position, List.getElem?_append_right (Nat.le_refl _), List.head?_eq_getElem?]
    have beyond : (map.entries[map.lowerBound key]?.filter fun entry => ¬ key < entry.1) = none := by
      rw [first] at absent ⊢
      refine filter_eq_none_iff.mpr fun entry head => ?_
      have at_ := above entry (mem_of_head? head)
      have ne : entry.1 ≠ key := by
        intro same
        rw [head, any_some, decide_eq_false_iff_not] at absent
        exact absent same
      simpa using lt_of_le_of_ne at_ ne.symm
    simp only [atOrBefore, beyond]

end OrderedMap

end Library
