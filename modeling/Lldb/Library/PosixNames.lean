import Lldb.Library.PosixPath

/-! The last component of a POSIX path and what stands in front of it.

Every path is a front, a run of slashes and a last name, and the run of slashes is as long as it can be.
-/

set_option autoImplicit false

namespace Library.PosixPath

open List

def lastName (path : Path) : Path := path.rtakeWhile (· ≠ slash)

def separators (path : Path) : Nat := ((path.rdropWhile (· ≠ slash)).rtakeWhile (· = slash)).length

def front (path : Path) : Path := (path.rdropWhile (· ≠ slash)).rdropWhile (· = slash)

def bareName (path : Path) : Bool := (root path).bare

def filename (path : Path) : Path :=
  if lastName path = [] then
    if separators path = 0 then [] else if front path = [] ∨ bareName (front path) then [slash] else [dot]
  else if front path = [] ∧ separators path = 2 then path
  else lastName path

def parentPath (path : Path) : Path :=
  if front path = [] then
    if lastName path = [] ∨ separators path = 0 ∨ separators path = 2 then [] else [slash]
  else if lastName path ≠ [] ∧ bareName (front path) then front path ++ [slash]
  else front path

def append (path component : Path) : Path :=
  if path.getLast? = some slash then path ++ component.dropWhile (· = slash)
  else if path = [] ∨ component.head? = some slash then path ++ component
  else path ++ slash :: component

/-- What stands in front of the slashes, how many of them there are, and the name behind them. -/
structure Cut (before : Path) (count : Nat) (name : Path) : Prop where
  plain : slash ∉ name
  ended : before.getLast? ≠ some slash
  apart : count = 0 → before = []

def joined (before : Path) (count : Nat) (name : Path) : Path := before ++ replicate count slash ++ name

theorem Cut.one {before name : Path} (plain : slash ∉ name) (ended : before.getLast? ≠ some slash) :
    Cut before 1 name :=
  ⟨plain, ended, fun none => absurd none (by decide)⟩

/-! Cutting a list behind the last element without a property. -/

theorem takeWhile_rev {α : Type} {property : α → Bool} {start : List α}
    (stops : ∀ c ∈ start.getLast?, property c = false)
    (tail : List α) (all : ∀ c ∈ tail, property c = true) :
    (start ++ tail).rtakeWhile property = tail ∧ (start ++ tail).rdropWhile property = start := by
  have all' : ∀ c ∈ tail.reverse, property c = true := fun c member => all c (mem_reverse.mp member)
  rw [rtakeWhile, rdropWhile, reverse_append, takeWhile_append_of_pos all', dropWhile_append_of_pos all']
  rw [← head?_reverse] at stops
  have nothing : start.reverse.takeWhile property = [] ∧ start.reverse.dropWhile property = start.reverse := by
    cases here : start.reverse with
    | nil => exact ⟨rfl, rfl⟩
    | cons c rest =>
      have stop : property c = false := stops c (by rw [here]; rfl)
      rw [takeWhile_cons, dropWhile_cons, stop]
      exact ⟨rfl, rfl⟩
  rw [nothing.1, nothing.2, append_nil, reverse_reverse, reverse_reverse]
  exact ⟨rfl, rfl⟩

theorem getLast?_rdropWhile {α : Type} {property : α → Bool} (whole : List α) :
    ∀ c ∈ (whole.rdropWhile property).getLast?, property c = false := by
  intro c last
  obtain ⟨some_, rfl⟩ := mem_getLast?_eq_getLast last
  have stop := rdropWhile_last_not property whole some_
  rwa [Bool.not_eq_true] at stop

section Cut

variable {before name : Path} {count : Nat} (cut : Cut before count name)

include cut

private theorem last_joined : lastName (joined before count name) = name ∧
    (joined before count name).rdropWhile (· ≠ slash) = before ++ replicate count slash := by
  refine takeWhile_rev (fun c last => ?_) name fun c member => ?_
  · cases count with
    | zero =>
      rw [cut.apart rfl] at last
      cases last
    | succ count =>
      rw [replicate_succ', ← append_assoc, getLast?_concat] at last
      cases last
      rfl
  · exact decide_eq_true fun same => cut.plain (same ▸ member)

private theorem slashes_joined : (before ++ replicate count slash).rtakeWhile (· = slash) = replicate count slash ∧
      (before ++ replicate count slash).rdropWhile (· = slash) = before := by
  refine takeWhile_rev (fun c last => ?_) _ fun c member => ?_
  · exact decide_eq_false fun same => cut.ended (same ▸ last)
  · exact decide_eq_true (eq_of_mem_replicate member)

theorem lastName_joined : lastName (joined before count name) = name := (last_joined cut).1

theorem separators_joined : separators (joined before count name) = count := by
  rw [separators, (last_joined cut).2, (slashes_joined cut).1, length_replicate]

theorem front_joined : front (joined before count name) = before := by
  rw [front, (last_joined cut).2, (slashes_joined cut).2]

theorem filename_joined : filename (joined before count name) =
    if name = [] then if count = 0 then [] else if before = [] ∨ bareName before then [slash] else [dot]
    else if before = [] ∧ count = 2 then slash :: slash :: name else name := by
  unfold filename
  rw [lastName_joined cut, separators_joined cut, front_joined cut]
  by_cases netted : before = [] ∧ count = 2
  · rw [netted.1, netted.2]
    rfl
  · simp [if_neg netted]

theorem parentPath_joined : parentPath (joined before count name) =
    if before = [] then if name = [] ∨ count = 0 ∨ count = 2 then [] else [slash]
    else if name ≠ [] ∧ bareName before then before ++ [slash] else before := by
  rw [parentPath, lastName_joined cut, separators_joined cut, front_joined cut]

end Cut

theorem exists_cut (path : Path) : ∃ before count name, Cut before count name ∧ path = joined before count name := by
  have slashes : (path.rdropWhile (· ≠ slash)).rtakeWhile (· = slash) = replicate (separators path) slash :=
    eq_replicate_iff.mpr ⟨rfl, fun c member => by simpa using mem_rtakeWhile_imp member⟩
  have start : front path ++ replicate (separators path) slash = path.rdropWhile (· ≠ slash) := by
    rw [← slashes]
    exact rdropWhile_append_rtakeWhile
  have whole : joined (front path) (separators path) (lastName path) = path := by
    rw [joined, start]
    exact rdropWhile_append_rtakeWhile
  have ended : ∀ c ∈ (front path).getLast?, c ≠ slash := fun c last =>
    of_decide_eq_false (getLast?_rdropWhile _ c last)
  refine ⟨front path, separators path, lastName path, ⟨fun member => ?_, fun last => ?_, ?_⟩, whole.symm⟩
  · simpa using mem_rtakeWhile_imp member
  · exact ended slash last rfl
  · intro none
    rw [none, replicate_zero, append_nil] at start
    by_contra some_
    obtain ⟨c, last⟩ := Option.ne_none_iff_exists'.mp (mt getLast?_eq_none_iff.mp some_)
    have stops := getLast?_rdropWhile path c (start ▸ last)
    exact ended c last (not_not.mp (of_decide_eq_false stops))

variable {path : Path}

theorem filename_ne_nil (some_ : path ≠ []) : filename path ≠ [] := by
  obtain ⟨before, count, name, cut, rfl⟩ := exists_cut path
  rw [filename_joined cut]
  by_cases empty : name = []
  · have slashes : count ≠ 0 := by
      intro none
      rw [none, empty, cut.apart none] at some_
      exact some_ rfl
    rw [if_pos empty, if_neg slashes]
    split
    · exact cons_ne_nil _ _
    · exact cons_ne_nil _ _
  · rw [if_neg empty]
    split
    · exact cons_ne_nil _ _
    · exact empty

/-! A path put together again from its parent and its last component. -/

def join (parent name : Path) : Path :=
  if parent ≠ [] ∧ name ≠ [] ∧ parent.getLast? ≠ some slash ∧ name.getLast? ≠ some slash then parent ++ slash :: name
  else parent ++ name

def rejoin (path : Path) : Path := join (parentPath path) (filename path)

/-- The run of slashes is not longer than it has to be, and it ends a path only as a root directory. -/
def Tight (before : Path) (count : Nat) (name : Path) : Prop :=
  (count = 1 ∧ (name = [] → before = [] ∨ bareName before = true)) ∨ (before = [] ∧ name ≠ [] ∧ (count = 0 ∨ count = 2))

theorem getLast?_ne_slash {name : Path} (plain : slash ∉ name) : name.getLast? ≠ some slash :=
  fun last => plain (mem_of_getLast? last)

theorem join_apart {parent name : Path} (some_ : parent ≠ []) (ended : parent.getLast? ≠ some slash)
    (plain : slash ∉ name)
    (named : name ≠ []) : join parent name = parent ++ slash :: name :=
  if_pos ⟨some_, named, ended, getLast?_ne_slash plain⟩

theorem join_nil (name : Path) : join [] name = name := if_neg fun all => all.1 rfl

theorem join_slash (before name : Path) : join (before ++ [slash]) name = before ++ slash :: name := by
  rw [join, if_neg fun all => all.2.2.1 getLast?_concat, append_assoc]
  rfl

theorem joined_one (before name : Path) : joined before 1 name = before ++ slash :: name := by
  simp [joined]

section Rejoin

variable {before name : Path} {count : Nat} (cut : Cut before count name)

include cut

theorem rejoin_joined (some_ : joined before count name ≠ []) : rejoin (joined before count name) =
    joined before (if before = [] ∧ name ≠ [] ∧ (count = 0 ∨ count = 2) then count else 1)
      (if name = [] ∧ before ≠ [] ∧ bareName before = false then [dot] else name) := by
  unfold rejoin
  rw [filename_joined cut, parentPath_joined cut]
  -- Whether something stands in front of the slashes, and whether a name stands behind them.
  by_cases start : before = []
  · subst start
    by_cases empty : name = []
    · subst empty
      have slashes : count ≠ 0 := by
        rintro rfl
        exact some_ rfl
      simp only [slashes]
      exact join_nil [slash]
    · simp only [empty, ne_eq]
      by_cases none : count = 0
      · simp only [none]
        exact join_nil name
      · by_cases two : count = 2
        · simp only [two]
          exact join_nil _
        · simp only [none, two]
          exact join_slash [] name
  · by_cases empty : name = []
    · have slashes : count ≠ 0 := fun none => start (cut.apart none)
      cases bare : bareName before with
      | true =>
        -- The slash behind a root name is its root directory and stays.
        simp only [start, empty, slashes, ne_eq, false_and, if_false, joined_one]
        exact if_neg fun all => all.2.2.2 rfl
      | false =>
        simp only [start, empty, slashes, ne_eq, false_and, if_false, joined_one]
        exact join_apart start cut.ended (by decide) (by decide)
    · cases bare : bareName before with
      | true =>
        simp only [start, empty, ne_eq, false_and, if_false, joined_one]
        exact join_slash before name
      | false =>
        simp only [start, empty, ne_eq, false_and, if_false,
          joined_one]
        exact join_apart start cut.ended cut.plain empty

theorem rejoin_tight (tight : Tight before count name) :
    rejoin (joined before count name) = joined before count name := by
  have some_ : joined before count name ≠ [] := by
    intro nothing
    obtain ⟨nothing', plain⟩ := append_eq_nil_iff.mp nothing
    obtain ⟨-, slashes⟩ := append_eq_nil_iff.mp nothing'
    rw [replicate_eq_nil_iff] at slashes
    rcases tight with ⟨one, -⟩ | ⟨-, named, -⟩
    · omega
    · exact named plain
  rw [rejoin_joined cut some_]
  rcases tight with ⟨rfl, based⟩ | ⟨start, named, count⟩
  · rw [if_neg (by simp), if_neg]
    rintro ⟨empty, apart, bare⟩
    rcases based empty with start | bare'
    · exact apart start
    · exact absurd (bare'.symm.trans bare) (by decide)
  · rw [if_pos ⟨start, named, count⟩, if_neg (fun all => named all.1)]

/-- Putting it together does not change where it is split. -/
theorem split_rejoin (some_ : joined before count name ≠ []) :
    parentPath (rejoin (joined before count name)) = parentPath (joined before count name) ∧
      filename (rejoin (joined before count name)) = filename (joined before count name) := by
  have one : ∀ {name : Path}, slash ∉ name → Cut before 1 name := fun plain => .one plain cut.ended
  rw [rejoin_joined cut some_]
  by_cases start : before = []
  · subst start
    by_cases empty : name = []
    · subst empty
      have slashes : count ≠ 0 := by
        rintro rfl
        exact some_ rfl
      simp only [ne_eq, not_true_eq_false, false_and, and_false, if_false]
      rw [parentPath_joined (one cut.plain), parentPath_joined cut, filename_joined (one cut.plain),
        filename_joined cut]
      simp [slashes]
    · simp only [empty, ne_eq, not_false_eq_true, true_and, false_and, if_false]
      by_cases kept : count = 0 ∨ count = 2
      · rw [if_pos kept]
        exact ⟨rfl, rfl⟩
      · rw [if_neg kept, parentPath_joined (one cut.plain), parentPath_joined cut, filename_joined (one cut.plain),
          filename_joined cut]
        rw [not_or] at kept
        simp [kept]
  · by_cases empty : name = []
    · have slashes : count ≠ 0 := fun none => start (cut.apart none)
      cases bare : bareName before with
      | true =>
        simp only [start, empty, false_and, and_false, if_false, Bool.true_eq_false]
        rw [empty] at cut
        rw [parentPath_joined (one cut.plain), parentPath_joined cut, filename_joined (one cut.plain),
          filename_joined cut]
        simp [slashes]
      | false =>
        simp only [start, empty, ne_eq, not_false_eq_true, false_and, if_false, if_true, and_self]
        rw [empty] at cut
        have plain : slash ∉ [dot] := by decide
        rw [parentPath_joined (one plain), parentPath_joined cut, filename_joined (one plain), filename_joined cut]
        simp [start, slashes, bare]
    · simp only [start, empty, false_and, if_false]
      rw [parentPath_joined (one cut.plain), parentPath_joined cut, filename_joined (one cut.plain),
        filename_joined cut]
      simp [start, empty]

end Rejoin

theorem parentPath_rejoin (some_ : path ≠ []) : parentPath (rejoin path) = parentPath path := by
  obtain ⟨before, count, name, cut, rfl⟩ := exists_cut path
  exact (split_rejoin cut some_).1

theorem filename_rejoin (some_ : path ≠ []) : filename (rejoin path) = filename path := by
  obtain ⟨before, count, name, cut, rfl⟩ := exists_cut path
  exact (split_rejoin cut some_).2

theorem rejoin_ne_nil (some_ : path ≠ []) : rejoin path ≠ [] := by
  intro nothing
  have same := filename_rejoin some_
  rw [nothing] at same
  exact filename_ne_nil some_ same.symm

/-! A path without redundant pieces is its own parent and last component. -/

theorem bareName_name {net : Path} (valid : net ≠ [] ∧ slash ∉ net) : bareName (slash :: slash :: net) = true := by
  have parts := @rooted_render (.name net false) [] valid
    ⟨fun _ member => absurd member not_mem_nil, 0, [], rfl, not_mem_nil, fun _ => rfl⟩ fun _ => rfl
  rw [render, intercalate_nil, append_nil, Root.toPath] at parts
  rw [bareName, root, parts]
  rfl

theorem intercalate_append {before after : List Path} (some_ : before ≠ []) (some_' : after ≠ []) :
    [slash].intercalate (before ++ after) = [slash].intercalate before ++ slash :: [slash].intercalate after := by
  induction before with
  | nil => exact absurd rfl some_
  | cons first before ih =>
    cases before with
    | nil =>
      simp [intercalate_cons_of_ne_nil some_']
    | cons second before =>
      rw [cons_append, intercalate_cons_of_ne_nil (by simp), ih (cons_ne_nil _ _),
        intercalate_cons_of_ne_nil (cons_ne_nil _ _), append_assoc _ _ (slash :: _)]

theorem getLast?_intercalate {components : List Path} (some_ : components ≠ [])
    (clean : ∀ component ∈ components, component ≠ [] ∧ slash ∉ component) :
    ∃ c, ([slash].intercalate components).getLast? = some c ∧ c ≠ slash := by
  obtain ⟨init, last, rfl⟩ := (eq_nil_or_concat' components).resolve_left some_
  obtain ⟨named, plain⟩ := clean last (by simp)
  obtain ⟨front, c, rfl⟩ := (eq_nil_or_concat' last).resolve_left named
  refine ⟨c, ?_, fun same => plain (same ▸ by simp)⟩
  by_cases single : init = []
  · simp [single]
  · rw [intercalate_append single (cons_ne_nil _ _), intercalate_singleton, ← cons_append,
      ← append_assoc, getLast?_concat]

theorem rejoin_render {root : Root} {components : List Path} (valid : root.Valid)
    (clean : ∀ component ∈ components, component ≠ [] ∧ slash ∉ component) (bare : root.bare = true → components = [])
    (some_ : render root components ≠ []) : rejoin (render root components) = render root components := by
  have ended : ∀ {name : Path}, name ≠ [] ∧ slash ∉ name → (slash :: slash :: name).getLast? ≠ some slash := by
    rintro name ⟨named, plain⟩
    rw [getLast?_cons_cons, getLast?_cons_of_ne_nil named]
    exact getLast?_ne_slash plain
  have empty : slash ∉ ([] : Path) := not_mem_nil
  rcases eq_nil_or_concat' components with rfl | ⟨init, last, rfl⟩
  · cases root with
    | none => exact absurd rfl some_
    | directory => exact @rejoin_tight [] [] 1 (.one empty (by decide)) (.inl ⟨rfl, fun _ => .inl rfl⟩)
    | name net based =>
      cases based with
      | false =>
        have same : render (.name net false) [] = joined [] 2 net := append_nil _
        rw [same]
        exact rejoin_tight ⟨valid.2, by decide, fun _ => rfl⟩ (.inr ⟨rfl, valid.1, .inr rfl⟩)
      | true =>
        have same : render (.name net true) [] = joined (slash :: slash :: net) 1 [] := by
          rw [joined_one]
          exact append_nil _
        rw [same]
        exact rejoin_tight (.one empty (ended valid)) (.inl ⟨rfl, fun _ => .inr (bareName_name valid)⟩)
  · obtain ⟨named, plain⟩ := clean last (by simp)
    by_cases single : init = []
    · subst single
      cases root with
      | none =>
        have same : render .none [last] = joined [] 0 last := @intercalate_singleton _ [slash] last
        rw [nil_append, same]
        exact rejoin_tight ⟨plain, by decide, fun _ => rfl⟩ (.inr ⟨rfl, named, .inl rfl⟩)
      | directory =>
        have same : render .directory [last] = joined [] 1 last := by
          rw [render, intercalate_singleton]
          rfl
        rw [nil_append, same]
        exact rejoin_tight (.one plain (by decide)) (.inl ⟨rfl, fun none => absurd none named⟩)
      | name net based =>
        cases based with
        | false => cases bare rfl
        | true =>
          have same : render (.name net true) [last] = joined (slash :: slash :: net) 1 last := by
            rw [render, joined_one]
            simp [Root.toPath]
          rw [nil_append, same]
          exact rejoin_tight (.one plain (ended valid)) (.inl ⟨rfl, fun none => absurd none named⟩)
    · have same : render root (init ++ [last]) = joined (render root init) 1 last := by
        simp [render, intercalate_append single (cons_ne_nil _ _), joined_one]
      obtain ⟨c, ends, other⟩ :=
        getLast?_intercalate single fun component member => clean component (mem_append_left _ member)
      have before : (render root init).getLast? ≠ some slash := by
        rw [render, getLast?_append, ends]
        exact fun same => other (Option.some.inj same)
      rw [same]
      exact rejoin_tight (.one plain before) (.inl ⟨rfl, fun none => absurd none named⟩)

theorem rejoin_removeDots (some_ : removeDots path ≠ []) : rejoin (removeDots path) = removeDots path :=
  rejoin_render (root_valid path) components_clean components_of_bare some_

/-! No characters but slashes and dots are added. -/

theorem mem_of_mem_filename {c : UInt8} (member : c ∈ filename path) : c ∈ path ∨ c = dot ∨ c = slash := by
  have inside : lastName path ⊆ path := (rtakeWhile_suffix _ _).subset
  unfold filename at member
  split at member
  · split at member
    · cases member
    · split at member
      · exact .inr (.inr (mem_singleton.mp member))
      · exact .inr (.inl (mem_singleton.mp member))
  · split at member
    · exact .inl member
    · exact .inl (inside member)

theorem mem_of_mem_parentPath {c : UInt8} (member : c ∈ parentPath path) : c ∈ path ∨ c = slash := by
  have inside : front path ⊆ path := fun _ found =>
    (List.rdropWhile_prefix _ _).subset ((List.rdropWhile_prefix _ _).subset found)
  unfold parentPath at member
  split at member
  · split at member
    · cases member
    · exact .inr (mem_singleton.mp member)
  · split at member
    · rcases mem_append.mp member with found | last
      · exact .inl (inside found)
      · exact .inr (mem_singleton.mp last)
    · exact .inl (inside member)

end Library.PosixPath
