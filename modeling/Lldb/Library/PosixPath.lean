import Mathlib.Algebra.Ring.Nat
import Mathlib.Data.List.DropRight

/-! POSIX paths: the pieces between the slashes, the root in front of them, and what is left of a path without its
redundant pieces.

Exactly two slashes in front of a name are a root of its own, any other number of them is the root directory.
-/

set_option autoImplicit false

namespace Library.PosixPath

open List

abbrev Path := List UInt8

def slash : UInt8 := 0x2f
def dot : UInt8 := 0x2e
def upward : Path := [dot, dot]

inductive Root
  | none
  | directory
  | name (net : Path) (based : Bool)
  deriving DecidableEq, Repr

namespace Root

def toPath : Root → Path
  | none => []
  | directory => [slash]
  | name net false => slash :: slash :: net
  | name net true => slash :: slash :: (net ++ [slash])

def absolute : Root → Bool
  | none => false
  | directory => true
  | name _ based => based

def Valid : Root → Prop
  | none => True
  | directory => True
  | name net _ => net ≠ [] ∧ slash ∉ net

def bare : Root → Bool
  | name _ false => true
  | _ => false

end Root

def rooted : List Path → Root × List Path
  | [] :: [] :: (c :: net) :: rest => (.name (c :: net) (!rest.isEmpty), rest)
  | [] :: piece :: rest => (.directory, piece :: rest)
  | pieces => (.none, pieces)

def root (path : Path) : Root := (rooted (path.splitOn slash)).1

def pieces (path : Path) : List Path := (rooted (path.splitOn slash)).2

def absolute (path : Path) : Bool := (root path).absolute

def kept (piece : Path) : Bool := piece ≠ [] ∧ piece ≠ [dot]

def push (absolute : Bool) (stack : List Path) (component : Path) : List Path :=
  if component = upward then
    match stack with
    | [] => if absolute then [] else [upward]
    | top :: below => if top = upward then (if absolute then top :: below else upward :: top :: below) else below
  else component :: stack

def settle (absolute : Bool) (components : List Path) : List Path := (components.foldl (push absolute) []).reverse

def components (path : Path) : List Path := settle (absolute path) ((pieces path).filter kept)

def render (root : Root) (components : List Path) : Path := root.toPath ++ [slash].intercalate components

def removeDots (path : Path) : Path := render (root path) (components path)

/-! The pieces of a path. -/

theorem render_pieces (path : Path) : render (root path) (pieces path) = path := by
  have whole : [slash].intercalate (path.splitOn slash) = path := intercalate_splitOn slash
  conv_rhs => rw [← whole]
  unfold render root pieces
  generalize path.splitOn slash = parts
  unfold rooted
  split
  · next c net rest =>
    cases rest with
    | nil => rfl
    | cons piece rest => simp [Root.toPath]
  · rfl
  · rfl

variable {path piece first second : Path} {parts stack : List Path} {c : UInt8}

theorem slash_not_mem (member : piece ∈ path.splitOn slash) : slash ∉ piece := by
  induction path generalizing piece with
  | nil =>
    rw [splitOn_nil, mem_singleton] at member
    rw [member]
    exact not_mem_nil
  | cons c path ih =>
    rw [splitOn_cons_eq_if_modifyHead] at member
    by_cases same : (c == slash) = true
    · rw [if_pos same] at member
      rcases mem_cons.mp member with rfl | later
      · exact not_mem_nil
      · exact ih later
    · rw [if_neg same] at member
      rw [beq_iff_eq] at same
      cases parts : path.splitOn slash with
      | nil => exact absurd parts (splitOn_ne_nil slash path)
      | cons first rest =>
        rw [parts] at ih
        rw [parts] at member
        rcases mem_cons.mp member with rfl | later
        · rw [mem_cons, not_or]
          exact ⟨fun eq => same eq.symm, ih mem_cons_self⟩
        · exact ih (mem_cons_of_mem first later)

theorem rooted_subset (member : piece ∈ (rooted parts).2) : piece ∈ parts := by
  unfold rooted at member
  split at member
  · exact mem_cons_of_mem _ (mem_cons_of_mem _ (mem_cons_of_mem _ member))
  · exact mem_cons_of_mem _ member
  · exact member

theorem slash_not_mem_pieces (member : piece ∈ pieces path) : slash ∉ piece :=
  slash_not_mem (rooted_subset member)

theorem root_valid (path : Path) : (root path).Valid := by
  have free : ∀ piece ∈ path.splitOn slash, slash ∉ piece := fun _ member => slash_not_mem member
  unfold root
  revert free
  generalize path.splitOn slash = parts
  intro free
  unfold rooted
  split
  · next c net rest =>
    exact ⟨cons_ne_nil c net, free (c :: net) (by simp)⟩
  · trivial
  · trivial

theorem pieces_of_bare (bare : (root path).bare = true) : pieces path = [] := by
  unfold root at bare
  unfold pieces
  revert bare
  generalize path.splitOn slash = parts
  unfold rooted
  split
  · next c net rest =>
    intro bare
    cases rest with
    | nil => rfl
    | cons piece rest => cases bare
  · exact fun bare => absurd bare Bool.false_ne_true
  · exact fun bare => absurd bare Bool.false_ne_true

/-! Components that settle are those of a path without redundant pieces. -/

/-- Steps upwards stand in front of the names, and not at all behind a root directory. -/
structure Settled (absolute : Bool) (components : List Path) : Prop where
  clean : ∀ component ∈ components, kept component = true ∧ slash ∉ component
  leading : ∃ count names, components = replicate count upward ++ names ∧ upward ∉ names ∧ (absolute = true → count = 0)

/-- The stack that `push` works on, the last component first. -/
def Stacked (absolute : Bool) (stack : List Path) : Prop :=
  ∃ names count, stack = names ++ replicate count upward ∧ upward ∉ names ∧ (absolute = true → count = 0)

theorem Stacked.push {absolute : Bool} (stacked : Stacked absolute stack) (component : Path) :
    Stacked absolute (push absolute stack component) := by
  obtain ⟨names, count, rfl, plain, none⟩ := stacked
  unfold PosixPath.push
  by_cases up : component = upward
  · rw [if_pos up]
    cases names with
    | cons top below =>
      have top_ne : top ≠ upward := fun same => plain (same ▸ mem_cons_self)
      rw [cons_append]
      dsimp only
      rw [if_neg top_ne]
      exact ⟨below, count, rfl, fun member => plain (mem_cons_of_mem top member), none⟩
    | nil =>
      cases absolute with
      | true =>
        rw [none rfl]
        exact ⟨[], 0, rfl, not_mem_nil, fun _ => rfl⟩
      | false =>
        -- With no name left to cancel, one more step upwards is kept.
        refine ⟨[], count + 1, ?_, not_mem_nil, fun absolute => absurd absolute Bool.false_ne_true⟩
        cases count with
        | zero => rfl
        | succ count =>
          rfl
  · rw [if_neg up]
    refine ⟨component :: names, count, rfl, ?_, none⟩
    rw [mem_cons, not_or]
    exact ⟨fun same => up same.symm, plain⟩

theorem Stacked.foldl {absolute : Bool} (stacked : Stacked absolute stack) (components : List Path) :
    Stacked absolute (components.foldl (PosixPath.push absolute) stack) := by
  induction components generalizing stack with
  | nil => exact stacked
  | cons component components ih => exact ih (stacked.push component)

theorem push_subset {absolute : Bool} {component : Path}
    (member : piece ∈ push absolute stack component) : piece = component ∨ piece ∈ stack := by
  unfold push at member
  split at member
  · next up =>
    split at member
    · split at member
      · cases member
      · exact .inl ((mem_singleton.mp member).trans up.symm)
    · split at member
      · split at member
        · exact .inr member
        · rcases mem_cons.mp member with same | below
          · exact .inl (same.trans up.symm)
          · exact .inr below
      · exact .inr (mem_cons_of_mem _ member)
  · exact mem_cons.mp member

theorem foldl_push_subset {absolute : Bool} {components : List Path}
    (member : piece ∈ components.foldl (push absolute) stack) : piece ∈ components ∨ piece ∈ stack := by
  induction components generalizing stack with
  | nil => exact .inr member
  | cons component components ih =>
    rcases ih member with later | pushed
    · exact .inl (mem_cons_of_mem component later)
    · rcases push_subset pushed with rfl | below
      · exact .inl mem_cons_self
      · exact .inr below

theorem settle_settled {absolute : Bool} {components : List Path}
    (kept : ∀ component ∈ components, kept component = true ∧ slash ∉ component) :
    Settled absolute (settle absolute components) := by
  refine ⟨fun component member => ?_, ?_⟩
  · rcases foldl_push_subset (mem_reverse.mp member) with given | nothing
    · exact kept component given
    · cases nothing
  · obtain ⟨names, count, stack, plain, none⟩ :=
      Stacked.foldl (show Stacked absolute [] from ⟨[], 0, rfl, not_mem_nil, fun _ => rfl⟩) components
    refine ⟨count, names.reverse, ?_, fun member => plain (mem_reverse.mp member), none⟩
    simp [settle, stack]

theorem foldl_push_names {absolute : Bool} {names : List Path} (plain : upward ∉ names) (stack : List Path) :
    names.foldl (push absolute) stack = names.reverse ++ stack := by
  induction names generalizing stack with
  | nil => rfl
  | cons name names ih =>
    rw [mem_cons, not_or] at plain
    have pushed : push absolute stack name = name :: stack := by
      exact if_neg (Ne.symm plain.1)
    simp [ih plain.2, pushed]

theorem foldl_push_upward (count more : Nat) : (replicate count upward).foldl (push false) (replicate more upward) =
      replicate (count + more) upward := by
  induction count generalizing more with
  | zero => rw [zero_add]; rfl
  | succ count ih =>
    have pushed : push false (replicate more upward) upward = replicate (more + 1) upward := by
      cases more with
      | zero => rfl
      | succ more =>
        rfl
    rw [replicate_succ, foldl_cons, pushed, ih, Nat.add_right_comm, Nat.add_assoc]

theorem Settled.settle {absolute : Bool} {components : List Path} (settled : Settled absolute components) :
    settle absolute components = components := by
  obtain ⟨count, names, rfl, plain, none⟩ := settled.leading
  rw [PosixPath.settle, foldl_append, foldl_push_names plain]
  cases absolute with
  | true =>
    rw [none rfl]
    simp
  | false =>
    rw [show ([] : List Path) = replicate 0 upward from rfl, foldl_push_upward]
    simp

theorem Settled.filter {absolute : Bool} {components : List Path} (settled : Settled absolute components) :
    components.filter kept = components :=
  filter_eq_self.mpr fun component member => (settled.clean component member).1

theorem components_settled (path : Path) : Settled (absolute path) (components path) :=
  settle_settled fun _ member =>
    ⟨(mem_filter.mp member).2, slash_not_mem_pieces (mem_filter.mp member).1⟩

theorem components_clean : ∀ component ∈ components path, component ≠ [] ∧ slash ∉ component :=
  fun component member =>
    ⟨fun empty => absurd (empty ▸ (components_settled path).clean component member).1 (by decide),
      ((components_settled path).clean component member).2⟩

/-! The path without its redundant pieces. -/

theorem components_of_bare (bare : (root path).bare = true) : components path = [] := by
  rw [components, pieces_of_bare bare]
  rfl

@[simp] theorem splitOn_slash_cons (path : Path) : (slash :: path).splitOn slash = [] :: path.splitOn slash :=
  splitOn_append_cons_self [] path

theorem splitOn_plain (plain : c ≠ slash) {rest : List Path}
    (split : path.splitOn slash = piece :: rest) : (c :: path).splitOn slash = (c :: piece) :: rest := by
  rw [splitOn_cons_eq_if_modifyHead, if_neg (by rwa [beq_iff_eq]), split]
  rfl

theorem rooted_render {root : Root} {components : List Path} (valid : root.Valid)
    (settled : Settled root.absolute components) (bare : root.bare = true → components = []) :
    rooted ((render root components).splitOn slash) =
      (root, if components = [] ∧ root.bare = false then [[]] else components) := by
  have free : ∀ component ∈ components, slash ∉ component := fun component member => (settled.clean component member).2
  have named : ∀ component ∈ components, component ≠ [] := by
    rintro component member rfl
    exact absurd (settled.clean [] member).1 (by decide)
  have split : components ≠ [] → ([slash].intercalate components).splitOn slash = components :=
    splitOn_intercalate slash free
  unfold render
  cases root with
  | none =>
    cases components with
    | nil => rfl
    | cons first rest =>
      rw [Root.toPath, nil_append, split (cons_ne_nil _ _)]
      have first_ne := named first mem_cons_self
      unfold rooted
      split
      · next same => cases same; exact absurd rfl first_ne
      · next same => cases same; exact absurd rfl first_ne
      · rfl
  | directory =>
    cases components with
    | nil => rfl
    | cons first rest =>
      rw [Root.toPath, singleton_append, splitOn_slash_cons, split (cons_ne_nil _ _)]
      have first_ne := named first mem_cons_self
      cases first with
      | nil => exact absurd rfl first_ne
      | cons c name => rfl
  | name net based =>
    obtain ⟨net_ne, net_free⟩ := valid
    cases net with
    | nil => exact absurd rfl net_ne
    | cons c net =>
      cases based with
      | false =>
        rw [bare rfl, Root.toPath, intercalate_nil, append_nil, splitOn_slash_cons, splitOn_slash_cons,
          splitOn_eq_singleton net_free]
        rfl
      | true =>
        have parts : (Root.toPath (.name (c :: net) true) ++ [slash].intercalate components).splitOn slash =
            [] :: [] :: (c :: net) :: ([slash].intercalate components).splitOn slash := by
          rw [Root.toPath, cons_append, cons_append, append_assoc, splitOn_slash_cons, splitOn_slash_cons,
            singleton_append, splitOn_append_cons_self_of_not_mem net_free]
        rw [parts]
        cases components with
        | nil => rfl
        | cons first rest =>
          rw [split (cons_ne_nil _ _)]
          rfl

section Render

variable {given : Root} {names : List Path} (valid : given.Valid) (settled : Settled given.absolute names)
  (bare : given.bare = true → names = [])

include valid settled bare

theorem root_render : root (render given names) = given := by
  rw [root, rooted_render valid settled bare]

theorem components_render : components (render given names) = names := by
  rw [components, absolute, root_render valid settled bare, pieces, rooted_render valid settled bare]
  split
  · next empty =>
    rw [empty.1]
    rfl
  · rw [settled.filter, settled.settle]

theorem removeDots_render : removeDots (render given names) = render given names := by
  rw [removeDots, root_render valid settled bare, components_render valid settled bare]

end Render

@[simp] theorem removeDots_removeDots (path : Path) : removeDots (removeDots path) = removeDots path :=
  removeDots_render (root_valid path) (components_settled path) components_of_bare

theorem removeDots_eq_self_iff (path : Path) :
    removeDots path = path ↔ pieces path = [[]] ∨ Settled (absolute path) (pieces path) := by
  constructor
  · intro same
    have parts := rooted_render (root_valid path) (components_settled path) components_of_bare
    rw [show render (root path) (components path) = path from same] at parts
    rw [pieces, parts]
    split
    · exact .inl rfl
    · exact .inr (components_settled path)
  · intro settled
    conv_rhs => rw [← render_pieces path]
    rcases settled with empty | settled
    · rw [removeDots, components, empty]
      rfl
    · rw [removeDots, components, settled.filter, settled.settle]

/-! No characters but slashes are added. -/

theorem mem_intercalate (member : c ∈ [slash].intercalate parts) : c = slash ∨ ∃ part ∈ parts, c ∈ part := by
  induction parts with
  | nil => cases member
  | cons part parts ih =>
    cases parts with
    | nil =>
      rw [intercalate_singleton] at member
      exact .inr ⟨part, mem_cons_self, member⟩
    | cons next parts =>
      rcases mem_append.mp member with here | later
      · exact .inr ⟨part, mem_cons_self, here⟩
      · rcases mem_cons.mp later with same | later
        · exact .inl same
        · rcases ih later with same | ⟨other, inside, found⟩
          · exact .inl same
          · exact .inr ⟨other, mem_cons_of_mem part inside, found⟩

theorem mem_intercalate_of_mem {part : Path} (inside : part ∈ parts) (member : c ∈ part) :
    c ∈ [slash].intercalate parts := by
  induction parts with
  | nil => cases inside
  | cons first parts ih =>
    cases parts with
    | nil =>
      rw [intercalate_singleton]
      rwa [mem_singleton.mp inside] at member
    | cons next parts =>
      rcases mem_cons.mp inside with rfl | later
      · exact mem_append_left _ member
      · exact mem_append_right _ (mem_append_right _ (ih later))

theorem mem_of_mem_removeDots (member : c ∈ removeDots path) : c ∈ path ∨ c = slash := by
  rcases mem_append.mp member with inside | later
  · rw [← render_pieces path]
    exact .inl (mem_append_left _ inside)
  · rcases mem_intercalate later with same | ⟨component, given, found⟩
    · exact .inr same
    · rcases foldl_push_subset (mem_reverse.mp given) with piece | nothing
      · rw [← render_pieces path]
        exact .inl (mem_append_right _ (mem_intercalate_of_mem (mem_filter.mp piece).1 found))
      · cases nothing

/-! What a path names. -/

/-- A root name and the components, or the current directory where nothing is left of a path without a root. -/
def names (path : Path) : List Path :=
  match root path with
  | .name net _ => (slash :: slash :: net) :: components path
  | .directory => components path
  | .none => if path ≠ [] ∧ components path = [] then [[dot]] else components path

theorem dot_not_mem_components (path : Path) : [dot] ∉ components path :=
  fun member => absurd ((components_settled path).clean [dot] member).1 (by decide)

theorem components_nil : components [] = [] := rfl

theorem name_not_mem (path : Path) (net : Path) : slash :: slash :: net ∉ components path :=
  fun member => ((components_settled path).clean _ member).2 mem_cons_self

theorem path_ne_nil (rooted : root path ≠ .none) : path ≠ [] := by
  rintro rfl
  exact rooted rfl

private theorem names_of_none (none : root path = .none) :
    names path = if path ≠ [] ∧ components path = [] then [[dot]] else components path := by
  rw [names, none]

private theorem names_of_directory (directory : root path = .directory) : names path = components path := by
  rw [names, directory]

private theorem names_of_name {net : Path} {based : Bool} (name : root path = .name net based) :
    names path = (slash :: slash :: net) :: components path := by
  rw [names, name]

private theorem name_not_mem_names {net : Path} (unnamed : ∀ net based, root path ≠ .name net based) :
    slash :: slash :: net ∉ names path := by
  cases here : root path with
  | none =>
    rw [names_of_none here]
    split
    · intro member
      cases mem_singleton.mp member
    · exact name_not_mem path net
  | directory =>
    rw [names_of_directory here]
    exact name_not_mem path net
  | name net based => exact absurd here (unnamed net based)

private theorem none_inj (here : root first = .none) (there : root second = .none)
    (same : names first = names second) : components first = components second ∧ (first = [] → second = []) := by
  rw [names_of_none here, names_of_none there] at same
  by_cases left : first ≠ [] ∧ components first = []
  · by_cases right : second ≠ [] ∧ components second = []
    · exact ⟨left.2.trans right.2.symm, fun empty => absurd empty left.1⟩
    · rw [if_pos left, if_neg right] at same
      exact absurd (same ▸ mem_singleton_self [dot]) (dot_not_mem_components second)
  · by_cases right : second ≠ [] ∧ components second = []
    · rw [if_neg left, if_pos right] at same
      exact absurd (same ▸ mem_singleton_self [dot]) (dot_not_mem_components first)
    · rw [if_neg left, if_neg right] at same
      refine ⟨same, ?_⟩
      rintro rfl
      by_contra some_
      exact right ⟨some_, same.symm.trans components_nil⟩

theorem root_components_eq (same : names first = names second) (based : absolute first = absolute second) :
    root first = root second ∧ components first = components second ∧ (first = [] → second = []) := by
  unfold absolute at based
  have unnamed : ∀ {path : Path}, root path = .none ∨ root path = .directory →
      ∀ net based, root path ≠ .name net based := by
    rintro path (plain | plain) net based name
    · rw [plain] at name
      cases name
    · rw [plain] at name
      cases name
  cases here : root first with
  | none =>
    cases there : root second with
    | none => exact ⟨rfl, none_inj here there same⟩
    | directory =>
      rw [here, there] at based
      cases based
    | name net based =>
      rw [names_of_name there] at same
      exact absurd (same ▸ mem_cons_self) (name_not_mem_names (unnamed (.inl here)))
  | directory =>
    have some_ : first ≠ [] := path_ne_nil (here ▸ Root.noConfusion)
    cases there : root second with
    | none =>
      rw [here, there] at based
      cases based
    | directory =>
      rw [names_of_directory here, names_of_directory there] at same
      exact ⟨rfl, same, fun empty => absurd empty some_⟩
    | name net based =>
      rw [names_of_name there] at same
      exact absurd (same ▸ mem_cons_self) (name_not_mem_names (unnamed (.inr here)))
  | name net start =>
    have some_ : first ≠ [] := path_ne_nil (here ▸ Root.noConfusion)
    cases there : root second with
    | none =>
      rw [names_of_name here] at same
      exact absurd (same ▸ mem_cons_self) (name_not_mem_names (unnamed (.inl there)))
    | directory =>
      rw [names_of_name here] at same
      exact absurd (same ▸ mem_cons_self) (name_not_mem_names (unnamed (.inr there)))
    | name net' start' =>
      rw [names_of_name here, names_of_name there] at same
      rw [here, there] at based
      cases (cons.inj same).1
      cases based
      exact ⟨rfl, (cons.inj same).2, fun empty => absurd empty some_⟩

theorem removeDots_eq (same : names first = names second)
    (based : absolute first = absolute second) : removeDots first = removeDots second := by
  obtain ⟨roots, left, -⟩ := root_components_eq same based
  rw [removeDots, removeDots, roots, left]

end Library.PosixPath
