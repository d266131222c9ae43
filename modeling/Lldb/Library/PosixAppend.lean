import Lldb.Library.PosixNames

/-! Components appended to a POSIX path, and a path as another one with components appended. -/

set_option autoImplicit false

namespace Library.PosixPath

open List

def fragments (chars : Path) : List Path := (chars.splitOn slash).filter kept

def Root.based : Root → Root
  | none => none
  | directory => directory
  | name net _ => name net true

def Normal (path : Path) : Prop := path = [dot] ∨ removeDots path = path

def appended (path : Path) (rest : List Path) : Path :=
  let base := if rest = [] then root path else (root path).based
  let whole := render base (settle base.absolute (components path ++ rest))
  if whole = [] ∧ ¬ (path = [] ∧ rest = []) then [dot] else whole

/-- The root directory counts as a component of its own, behind the root name if there is one. -/
def Root.elements : Root → List Path
  | none => []
  | directory => [[slash]]
  | name net false => [slash :: slash :: net]
  | name net true => [slash :: slash :: net, [slash]]

def elements (path : Path) : List Path := (root path).elements ++ components path

def remaining (start path : Path) : List Path := (components path).drop (components start).length

theorem fragments_append (before after : Path) :
    fragments (before ++ slash :: after) = fragments before ++ fragments after := by
  simp [fragments, splitOn_append_cons_self]

theorem fragments_slash (chars : Path) : fragments (slash :: chars) = fragments chars := fragments_append [] chars

theorem fragments_dropWhile (chars : Path) : fragments (chars.dropWhile (· = slash)) = fragments chars := by
  induction chars with
  | nil => rfl
  | cons c chars ih =>
    by_cases same : c = slash
    · rw [same, fragments_slash, dropWhile_cons_of_pos (by simp), ih]
    · rw [dropWhile_cons_of_neg (by simpa using same)]

theorem fragments_intercalate {rest : List Path}
    (clean : ∀ component ∈ rest, kept component = true ∧ slash ∉ component) :
    fragments ([slash].intercalate rest) = rest := by
  by_cases empty : rest = []
  · rw [empty]
    rfl
  · rw [fragments, splitOn_intercalate slash (fun component member => (clean component member).2) empty]
    exact filter_eq_self.mpr fun component member => (clean component member).1

/-! The root and the pieces of a path that has been appended to. -/

variable {path start : Path}

theorem root_of_head (relative : path.head? ≠ some slash) : root path = .none ∧ pieces path = path.splitOn slash := by
  cases path with
  | nil => exact ⟨rfl, rfl⟩
  | cons c path =>
    have plain : c ≠ slash := fun same => relative (congrArg some same)
    obtain ⟨first, rest, split⟩ := exists_cons_of_ne_nil (splitOn_ne_nil slash path)
    rw [root, pieces, splitOn_plain plain split]
    exact ⟨rfl, rfl⟩

/-- Something behind a slash, if the path in front of it does not end with one. -/
theorem rooted_append (some_ : path ≠ []) (ended : path.getLast? ≠ some slash) (more : Path) :
    root (path ++ slash :: more) = (root path).based ∧
      pieces (path ++ slash :: more) = pieces path ++ more.splitOn slash := by
  have whole : [slash].intercalate (path.splitOn slash) = path := intercalate_splitOn slash
  rw [root, pieces, root, pieces, splitOn_append_cons_self]
  obtain ⟨next, later, split⟩ := exists_cons_of_ne_nil (splitOn_ne_nil slash more)
  rw [split]
  cases parts : path.splitOn slash with
  | nil => exact absurd parts (splitOn_ne_nil slash path)
  | cons first rest =>
    rw [parts] at whole
    cases first with
    | cons c first => exact ⟨rfl, rfl⟩
    | nil =>
      cases rest with
      | nil => exact absurd whole.symm some_
      | cons second rest =>
        cases second with
        | cons c second => exact ⟨rfl, rfl⟩
        | nil =>
          cases rest with
          | nil =>
            rw [← whole] at ended
            exact absurd rfl ended
          | cons third rest =>
            cases third with
            | nil => exact ⟨rfl, rfl⟩
            | cons c third =>
              refine ⟨?_, rfl⟩
              cases rest with
              | nil => rfl
              | cons fourth rest => rfl

theorem root_slash {more : Path} (plain : more.head? ≠ some slash) :
    root (slash :: more) = .directory ∧ pieces (slash :: more) = more.splitOn slash := by
  rw [root, pieces, splitOn_slash_cons]
  cases more with
  | nil => exact ⟨rfl, rfl⟩
  | cons c more =>
    have other : c ≠ slash := fun same => plain (congrArg some same)
    obtain ⟨first, rest, split⟩ := exists_cons_of_ne_nil (splitOn_ne_nil slash more)
    rw [splitOn_plain other split]
    exact ⟨rfl, rfl⟩

theorem root_name_slash {net : Path} (valid : net ≠ [] ∧ slash ∉ net) (more : Path) :
    root (slash :: slash :: (net ++ slash :: more)) = .name net true ∧
      pieces (slash :: slash :: (net ++ slash :: more)) = more.splitOn slash := by
  rw [root, pieces, splitOn_slash_cons, splitOn_slash_cons, splitOn_append_cons_self_of_not_mem valid.2]
  obtain ⟨c, net', rfl⟩ := exists_cons_of_ne_nil valid.1
  obtain ⟨first, rest, split⟩ := exists_cons_of_ne_nil (splitOn_ne_nil slash more)
  rw [split]
  exact ⟨rfl, rfl⟩

/-! Normal paths. -/

theorem Normal.filter_pieces (normal : Normal path) : (pieces path).filter kept = components path := by
  rcases normal with rfl | same
  · rfl
  · rcases (removeDots_eq_self_iff path).mp same with empty | settled
    · rw [components, empty]
      rfl
    · rw [components, settled.filter, settled.settle]

theorem Normal.root_of_ends (normal : Normal path) (ends : path.getLast? = some slash) :
    path = [slash] ∨ ∃ net, (net ≠ [] ∧ slash ∉ net) ∧ path = slash :: slash :: (net ++ [slash]) := by
  rcases normal with rfl | same
  · cases ends
  · have valid := root_valid path
    rw [← same, removeDots, render] at ends ⊢
    by_cases empty : components path = []
    · rw [empty, intercalate_nil, List.append_nil] at ends ⊢
      cases here : root path with
      | none => rw [here] at ends; cases ends
      | directory => exact .inl rfl
      | name net based =>
        rw [here] at ends valid
        cases based with
        | false =>
          rw [Root.toPath, getLast?_cons_cons, getLast?_cons_of_ne_nil valid.1] at ends
          exact absurd ends (getLast?_ne_slash valid.2)
        | true => exact .inr ⟨net, valid, rfl⟩
    · obtain ⟨c, last, other⟩ := getLast?_intercalate empty components_clean
      rw [getLast?_append, last] at ends
      exact absurd (Option.some.inj ends) other

theorem Normal.of_elements_nil (normal : Normal path) (none : elements path = []) : path = [] ∨ path = [dot] := by
  rcases normal with same | same
  · exact .inr same
  · left
    obtain ⟨roots, names⟩ := List.append_eq_nil_iff.mp none
    rw [← same, removeDots, names]
    cases here : root path with
    | none => rfl
    | directory => rw [here] at roots; cases roots
    | name net based =>
      rw [here] at roots
      cases based with
      | false => cases roots
      | true => cases roots

theorem Normal.removeDots_eq (normal : Normal path) (some_ : elements path ≠ []) : removeDots path = path := by
  rcases normal with rfl | same
  · exact absurd rfl some_
  · exact same

theorem append_nil (rest : Path) : append [] rest = rest := by
  rfl

theorem append_eq_nil_iff (path chars : Path) : append path chars = [] ↔ path = [] ∧ chars = [] := by
  constructor
  · intro nothing
    by_cases empty : path = []
    · rw [empty] at nothing
      exact ⟨empty, nothing⟩
    · unfold append at nothing
      split at nothing
      · exact absurd (List.append_eq_nil_iff.mp nothing).1 empty
      · split at nothing
        · exact absurd (List.append_eq_nil_iff.mp nothing).1 empty
        · exact absurd (List.append_eq_nil_iff.mp nothing).1 empty
  · rintro ⟨rfl, rfl⟩
    rfl

theorem mem_of_mem_append {chars : Path} {c : UInt8} (member : c ∈ append path chars) :
    c ∈ path ∨ c ∈ chars ∨ c = slash := by
  unfold append at member
  split at member
  · exact (mem_append.mp member).imp_right fun inside => .inl ((dropWhile_suffix _).subset inside)
  · split at member
    · exact (mem_append.mp member).imp_right .inl
    · refine (mem_append.mp member).imp_right fun later => ?_
      rcases mem_cons.mp later with same | inside
      · exact .inr same
      · exact .inl inside

/-- Behind a path that does not end with one, the appended characters are set off by a slash. -/
theorem append_apart (some_ : path ≠ []) (ended : path.getLast? ≠ some slash) (rest : Path) :
    ∃ more, append path rest = path ++ slash :: more ∧ fragments more = fragments rest := by
  rw [append, if_neg ended]
  by_cases rooted : rest.head? = some slash
  · rw [if_pos (.inr rooted)]
    cases rest with
    | nil => cases rooted
    | cons c more =>
      cases rooted
      exact ⟨more, rfl, (fragments_slash more).symm⟩
  · rw [if_neg (by simp [some_, rooted])]
    exact ⟨rest, rfl, rfl⟩

theorem head?_dropWhile (rest : Path) : (rest.dropWhile (· = slash)).head? ≠ some slash := by
  intro head
  have stops := head?_dropWhile_not (· = slash) rest
  rw [head] at stops
  simp at stops

theorem root_components_append {rest : Path} (normal : Normal path) (anchored : path = [] → rest.head? ≠ some slash) :
    root (append path rest) = (root path).based ∧
      components (append path rest) = settle (root path).based.absolute (components path ++ fragments rest) := by
  have parts : root (append path rest) = (root path).based ∧
      (pieces (append path rest)).filter kept = components path ++ fragments rest := by
    by_cases empty : path = []
    · subst empty
      obtain ⟨plain, split⟩ := root_of_head (anchored rfl)
      rw [append_nil, plain, split]
      exact ⟨rfl, rfl⟩
    · by_cases ends : path.getLast? = some slash
      · -- A normal path that ends with a slash is a root, which takes the pieces as they are.
        have same : append path rest = path ++ rest.dropWhile (· = slash) := if_pos ends
        rw [same]
        rcases normal.root_of_ends ends with rfl | ⟨net, valid, rfl⟩
        · obtain ⟨rooted, split⟩ := root_slash (head?_dropWhile rest)
          rw [singleton_append, rooted, split]
          exact ⟨rfl, fragments_dropWhile rest⟩
        · obtain ⟨rooted, split⟩ := root_name_slash valid (rest.dropWhile (· = slash))
          obtain ⟨rooted', split'⟩ := root_name_slash valid []
          rw [cons_append, cons_append, append_assoc, singleton_append, rooted, split,
            components, rooted', split']
          exact ⟨rfl, fragments_dropWhile rest⟩
      · obtain ⟨more, same, names⟩ := append_apart empty ends rest
        obtain ⟨rooted, split⟩ := rooted_append empty ends more
        rw [same, rooted, split, filter_append, normal.filter_pieces, ← names]
        exact ⟨rfl, rfl⟩
  refine ⟨parts.1, ?_⟩
  rw [components, absolute, parts.1, parts.2]

theorem appended_append {chars : Path} (normal : Normal path) (anchored : path = [] → chars.head? ≠ some slash)
    (based : bareName path = true → fragments chars ≠ []) : appended path (fragments chars) =
      if removeDots (append path chars) = [] ∧ ¬ (path = [] ∧ fragments chars = []) then [dot]
      else removeDots (append path chars) := by
  obtain ⟨roots, names⟩ := root_components_append normal anchored
  have base : (if fragments chars = [] then root path else (root path).based) = (root path).based := by
    split
    · next none =>
      cases here : root path with
      | none => rfl
      | directory => rfl
      | name net start =>
        cases start with
        | true => rfl
        | false => exact absurd none (based (by rw [bareName, here]; rfl))
    · rfl
  unfold appended
  rw [base, removeDots, roots, names]

/-! One path in front of another one. -/

theorem render_append (root : Root) (before : List Path) {after : List Path}
    (clean : ∀ component ∈ after, kept component = true ∧ slash ∉ component) :
    ∃ chars, render root (before ++ after) = render root before ++ chars ∧ fragments chars = after := by
  by_cases none : after = []
  · exact ⟨[], by simp [none], none ▸ rfl⟩
  · by_cases start : before = []
    · refine ⟨[slash].intercalate after, ?_, fragments_intercalate clean⟩
      simp [start, render]
    · refine ⟨slash :: [slash].intercalate after, ?_, ?_⟩
      · simp [render, intercalate_append start none]
      · rw [fragments_slash, fragments_intercalate clean]

theorem render_name (net : Path) {after : List Path}
    (clean : ∀ component ∈ after, kept component = true ∧ slash ∉ component) :
    ∃ chars, render (.name net true) after = render (.name net false) [] ++ chars ∧ fragments chars = after := by
  refine ⟨slash :: [slash].intercalate after, ?_, ?_⟩
  · simp [render, Root.toPath]
  · rw [fragments_slash, fragments_intercalate clean]

theorem slash_not_mem_components {component : Path} (member : component ∈ components path) : slash ∉ component :=
  ((components_settled path).clean component member).2

theorem components_ne_root {element : Path} (rooted : slash ∈ element) {rest : List Path} :
    components path ≠ element :: rest :=
  fun same => slash_not_mem_components (same ▸ mem_cons_self) rooted

/-- A path whose elements stand in front of those of another one has the same root, up to a root directory. -/
theorem components_of_prefix (some_ : elements start ≠ []) (inside : elements start <+: elements path) :
    components start <+: components path ∧
      (root path = root start ∨ ∃ net, root start = .name net false ∧ root path = .name net true) := by
  obtain ⟨rest, split⟩ := inside
  unfold elements at some_ split
  have empty : ∀ {path net}, root path = .name net false → components path = [] := fun {path net} name =>
    components_of_bare (by rw [name]; rfl)
  -- What a root contributes has a slash in it, so different kinds of roots have no first element in common.
  cases here : root start with
  | none =>
    rw [here] at some_ split
    obtain ⟨first, later, names⟩ := exists_cons_of_ne_nil some_
    have names' : components start = first :: later := names
    have plain : slash ∉ first := slash_not_mem_components (names' ▸ mem_cons_self : first ∈ components start)
    cases there : root path with
    | none =>
      rw [there] at split
      exact ⟨⟨rest, split⟩, .inl rfl⟩
    | directory =>
      rw [there, names] at split
      exact absurd ((List.cons.inj split).1 ▸ mem_cons_self) plain
    | name net based =>
      rw [there, names] at split
      cases based with
      | false => exact absurd ((List.cons.inj split).1 ▸ mem_cons_self) plain
      | true => exact absurd ((List.cons.inj split).1 ▸ mem_cons_self) plain
  | directory =>
    rw [here] at split
    cases there : root path with
    | none =>
      rw [there] at split
      exact absurd split.symm (components_ne_root mem_cons_self)
    | directory =>
      rw [there] at split
      exact ⟨⟨rest, (List.cons.inj split).2⟩, .inl rfl⟩
    | name net based =>
      rw [there] at split
      cases based with
      | false => cases (List.cons.inj split).1
      | true => cases (List.cons.inj split).1
  | name net based =>
    rw [here] at split
    cases there : root path with
    | none =>
      rw [there] at split
      cases based with
      | false => exact absurd split.symm (components_ne_root mem_cons_self)
      | true => exact absurd split.symm (components_ne_root mem_cons_self)
    | directory =>
      rw [there] at split
      cases based with
      | false => cases (List.cons.inj split).1
      | true => cases (List.cons.inj split).1
    | name net' based' =>
      rw [there] at split
      cases based with
      | false =>
        rw [empty here]
        refine ⟨List.nil_prefix, ?_⟩
        cases based' with
        | false =>
          cases (List.cons.inj split).1
          exact .inl rfl
        | true =>
          cases (List.cons.inj split).1
          exact .inr ⟨net, rfl, rfl⟩
      | true =>
        cases based' with
        | false =>
          rw [empty there] at split
          cases (List.cons.inj split).2
        | true =>
          cases (List.cons.inj split).1
          exact ⟨⟨rest, (List.cons.inj (List.cons.inj split).2).2⟩, .inl rfl⟩

/-- Of two paths without redundant pieces, one with its elements in front of the other's has its characters there too,
and the characters behind them spell the remaining components.
-/
theorem chars_of_prefix (settled : removeDots start = start) (settled' : removeDots path = path)
    (some_ : elements start ≠ []) (inside : elements start <+: elements path) :
    ∃ chars, path = start ++ chars ∧ fragments chars = remaining start path := by
  obtain ⟨⟨rest, names⟩, roots⟩ := components_of_prefix some_ inside
  have tail : remaining start path = rest := by rw [remaining, ← names, drop_left]
  have clean : ∀ component ∈ rest, kept component = true ∧ slash ∉ component := fun component member =>
    (components_settled path).clean component (names ▸ mem_append_right _ member)
  rw [tail]
  rcases roots with same | ⟨net, here, there⟩
  · obtain ⟨chars, split, spells⟩ := render_append (root start) (components start) clean
    refine ⟨chars, ?_, spells⟩
    rw [names, ← same, ← removeDots, settled'] at split
    rwa [same, ← removeDots, settled] at split
  · obtain ⟨chars, split, spells⟩ := render_name net clean
    have empty : components start = [] := components_of_bare (by rw [here]; rfl)
    rw [empty, nil_append] at names
    refine ⟨chars, ?_, spells⟩
    rw [names, ← there, ← removeDots, settled', ← here, ← empty, ← removeDots, settled] at split
    exact split

theorem appended_remaining (settled' : removeDots path = path)
    (some_ : elements start ≠ []) (inside : elements start <+: elements path)
    (based : bareName start = true → remaining start path ≠ []) : appended start (remaining start path) = path := by
  obtain ⟨⟨rest, names⟩, roots⟩ := components_of_prefix some_ inside
  have tail : remaining start path = rest := by rw [remaining, ← names, drop_left]
  rw [tail] at based ⊢
  -- The root is that of the whole path, which has gained a root directory if it is a root name.
  have base : (if rest = [] then root start else (root start).based) = root path := by
    rcases roots with same | ⟨net, here, there⟩
    · split
      · exact same.symm
      · next more =>
        rw [← same]
        cases here : root path with
        | none => rfl
        | directory => rfl
        | name net based =>
          cases based with
          | true => rfl
          | false =>
            have empty : components path = [] := components_of_bare (by rw [here]; rfl)
            rw [empty] at names
            exact absurd (List.append_eq_nil_iff.mp names).2 more
    · have more : rest ≠ [] := based (by rw [bareName, here]; rfl)
      rw [if_neg more, here, there]
      rfl
  have whole : render (root path) (settle (root path).absolute (components start ++ rest)) = path := by
    conv_rhs => rw [← settled']
    rw [names]
    exact congrArg (render (root path)) (components_settled path).settle
  unfold appended
  dsimp only
  rw [base, whole, if_neg]
  rintro ⟨rfl, -⟩
  exact some_ (prefix_nil.mp inside)

theorem appended_current (normal : Normal path) (current : start = [] ∨ start = [dot])
    (rootless : root path = .none) (some_ : path ≠ []) (named : start = [] → components path ≠ []) :
    appended start (components path) = path := by
  have start' : root start = .none ∧ components start = [] := by
    rcases current with rfl | rfl
    · exact ⟨rfl, rfl⟩
    · exact ⟨rfl, rfl⟩
  have base : (if components path = [] then root start else (root start).based) = root path := by
    rw [start'.1, rootless]
    split
    · rfl
    · rfl
  have whole : render (root path) (settle (root path).absolute (components start ++ components path)) =
      removeDots path := by
    rw [start'.2]
    exact congrArg (render (root path)) (components_settled path).settle
  unfold appended
  dsimp only
  rw [base, whole]
  rcases normal with rfl | same
  · rw [if_pos]
    exact ⟨rfl, fun both => named both.1 both.2⟩
  · rw [same, if_neg fun both => some_ both.1]

end Library.PosixPath
