import Lldb.Symbol.Block

/-! The tree of blocks against the tree of scopes that the entries describe: when a block contains
exactly the offsets of its scope and of the scopes in it.
-/

set_option autoImplicit false

namespace Lldb

open List

open Library (Window)

inductive Scope where
  | mk (ranges : List Range) (children : List Scope)

namespace Scope

open Block (covered)

mutual

def covers : Scope → Set Nat
  | .mk ranges children => covered ranges ∪ coversAll children

def coversAll : List Scope → Set Nat
  | [] => ∅
  | scope :: scopes => covers scope ∪ coversAll scopes

end

mutual

/-- How deep the deepest scope is that has a range with the offset, and 0 for none. -/
def depth (offset : Nat) : Scope → Nat
  | .mk ranges children =>
    if depthAll offset children ≠ 0 then depthAll offset children + 1
    else if ranges.any (offset ∈ ·.window) then 1 else 0

def depthAll (offset : Nat) : List Scope → Nat
  | [] => 0
  | scope :: scopes => max (depth offset scope) (depthAll offset scopes)

end

end Scope

def Range.relative (lowPc : Nat) (range : Range) : Range := ⟨range.base - lowPc, range.size⟩

/-- The range begins at or after the low address, and its end does not wrap around. -/
def Range.Suited (lowPc : Nat) (range : Range) : Prop := lowPc ≤ range.base ∧ range.base - lowPc + range.size < 2 ^ 32

namespace Die

mutual

def scope (lowPc : Nat) : Die → Option Scope
  | .mk .subprogram _ _ | .mk .other _ _ => none
  | .mk .inlinedSubroutine ranges children | .mk .lexicalBlock ranges children =>
    some (if ranges = [] then .mk [] [] else .mk (ranges.map (Range.relative lowPc)) (scopes lowPc children))

def scopes (lowPc : Nat) : List Die → List Scope
  | [] => []
  | die :: siblings =>
    match scope lowPc die with
    | none => scopes lowPc siblings
    | some scope => scope :: scopes lowPc siblings

end

mutual

def Suited (lowPc : Nat) : Die → Prop
  | .mk _ ranges children => (∀ range ∈ ranges, range.Suited lowPc) ∧ SuitedAll lowPc children

def SuitedAll (lowPc : Nat) : List Die → Prop
  | [] => True
  | die :: siblings => die.Suited lowPc ∧ SuitedAll lowPc siblings

end

end Die

namespace Block

/-- `AddRange` on the blocks around one. -/
def push (outer : List (List Range)) (range : Range) : List (List Range) :=
  match outer with
  | [] => []
  | parent :: outer =>
    if (findEntryThatContainsRange parent range).isSome then parent :: outer else (parent ++ [range]) :: push outer range

theorem addRange_cons (entries : List Range) (outer : List (List Range)) (range : Range) :
    addRange (entries :: outer) range = (entries ++ [range]) :: push outer range := by
  induction outer generalizing entries with
  | nil => rfl
  | cons parent outer ih =>
    rw [addRange, push, ih]

theorem foldl_addRange (entries : List Range) (outer : List (List Range)) (ranges : List Range) :
    ranges.foldl addRange (entries :: outer) = (entries ++ ranges) :: ranges.foldl push outer := by
  induction ranges generalizing entries outer with
  | nil => rw [List.append_nil]; rfl
  | cons range ranges ih =>
    simp [addRange_cons, ih]

/-! The condition: what is appended to a block that has been finalized follows its ranges. -/

def Suits (range : Range) : List (List Range) → Prop
  | [] => True
  | parent :: outer => (findEntryThatContainsRange parent range).isSome = true ∨ Follows parent range ∧ Suits range outer

def RangesSuit (outer : List (List Range)) : List Range → Prop
  | [] => True
  | range :: ranges => Suits range outer ∧ RangesSuit (push outer range) ranges

mutual

def BlockSuits (lowPc : Nat) (outer : List (List Range)) : Die → Prop
  | .mk .subprogram _ _ | .mk .other _ _ => True
  | .mk .inlinedSubroutine ranges children | .mk .lexicalBlock ranges children =>
    ranges = [] ∨ RangesSuit outer (offsets lowPc ranges) ∧ TidyAll (sort (offsets lowPc ranges)) ∧
        BlocksSuit lowPc (finalize ((offsets lowPc ranges).foldl addRange ([] :: outer))) children

def BlocksSuit (lowPc : Nat) (outer : List (List Range)) : List Die → Prop
  | [] => True
  | die :: siblings => BlockSuits lowPc outer die ∧ BlocksSuit lowPc (parseBlock lowPc outer die).1 siblings

end

structure Nested (outer : List (List Range)) : Prop where
  ordered : ∀ entries ∈ outer, Ordered entries
  fits : ∀ entries ∈ outer, Fits entries
  nested : outer.Pairwise fun inner outer => covered inner ⊆ covered outer

variable {outer : List (List Range)} {ranges : List Range} {lowPc : Nat}

theorem Nested.tail {entries : List Range} (nested : Nested (entries :: outer)) : Nested outer where
  ordered other there := nested.ordered other (mem_cons_of_mem _ there)
  fits other there := nested.fits other (mem_cons_of_mem _ there)
  nested := (pairwise_cons.mp nested.nested).2

def Grown (before after : List (List Range)) (added : Set Nat) : Prop :=
  List.Forall₂ (fun entries others => covered others = covered entries ∪ added) before after

theorem Grown.refl (outer : List (List Range)) : Grown outer outer ∅ :=
  forall₂_same.mpr fun _ _ => (Set.union_empty _).symm

theorem Grown.trans {first second third : List (List Range)} {added more : Set Nat} (one : Grown first second added)
    (two : Grown second third more) : Grown first third (added ∪ more) := by
  induction one generalizing third with
  | nil =>
    cases two
    exact .nil
  | cons same _ ih =>
    cases two with
    | cons again rest => exact .cons (by rw [again, same, Set.union_assoc]) (ih rest)

theorem push_spec (nested : Nested outer) {range : Range} (fits : stop range < 2 ^ 32) (suits : Suits range outer) :
    Nested (push outer range) ∧ Grown outer (push outer range) { offset | offset ∈ range.window } := by
  induction outer with
  | nil => exact ⟨nested, .nil⟩
  | cons parent outer ih =>
    have order := nested.ordered parent mem_cons_self
    have parentFits := nested.fits parent mem_cons_self
    have above := (pairwise_cons.mp nested.nested).1
    rw [push]
    by_cases found : (findEntryThatContainsRange parent range).isSome = true
    · rw [if_pos found]
      obtain ⟨entry, there, inside, ends⟩ := within_of_contains parentFits fits found
      have within : { offset | offset ∈ range.window } ⊆ covered parent := by
        intro offset member
        refine ⟨entry, there, ?_⟩
        simp only [Set.mem_ofPred_eq, Range.window, Window.mem_mk] at member inside ⊢
        unfold stop at ends
        omega
      refine ⟨nested, forall₂_same.mpr fun entries there => (Set.union_eq_left.mpr ?_).symm⟩
      rcases mem_cons.mp there with rfl | later
      · exact within
      · exact within.trans (above entries later)
    · rw [if_neg found]
      obtain ⟨follows, outerSuits⟩ := suits.resolve_left found
      obtain ⟨outerNested, grown⟩ := ih nested.tail outerSuits
      refine ⟨⟨?_, ?_, ?_⟩, .cons (covered_append parent range) grown⟩
      · exact forall_mem_cons.mpr ⟨ordered_append order parentFits fits found follows, outerNested.ordered⟩
      · refine forall_mem_cons.mpr ⟨fun entry there => ?_, outerNested.fits⟩
        rcases mem_append.mp there with old | new
        · exact parentFits entry old
        · rw [mem_singleton.mp new]
          exact fits
      · refine pairwise_cons.mpr ⟨fun entries there => ?_, outerNested.nested⟩
        obtain ⟨index, bound, same⟩ := mem_iff_getElem.mp there
        have before : index < outer.length := by rwa [grown.length_eq]
        have grew := (forall₂_iff_get.mp grown).2 index before bound
        rw [covered_append, ← same]
        change covered (push outer range)[index] = _ at grew
        rw [grew]
        exact Set.union_subset_union_left _ (above _ (getElem_mem before))

theorem pushes_spec (nested : Nested outer) (fits : Fits ranges) (suits : RangesSuit outer ranges) :
    Nested (ranges.foldl push outer) ∧ Grown outer (ranges.foldl push outer) (covered ranges) := by
  induction ranges generalizing outer with
  | nil =>
    refine ⟨nested, ?_⟩
    rw [show covered [] = ∅ from Set.eq_empty_of_forall_notMem fun _ ⟨_, there, _⟩ => not_mem_nil there]
    exact Grown.refl outer
  | cons range ranges ih =>
    obtain ⟨first, others⟩ := forall_mem_cons.mp fits
    obtain ⟨pushed, grown⟩ := push_spec nested first suits.1
    obtain ⟨all, more⟩ := ih pushed others suits.2
    rw [covered_cons]
    exact ⟨all, grown.trans more⟩

theorem enter_spec (nested : Nested outer) (fits : Fits ranges)
    (suits : RangesSuit outer ranges) (tidy : TidyAll (sort ranges)) :
    ∃ entries others, finalize (ranges.foldl addRange ([] :: outer)) = entries :: others ∧ Nested (entries :: others) ∧
      covered entries = covered ranges ∧ Grown outer others (covered ranges) := by
  obtain ⟨pushed, grown⟩ := pushes_spec nested fits suits
  obtain ⟨covers, finalFits, ordered⟩ := finalizeRanges_spec fits tidy
  refine ⟨finalizeRanges ranges, ranges.foldl push outer, ?_, ⟨?_, ?_, ?_⟩, covers, grown⟩
  · rw [foldl_addRange]
    rfl
  · exact forall_mem_cons.mpr ⟨ordered, pushed.ordered⟩
  · exact forall_mem_cons.mpr ⟨finalFits, pushed.fits⟩
  · refine pairwise_cons.mpr ⟨fun entries there => ?_, pushed.nested⟩
    obtain ⟨index, bound, same⟩ := mem_iff_getElem.mp there
    have grew := (forall₂_iff_get.mp grown).2 index (by rwa [grown.length_eq]) bound
    change covered (ranges.foldl push outer)[index] = _ at grew
    rw [covers, ← same, grew]
    exact Set.subset_union_right

mutual

/-- Each block contains the offsets of its scope, and its children are the blocks of the scopes in it. -/
def Right : Scope → Block → Prop
  | .mk ranges children, .mk entries blocks =>
    (∀ offset < 2 ^ 32, contains entries offset = true ↔ offset ∈ (Scope.mk ranges children).covers) ∧
      RightAll children blocks

def RightAll : List Scope → List Block → Prop
  | [], [] => True
  | scope :: scopes, block :: blocks => Right scope block ∧ RightAll scopes blocks
  | _, _ => False

end

theorem offsets_eq (suited : ∀ range ∈ ranges, range.Suited lowPc) :
    offsets lowPc ranges = ranges.map (Range.relative lowPc) := by
  have all : ranges.filter (fun range => range.base ≥ lowPc) = ranges :=
    List.filter_eq_self.mpr fun range there => decide_eq_true (suited range there).1
  rw [offsets, all]
  apply map_congr_left
  intro range there
  obtain ⟨-, bound⟩ := suited range there
  rw [Nat.mod_eq_of_lt (by omega), Nat.mod_eq_of_lt (by omega), Range.relative]

theorem fits_relative (suited : ∀ range ∈ ranges, range.Suited lowPc) : Fits (ranges.map (Range.relative lowPc)) := by
  intro range there
  obtain ⟨original, member, rfl⟩ := mem_map.mp there
  exact (suited original member).2

theorem covers_empty : (Scope.mk [] []).covers = ∅ := by
  rw [Scope.covers, Scope.coversAll, Set.union_empty]
  exact Set.eq_empty_of_forall_notMem fun _ ⟨_, there, _⟩ => not_mem_nil there

/-- The block of a scope, given what its children do; an inlined subroutine is treated alike. -/
theorem parseBlock_scope (nested : Nested outer) {children : List Die} (suited : ∀ range ∈ ranges, range.Suited lowPc)
    (suits : BlockSuits lowPc outer (.mk .lexicalBlock ranges children))
    (inner : ∀ added, Nested added → BlocksSuit lowPc added children →
      ∃ all blocks, parseBlocks lowPc added children = (all, blocks) ∧ Nested all ∧
        Grown added all (Scope.coversAll (Die.scopes lowPc children)) ∧ RightAll (Die.scopes lowPc children) blocks) :
    ∃ scope, Die.scope lowPc (.mk .lexicalBlock ranges children) = some scope ∧
      ∃ others block, parseBlock lowPc outer (.mk .lexicalBlock ranges children) = (others, some block) ∧ Nested others ∧
        Grown outer others scope.covers ∧ Right scope block := by
  refine ⟨_, rfl, ?_⟩
  rw [parseBlock]
  by_cases none_ : ranges = []
  · rw [if_pos none_, if_pos none_]
    refine ⟨outer, .mk [] [], rfl, nested, ?_, fun offset _ => ?_, trivial⟩
    · rw [covers_empty]
      exact Grown.refl outer
    · rw [covers_empty]
      exact ⟨nofun, fun there => absurd there (Set.notMem_empty offset)⟩
  · rw [if_neg none_, if_neg none_]
    obtain ⟨rangesSuit, tidy, childrenSuit⟩ := Or.resolve_left suits none_
    have fits := fits_relative suited
    rw [offsets_eq suited] at rangesSuit tidy childrenSuit ⊢
    obtain ⟨own, around, entered, addedNested, same, grown⟩ := enter_spec nested fits rangesSuit tidy
    rw [entered] at childrenSuit ⊢
    obtain ⟨all, blocks, parsed, allNested, more, right⟩ := inner _ addedNested childrenSuit
    simp only [parsed]
    cases more with
    | cons grew rest =>
      refine ⟨_, _, rfl, allNested.tail, grown.trans rest, fun offset small => ?_, right⟩
      rw [headD_cons, contains_iff (allNested.ordered _ mem_cons_self) (allNested.fits _ mem_cons_self) small,
        grew, same]
      rfl

mutual

theorem parseBlock_spec {lowPc : Nat} {outer : List (List Range)} (nested : Nested outer) :
    (die : Die) → die.Suited lowPc → BlockSuits lowPc outer die →
      (die.scope lowPc = none ∧ parseBlock lowPc outer die = (outer, none)) ∨
        ∃ scope, die.scope lowPc = some scope ∧ ∃ others block, parseBlock lowPc outer die = (others, some block) ∧
          Nested others ∧ Grown outer others scope.covers ∧ Right scope block
  | .mk .subprogram _ _, _, _ => .inl ⟨rfl, rfl⟩
  | .mk .other _ _, _, _ => .inl ⟨rfl, rfl⟩
  | .mk .inlinedSubroutine _ children, ⟨suited, all⟩, suits => .inr <|
    parseBlock_scope nested suited suits fun _ added childrenSuit => parseBlocks_spec added children all childrenSuit
  | .mk .lexicalBlock _ children, ⟨suited, all⟩, suits => .inr <|
    parseBlock_scope nested suited suits fun _ added childrenSuit => parseBlocks_spec added children all childrenSuit

theorem parseBlocks_spec {lowPc : Nat} {outer : List (List Range)} (nested : Nested outer) :
    (dies : List Die) → Die.SuitedAll lowPc dies → BlocksSuit lowPc outer dies →
      ∃ others blocks, parseBlocks lowPc outer dies = (others, blocks) ∧ Nested others ∧
        Grown outer others (Scope.coversAll (Die.scopes lowPc dies)) ∧ RightAll (Die.scopes lowPc dies) blocks
  | [], _, _ => ⟨outer, [], rfl, nested, Grown.refl outer, trivial⟩
  | die :: siblings, ⟨suited, all⟩, ⟨suits, later⟩ => by
    rw [parseBlocks, Die.scopes]
    rcases parseBlock_spec nested die suited suits with ⟨skipped, parsed⟩ | ⟨scope, found, others, block, parsed, first, grown, right⟩
    · rw [parsed] at later
      rw [parsed, skipped]
      exact parseBlocks_spec nested siblings all later
    · rw [parsed] at later
      obtain ⟨last, blocks, rest, lastNested, more, rights⟩ := parseBlocks_spec first siblings all later
      rw [parsed, found]
      refine ⟨last, block :: blocks, ?_, lastNested, grown.trans more, right, rights⟩
      simp only [rest]

end

/-! The function. -/

def functionLowPc : Die → Nat
  | .mk .subprogram ranges _ | .mk .inlinedSubroutine ranges _ => getMinRangeBase ranges
  | .mk .lexicalBlock _ _ | .mk .other _ _ => invalidAddress

/-- The scope of a function's block: that of the entry, or one without ranges around it. -/
def functionScope (die : Die) : Scope :=
  match die with
  | .mk .subprogram ranges children =>
    if ranges = [] then .mk [] []
    else .mk (ranges.map (Range.relative (functionLowPc die))) (Die.scopes (functionLowPc die) children)
  | _ => .mk [] (die.scope (functionLowPc die)).toList

def FunctionSuits (die : Die) : Prop :=
  match die with
  | .mk .subprogram ranges children => BlockSuits (functionLowPc die) [] (.mk .lexicalBlock ranges children)
  | _ => BlockSuits (functionLowPc die) [[]] die

theorem nested_empty : Nested [] where
  ordered _ there := absurd there not_mem_nil
  fits _ there := absurd there not_mem_nil
  nested := List.Pairwise.nil

theorem nested_nil : Nested [[]] where
  ordered _ there := by
    rw [mem_singleton.mp there]
    exact List.Pairwise.nil
  fits _ there range member := by
    rw [mem_singleton.mp there] at member
    exact absurd member not_mem_nil
  nested := pairwise_singleton _ _

theorem right_around {die : Die} (suited : die.Suited lowPc) (suits : BlockSuits lowPc [[]] die) :
    Right (.mk [] (die.scope lowPc).toList)
      (.mk ((parseBlock lowPc [[]] die).1.headD []) (parseBlock lowPc [[]] die).2.toList) := by
  rcases parseBlock_spec nested_nil die suited suits with ⟨skipped, parsed⟩ | ⟨scope, found, others, block, parsed, nested, grown, right⟩
  · rw [parsed, skipped]
    refine ⟨fun offset _ => ?_, trivial⟩
    change _ ↔ offset ∈ (Scope.mk [] []).covers
    rw [covers_empty]
    exact ⟨nofun, fun there => absurd there (Set.notMem_empty offset)⟩
  · rw [parsed, found]
    cases grown with
    | cons grew rest =>
      refine ⟨fun offset small => ?_, right, trivial⟩
      rw [headD_cons, contains_iff (nested.ordered _ mem_cons_self) (nested.fits _ mem_cons_self) small, grew]
      change _ ↔ offset ∈ covered [] ∪ (scope.covers ∪ ∅)
      rw [Set.union_empty]

theorem parseFunctionBlocks_right {die : Die} (suited : die.Suited (functionLowPc die)) (suits : FunctionSuits die) :
    Right (functionScope die) (parseFunctionBlocks die) := by
  match die, suited, suits with
  | .mk .subprogram ranges children, ⟨own, all⟩, suits =>
    obtain ⟨scope, found, others, block, parsed, -, -, right⟩ :=
      parseBlock_scope nested_empty own suits fun added nested childrenSuit =>
        parseBlocks_spec nested children all childrenSuit
    rw [parseBlock] at parsed
    rw [functionScope, parseFunctionBlocks]
    cases found
    by_cases none_ : ranges = []
    · rw [if_pos none_] at parsed
      rw [if_pos none_] at right ⊢
      cases parsed
      rwa [if_pos none_]
    · rw [if_neg none_] at parsed
      rw [if_neg none_] at right ⊢
      rw [if_neg none_]
      cases parsed
      exact right
  | .mk .other _ _, suited, suits => exact right_around suited suits
  | .mk .lexicalBlock _ _, suited, suits => exact right_around suited suits
  | .mk .inlinedSubroutine _ _, suited, suits => exact right_around suited suits

/-! The search from the function's block down. -/

mutual

/-- How deep a search gets that only goes into blocks that contain the offset. -/
def descend (offset : Nat) : Block → Nat
  | .mk entries children => if contains entries offset then descendAll offset children + 1 else 0

def descendAll (offset : Nat) : List Block → Nat
  | [] => 0
  | block :: blocks => max (descend offset block) (descendAll offset blocks)

end

mutual

theorem depth_eq_zero {offset : Nat} : (scope : Scope) → (scope.depth offset = 0 ↔ offset ∉ scope.covers)
  | .mk ranges children => by
    have below : Scope.depthAll offset children = 0 ↔ offset ∉ Scope.coversAll children := depthAll_eq_zero children
    have own : ranges.any (fun range => decide (offset ∈ range.window)) = true ↔ offset ∈ covered ranges := by
      simp [covered]
    rw [Scope.depth, Scope.covers]
    split
    · simp_all
    · split <;> simp_all

theorem depthAll_eq_zero {offset : Nat} : (scopes : List Scope) → (Scope.depthAll offset scopes = 0 ↔ offset ∉ Scope.coversAll scopes)
  | [] => by simp [Scope.depthAll, Scope.coversAll]
  | scope :: scopes => by
    have first : scope.depth offset = 0 ↔ offset ∉ scope.covers := depth_eq_zero scope
    have others : Scope.depthAll offset scopes = 0 ↔ offset ∉ Scope.coversAll scopes := depthAll_eq_zero scopes
    rw [Scope.depthAll, Scope.coversAll, Set.mem_union, not_or, ← first, ← others]
    omega

end

mutual

theorem descend_eq {offset : Nat} (small : offset < 2 ^ 32) :
    (scope : Scope) → (block : Block) → Right scope block → descend offset block = scope.depth offset
  | .mk ranges children, .mk entries blocks, ⟨contained, below⟩ => by
    have inner := descendAll_eq small children blocks below
    have zero : (Scope.mk ranges children).depth offset = 0 ↔ offset ∉ (Scope.mk ranges children).covers :=
      depth_eq_zero (.mk ranges children)
    have here := contained offset small
    rw [descend, inner]
    by_cases holds : contains entries offset = true
    · -- the offset is in a scope below, or in a range of this one
      have some_ : (Scope.mk ranges children).depth offset ≠ 0 := fun none_ => zero.mp none_ (here.mp holds)
      rw [if_pos holds]
      rw [Scope.depth] at some_ ⊢
      split at some_
      · rw [if_pos ‹_›]
      · split at some_
        · rw [if_neg ‹_›, if_pos ‹_›]
          omega
        · exact absurd rfl some_
    · rw [if_neg holds, zero.mpr (mt here.mpr holds)]

theorem descendAll_eq {offset : Nat} (small : offset < 2 ^ 32) :
    (scopes : List Scope) → (blocks : List Block) → RightAll scopes blocks → descendAll offset blocks = Scope.depthAll offset scopes
  | [], [], _ => rfl
  | scope :: scopes, block :: blocks, ⟨first, others⟩ => by
    rw [descendAll, Scope.depthAll, descend_eq small scope block first, descendAll_eq small scopes blocks others]
  | [], _ :: _, none_ => none_.elim
  | _ :: _, [], none_ => none_.elim

end

/-- Where what is added to a block that has its own ranges follows them, and these are tidy, every
block contains exactly the offsets of its scope and of those in it, and a search finds the deepest.
-/
theorem function_blocks_nested {die : Die} (suited : die.Suited (functionLowPc die)) (suits : FunctionSuits die) :
    Right (functionScope die) (parseFunctionBlocks die) ∧
      ∀ offset < 2 ^ 32, descend offset (parseFunctionBlocks die) = (functionScope die).depth offset :=
  have right := parseFunctionBlocks_right suited suits
  ⟨right, fun _ small => descend_eq small _ _ right⟩

def nestedDie : Die :=
  .mk .subprogram [⟨4096, 30⟩, ⟨4136, 10⟩] [.mk .lexicalBlock [⟨4100, 10⟩] [.mk .inlinedSubroutine [⟨4102, 2⟩, ⟨4104, 1⟩] []]]

theorem function_blocks_nested_nestedDie : Right (functionScope nestedDie) (parseFunctionBlocks nestedDie) ∧
      ∀ offset < 2 ^ 32, descend offset (parseFunctionBlocks nestedDie) = (functionScope nestedDie).depth offset := by
  apply function_blocks_nested
  · simp [nestedDie, functionLowPc, getMinRangeBase, Die.Suited, Die.SuitedAll, Range.Suited]
  · refine .inr ⟨⟨trivial, trivial, trivial⟩, by decide, ⟨.inr ⟨⟨.inl (by decide), trivial⟩, by decide, ?_⟩, trivial⟩⟩
    exact ⟨.inr ⟨⟨.inl (by decide), .inl (by decide), trivial⟩, by decide, trivial⟩, trivial⟩

/-- The same function with a block in the hole, whose range goes behind the last one of the function. -/
def escapingDie : Die := .mk .subprogram [⟨4096, 30⟩, ⟨4136, 10⟩] [.mk .lexicalBlock [⟨4126, 5⟩] []]

theorem function_blocks_not_always_nested : ¬ Right (functionScope escapingDie) (parseFunctionBlocks escapingDie) := by
  intro right
  have inside : 45 ∈ (functionScope escapingDie).covers :=
    .inl ⟨⟨40, 10⟩, by decide, by decide⟩
  have contained := (right.1 45 (by decide)).mpr inside
  revert contained
  decide

end Block

end Lldb
