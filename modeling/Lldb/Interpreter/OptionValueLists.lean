import Mathlib.Algebra.Order.Ring.Int
import Mathlib.Data.List.Dedup
import Mathlib.Data.List.Induction
import Mathlib.Data.List.Sort

/-! Settings that hold a list: `OptionValueArray`, `OptionValueFileSpecList` and `OptionValuePathMappings`.

How an argument is read as a number and what values are made of arguments is arbitrary.
-/

set_option autoImplicit false

namespace Lldb.OptionValue

open Option List

inductive Operation where
  | clear
  | replace
  | insertBefore
  | insertAfter
  | remove
  | append
  | assign
  | invalid
  deriving DecidableEq

variable {A ι α : Type}

inductive Error (A : Type) where
  | invalid
  | takes (op : Operation)
  | index (idx count : Nat)
  | removeIndex (named : Option A)
  | value (argument : A)
  | missingPath (path : A)
  | complex

/-- `StringConvert` of an argument; the failure values are `UINT32_MAX` and `INT32_MAX`. -/
structure StringConvert (A : Type) where
  toUInt32 : A → Nat
  toSInt32 : A → Int

/-- What one of the classes does with the arguments of a command. -/
structure ListClass (A ι α : Type) where
  /-- What values are made of, if it is the right number of arguments. -/
  items : List A → Option (List ι)
  make : ι → Except (Error A) α
  insert : Nat → α → List α → List α
  /-- The first number is the count of the values when the command starts. -/
  replace : Nat → Nat → α → List α → List α
  /-- Whether an index may be removed from so many values. -/
  valid : Nat → Int → Bool
  /-- The argument that is named when one is not an index. -/
  named : A → List A → Option A
  removeAll : List Int → List α → Option (List α)
  needsItems : Bool
  clearsFirst : Bool
  appendTakes : Operation → Error A

/-- The pairs of original paths and replacements. -/
def pairs : List A → Option (List (A × A))
  | [] => some []
  | [_] => none
  | original :: replacement :: rest => (pairs rest).map ((original, replacement) :: ·)

def eraseAt (values : List α) (index : Int) : Option (List α) :=
  if index.toNat < values.length then some (values.eraseIdx index.toNat) else none

/-- From the last index to the first one; an erasure behind the end is undefined. -/
def eraseSorted (indexes : List Int) (values : List α) : Option (List α) :=
  (indexes.insertionSort (· ≤ ·)).reverse.foldlM eraseAt values

/-- It is the positions in the sorted vector that are erased. -/
def erasePositions (indexes : List Int) (values : List α) : Option (List α) :=
  some ((List.range indexes.length).foldr (fun j values => values.eraseIdx j) values)

/-- Values that no class exists for are never made: the append goes on then, but finds none. -/
def array (create : Option (A → Except (Error A) α)) : ListClass A A α where
  items := some
  make := create.getD fun _ => .error .complex
  insert idx value values := if values.length ≤ idx then values ++ [value] else values.insertIdx idx value
  replace count idx value values := if idx < count then values.set idx value else values ++ [value]
  valid size idx := 0 ≤ idx && idx < size
  named arg _ := some arg
  removeAll := eraseSorted
  needsItems := false
  clearsFirst := true
  appendTakes := .takes

def fileSpecList (fileSpec : A → α) : ListClass A A α where
  items := some
  make arg := .ok (fileSpec arg)
  insert idx value values :=
    if idx < values.length then values.insertIdx idx value else if idx = values.length then values ++ [value] else values
  replace count idx value values := if idx < count then values.set idx value else values ++ [value]
  valid _ idx := idx ≠ 2 ^ 31 - 1
  named _ rest := rest.head?
  removeAll := erasePositions
  needsItems := true
  clearsFirst := true
  appendTakes _ := .takes .assign

def pathMappings (exists_ : A → Bool) (normalized : A × A → α) : ListClass A (A × A) α where
  items := pairs
  make pair := if exists_ pair.2 then .ok (normalized pair) else .error (.missingPath pair.2)
  insert idx value values := values.insertIdx (if values.length ≤ idx then values.length else idx) value
  replace _ idx value values := if values.length ≤ idx then values ++ [value] else values.set idx value
  valid _ idx := idx ≠ 2 ^ 31 - 1
  named _ rest := rest.head?
  removeAll := erasePositions
  needsItems := true
  clearsFirst := false
  appendTakes := .takes

namespace ListClass

variable (class_ : ListClass A ι α) (convert : StringConvert A)

/-- Up to the first item of which no value is made. -/
def loop (edit : Nat → α → List α → List α) : Nat → List ι → List α → List α × Option (Error A)
  | _, [], values => (values, none)
  | idx, item :: rest, values =>
    match class_.make item with
    | .ok value => loop edit (idx + 1) rest (edit idx value values)
    | .error error => (values, some error)

def editFrom (op : Operation) (edit : Nat → α → List α → List α) (args : List A) (values : List α) :
    List α × Option (Error A) :=
  match args.head?, class_.items args.tail with
  | some index, some (item :: rest) =>
    let idx := convert.toUInt32 index
    if values.length < idx then (values, some (.index idx values.length))
    else class_.loop edit (if op = .insertAfter then idx + 1 else idx) (item :: rest) values
  | _, _ => (values, some (.takes op))

def wrongNumber (args : List A) : Bool := (class_.items args).all fun items => items.isEmpty && class_.needsItems

def append (op : Operation) (args : List A) (values : List α) : List α × Option (Error A) :=
  if class_.wrongNumber args then (values, some (class_.appendTakes op))
  else class_.loop (fun _ value values => values ++ [value]) 0 ((class_.items args).getD []) values

def readIndexes (size : Nat) : List A → Except (Error A) (List Int)
  | [] => .ok []
  | arg :: rest =>
    if class_.valid size (convert.toSInt32 arg) then (readIndexes size rest).map (convert.toSInt32 arg :: ·)
    else .error (.removeIndex (class_.named arg rest))

/-- The values after the command, and its error. -/
def setArgs (op : Operation) (args : List A) (values : List α) : Option (List α × Option (Error A)) :=
  match op with
  | .clear => some ([], none)
  | .insertBefore | .insertAfter => some (class_.editFrom convert op class_.insert args values)
  | .replace => some (class_.editFrom convert op (class_.replace values.length) args values)
  | .append => some (class_.append op args values)
  | .assign => some (class_.append op args (if class_.wrongNumber args && !class_.clearsFirst then values else []))
  | .remove =>
    if args = [] then some (values, some (.takes op))
    else
      match class_.readIndexes convert values.length args with
      | .ok indexes => (class_.removeAll indexes values).map (·, none)
      | .error error => some (values, some error)
  | .invalid => some (values, some .invalid)

/-- The values of items up to the first one of which none is made, and its error. -/
def made : List ι → List α × Option (Error A)
  | [] => ([], none)
  | item :: rest =>
    match class_.make item with
    | .ok value => (value :: (made rest).1, (made rest).2)
    | .error error => ([], some error)

def given (args : List A) : List α × Option (Error A) := class_.made ((class_.items args).getD [])

end ListClass

def editAll (edit : Nat → α → List α → List α) : Nat → List α → List α → List α
  | _, [], values => values
  | idx, value :: rest, values => editAll edit (idx + 1) rest (edit idx value values)

/-- The values from a position on whose positions are not among the indexes. -/
def without (indexes : List Int) : Nat → List α → List α
  | _, [] => []
  | position, value :: rest =>
    if (position : Int) ∈ indexes then without indexes (position + 1) rest else value :: without indexes (position + 1) rest

variable {values news : List α} {edit : Nat → α → List α → List α} {idx : Nat}

theorem editAll_push (idx : Nat) (values : List α) : editAll (fun _ value values => values ++ [value]) idx news values = values ++ news := by
  induction news generalizing idx values with
  | nil => simp [editAll]
  | cons value rest ih => simp [editAll, ih]

theorem editAll_end (ends : ∀ idx value (values : List α), values.length ≤ idx → edit idx value values = values ++ [value])
    (behind : values.length ≤ idx) : editAll edit idx news values = values ++ news := by
  induction news generalizing idx values with
  | nil => simp [editAll]
  | cons value rest ih =>
    rw [editAll, ends idx value values behind, ih (by simpa using behind)]
    simp

theorem editAll_insert (inserts : ∀ (front back : List α) value, edit front.length value (front ++ back) = front ++ value :: back)
    (front back news : List α) : editAll edit front.length news (front ++ back) = front ++ news ++ back := by
  induction news generalizing front with
  | nil => simp [editAll]
  | cons value rest ih =>
    have next := ih (front ++ [value])
    rw [length_append, length_singleton] at next
    rw [editAll, inserts, append_cons, next]
    simp

theorem editAll_replace {count : Nat} (replaces : ∀ (front back : List α) value, (front ++ back).length = max count front.length →
      edit front.length value (front ++ back) = front ++ value :: back.drop 1)
    (front back news : List α) (counted : (front ++ back).length = max count front.length) :
    editAll edit front.length news (front ++ back) = front ++ news ++ back.drop news.length := by
  induction news generalizing front back with
  | nil => simp [editAll]
  | cons value rest ih =>
    have next := ih (front ++ [value]) (back.drop 1) (by simp at counted ⊢; omega)
    rw [length_append, length_singleton] at next
    rw [editAll, replaces front back value counted, append_cons, next]
    simp

theorem drop_eraseIdx_self (count : Nat) (values : List α) : (values.eraseIdx count).drop count = values.drop (count + 1) := by
  induction values generalizing count with
  | nil => simp
  | cons value rest ih =>
    cases count with
    | zero => rfl
    | succ count => simpa using ih count

theorem foldr_eraseIdx (count : Nat) (values : List α) :
    (List.range count).foldr (fun j values => values.eraseIdx j) values = values.drop count := by
  induction count generalizing values with
  | zero => rfl
  | succ count ih =>
    simp [range_succ, ih, drop_eraseIdx_self]

section Without

variable {indexes others : List Int} {position : Nat}

theorem without_eq_drop {count : Nat} (counted : ∀ place < position + values.length, position ≤ place →
    ((place : Int) ∈ indexes ↔ place < count)) : without indexes position values = values.drop (count - position) := by
  induction values generalizing position with
  | nil => simp [without]
  | cons value rest ih =>
    rw [length_cons] at counted
    have later := @ih (position + 1) fun place below above => counted place (by omega) (by omega)
    rw [without, later]
    by_cases gone : position < count
    · simp [if_pos ((counted position (by omega) le_rfl).mpr gone), show count - position = count - (position + 1) + 1 by omega]
    · simp [if_neg fun member => gone ((counted position (by omega) le_rfl).mp member), show count - (position + 1) = 0 by omega, show count - position = 0 by omega]

theorem without_range (position length : Nat) : without indexes position (range' position length) =
    (range' position length).filter fun place : Nat => decide ((place : Int) ∉ indexes) := by
  induction length generalizing position with
  | zero => rfl
  | succ length ih => by_cases gone : (position : Int) ∈ indexes <;> simp [range'_succ, without, ih, gone]

theorem without_congr (same : ∀ index, index ∈ indexes ↔ index ∈ others) :
    without indexes position values = without others position values := by
  induction values generalizing position with
  | nil => rfl
  | cons value rest ih => simp [without, same, ih]

theorem without_of_lt (before : ∀ index ∈ indexes, index < position) : without indexes position values = values := by
  induction values generalizing position with
  | nil => rfl
  | cons value rest ih =>
    have here : (position : Int) ∉ indexes := fun member => lt_irrefl _ (before _ member)
    rw [without, if_neg here, ih fun index member => (before index member).trans (by omega)]

/-- The last of the indexes may be erased first. -/
theorem without_concat {last : Nat} (before : ∀ index ∈ indexes, index < last) (after : position ≤ last)
    (inside : last < position + values.length) :
    without (indexes ++ [(last : Int)]) position values = without indexes position (values.eraseIdx (last - position)) := by
  induction values generalizing position with
  | nil => exact absurd inside (by simpa using after)
  | cons value rest ih =>
    rw [length_cons] at inside
    by_cases here : position = last
    · subst here
      rw [without, if_pos (by simp), Nat.sub_self, without_of_lt before]
      refine without_of_lt fun index member => ?_
      rcases mem_append.mp member with early | isLast
      · exact (before index early).trans (by omega)
      · rw [mem_singleton.mp isLast]
        omega
    · have step : last - position = last - (position + 1) + 1 := by omega
      have other : (position : Int) ≠ last := by omega
      rw [without, step, eraseIdx_cons_succ, without, ih (by omega) (by omega)]
      simp [other]

theorem length_eraseAt {after : List α} {index : Int} (is : eraseAt values index = some after) : after.length + 1 = values.length := by
  unfold eraseAt at is
  split at is
  · next inside =>
    rw [← Option.some.inj is, length_eraseIdx_of_lt inside]
    omega
  · cases is

theorem length_foldlM_eraseAt {after : List α} (is : indexes.foldlM eraseAt values = some after) :
    after.length + indexes.length = values.length := by
  induction indexes generalizing values with
  | nil =>
    obtain rfl := Option.some.inj is
    rfl
  | cons index rest ih =>
    obtain ⟨next, erased, left⟩ := bind_eq_some_iff.mp is
    simp [← length_eraseAt erased, ← ih left, Nat.add_assoc]

/-- Increasing indexes of values are erased from the last one on. -/
theorem foldlM_eraseAt (increasing : indexes.Pairwise (· < ·)) (inside : ∀ index ∈ indexes, 0 ≤ index ∧ index < values.length) :
    indexes.reverse.foldlM eraseAt values = some (without indexes 0 values) := by
  induction indexes using reverseRecOn generalizing values with
  | nil => simp [without_of_lt]
  | append_singleton front last ih =>
    obtain ⟨nonneg, small⟩ := inside last (mem_append_right _ (mem_singleton_self _))
    obtain ⟨place, rfl⟩ := Int.eq_ofNat_of_zero_le nonneg
    obtain ⟨sorted, -, below⟩ := pairwise_append.mp increasing
    have before : ∀ index ∈ front, index < place := fun index member => below index member _ (mem_singleton_self _)
    have bound : place < values.length := by simpa using small
    rw [reverse_append, reverse_singleton, singleton_append, foldlM_cons]
    have erased : eraseAt values place = some (values.eraseIdx place) := if_pos bound
    rw [erased, without_concat before (Nat.zero_le _) (by omega)]
    refine ih sorted fun index member => ⟨(inside index (mem_append_left _ member)).1, ?_⟩
    have early := before index member
    rw [length_eraseIdx_of_lt bound]
    omega

theorem eraseSorted_of_nodup (distinct : indexes.Nodup) (inside : ∀ index ∈ indexes, 0 ≤ index ∧ index < values.length) :
    eraseSorted indexes values = some (without indexes 0 values) := by
  have same := perm_insertionSort (· ≤ ·) indexes
  have increasing : (indexes.insertionSort (· ≤ ·)).Pairwise (· < ·) :=
    ((pairwise_insertionSort (· ≤ ·) indexes).and (same.nodup_iff.mpr distinct)).imp fun both => lt_of_le_of_ne both.1 both.2
  rw [eraseSorted, foldlM_eraseAt increasing fun index member => inside index (same.mem_iff.mp member)]
  exact congrArg some (without_congr fun index => same.mem_iff)

/-- Exactly if none of the indexes is given twice. -/
theorem eraseSorted_eq_iff (inside : ∀ index ∈ indexes, 0 ≤ index ∧ index < values.length) :
    eraseSorted indexes values = some (without indexes 0 values) ↔ indexes.Nodup := by
  refine ⟨fun is => ?_, fun distinct => eraseSorted_of_nodup distinct inside⟩
  have once := eraseSorted_of_nodup (nodup_dedup indexes) fun index member => inside index (mem_dedup.mp member)
  rw [without_congr fun index => mem_dedup] at once
  have all := length_foldlM_eraseAt is
  have few := length_foldlM_eraseAt once
  rw [length_reverse, length_insertionSort] at all few
  rw [← dedup_eq_self]
  exact (dedup_sublist indexes).eq_of_length (by omega)

end Without

namespace ListClass

variable (class_ : ListClass A ι α) (convert : StringConvert A) (op : Operation) (args : List A)

/-- The values that the documentation of an operation tells of. -/
def edited (values : List α) : List α :=
  let idx := (args.head?.map convert.toUInt32).getD 0
  let news := (class_.given args.tail).1
  match op with
  | .clear => []
  | .insertBefore => values.take idx ++ news ++ values.drop idx
  | .insertAfter => values.take (idx + 1) ++ news ++ values.drop (idx + 1)
  | .replace => values.take idx ++ news ++ values.drop (idx + news.length)
  | .append => values ++ (class_.given args).1
  | .assign => (class_.given args).1
  | .remove => without (args.map convert.toSInt32) 0 values
  | .invalid => values

/-- The command accesses nothing outside the list, and if it succeeds the values are edited. -/
def EditsAsDocumented (values : List α) : Prop :=
  ∃ after error, class_.setArgs convert op args values = some (after, error) ∧
    (error = none → after = class_.edited convert op args values)

variable {class_ convert op args}

theorem loop_eq (edit : Nat → α → List α → List α) (idx : Nat) (items : List ι) (values : List α) :
    class_.loop edit idx items values = (editAll edit idx (class_.made items).1 values, (class_.made items).2) := by
  induction items generalizing idx values with
  | nil => rfl
  | cons item rest ih =>
    rw [loop, made]
    cases class_.make item with
    | ok value => exact ih _ _
    | error error => rfl

theorem given_of_wrong (wrong : class_.wrongNumber args = true) : class_.given args = ([], none) := by
  unfold given
  unfold wrongNumber at wrong
  cases is : class_.items args with
  | none => rfl
  | some items =>
    rw [is, all_some, Bool.and_eq_true_iff, List.isEmpty_iff] at wrong
    rw [wrong.1]
    rfl

theorem append_eq (values : List α) : (class_.append op args values).1 = values ++ (class_.given args).1 := by
  unfold append
  split
  · next wrong => simp [given_of_wrong wrong]
  · rw [loop_eq]
    exact editAll_push _ _

/-- Either the command is wrong and changes nothing, or it edits from a position inside. -/
theorem editFrom_eq (edit : Nat → α → List α → List α) (values : List α) :
    (∃ error, class_.editFrom convert op edit args values = (values, some error) ∧
        (args = [] ∨ (args.head?.all fun index => values.length < convert.toUInt32 index) = true ∨ class_.given args.tail = ([], none))) ∨
      ∃ index ∈ args.head?, convert.toUInt32 index ≤ values.length ∧ class_.editFrom convert op edit args values =
        (editAll edit (if op = .insertAfter then convert.toUInt32 index + 1 else convert.toUInt32 index)
          (class_.given args.tail).1 values, (class_.given args.tail).2) := by
  unfold editFrom given
  cases args with
  | nil => exact .inl ⟨_, rfl, .inl rfl⟩
  | cons index rest =>
    dsimp only [head?_cons, tail_cons]
    cases class_.items rest with
    | none => exact .inl ⟨_, rfl, .inr (.inr rfl)⟩
    | some items =>
      cases items with
      | nil => exact .inl ⟨_, rfl, .inr (.inr rfl)⟩
      | cons item more =>
        dsimp only
        split
        · next beyond => exact .inl ⟨_, rfl, .inr (.inl (by simpa using beyond))⟩
        · next inside => exact .inr ⟨index, rfl, not_lt.mp inside, loop_eq _ _ _ _⟩

/-- An operation other than a removal, of a class that inserts at any position up to the end. -/
theorem editsAsDocumented_of_ne_remove {values : List α} (other : op ≠ .remove)
    (inserts : ∀ (front back : List α) value, class_.insert front.length value (front ++ back) = front ++ value :: back)
    (ends : op = .insertAfter → (∃ index ∈ args.head?, convert.toUInt32 index = values.length) → (class_.given args.tail).1 ≠ [] →
      ∀ idx value (values : List α), values.length ≤ idx → class_.insert idx value values = values ++ [value])
    (replaces : ∀ count (front back : List α) value, (front ++ back).length = max count front.length →
      class_.replace count front.length value (front ++ back) = front ++ value :: back.drop 1) :
    class_.EditsAsDocumented convert op args values := by
  cases op with
  | clear => exact ⟨_, _, rfl, fun _ => rfl⟩
  | invalid => exact ⟨_, _, rfl, fun _ => rfl⟩
  | remove => exact absurd rfl other
  | append => exact ⟨_, _, rfl, fun _ => append_eq values⟩
  | assign =>
    refine ⟨(class_.append .assign args _).1, (class_.append .assign args _).2, rfl, fun success => (append_eq _).trans ?_⟩
    by_cases wrong : class_.wrongNumber args = true
    · simp only [append, wrong] at success
      cases success
    · rw [if_neg (by simp [wrong])]
      rfl
  | insertBefore =>
    rcases editFrom_eq class_.insert values with ⟨error, is, -⟩ | ⟨index, first, inside, is⟩
    · exact ⟨_, _, congrArg some is, fun success => nomatch success⟩
    · refine ⟨_, _, congrArg some is, fun _ => ?_⟩
      have all := editAll_insert inserts (values.take (convert.toUInt32 index)) (values.drop (convert.toUInt32 index))
        (class_.given args.tail).1
      rw [length_take_of_le inside, take_append_drop] at all
      simp only [edited, mem_def.mp first]
      exact all
  | insertAfter =>
    rcases editFrom_eq class_.insert values with ⟨error, is, -⟩ | ⟨index, first, inside, is⟩
    · exact ⟨_, _, congrArg some is, fun success => nomatch success⟩
    · refine ⟨_, _, congrArg some is, fun _ => ?_⟩
      simp only [edited, mem_def.mp first, map_some, getD_some, if_true]
      rcases lt_or_eq_of_le inside with before | atEnd
      · have all := editAll_insert inserts (values.take (convert.toUInt32 index + 1)) (values.drop (convert.toUInt32 index + 1))
          (class_.given args.tail).1
        rwa [length_take_of_le before, take_append_drop] at all
      · rw [take_of_length_le (by omega), drop_of_length_le (by omega), List.append_nil]
        by_cases none_ : (class_.given args.tail).1 = []
        · rw [none_, List.append_nil]
          rfl
        · exact editAll_end (ends rfl ⟨index, first, atEnd⟩ none_) (by omega)
  | replace =>
    rcases editFrom_eq (class_.replace values.length) values with ⟨error, is, -⟩ | ⟨index, first, inside, is⟩
    · exact ⟨_, _, congrArg some is, fun success => nomatch success⟩
    · refine ⟨_, _, congrArg some is, fun _ => ?_⟩
      have all := editAll_replace (replaces values.length) (values.take (convert.toUInt32 index)) (values.drop (convert.toUInt32 index))
        (class_.given args.tail).1 (by rw [take_append_drop, length_take_of_le inside]; omega)
      rw [length_take_of_le inside, take_append_drop, drop_drop] at all
      simp only [edited, mem_def.mp first]
      exact all

theorem readIndexes_eq (size : Nat) : (∃ error, class_.readIndexes convert size args = .error error ∧
      ∃ arg ∈ args, class_.valid size (convert.toSInt32 arg) = false) ∨
    class_.readIndexes convert size args = .ok (args.map convert.toSInt32) ∧
      ∀ arg ∈ args, class_.valid size (convert.toSInt32 arg) = true := by
  induction args with
  | nil => exact .inr ⟨rfl, nofun⟩
  | cons arg rest ih =>
    rw [readIndexes]
    by_cases valid : class_.valid size (convert.toSInt32 arg) = true
    · rw [if_pos valid]
      rcases ih with ⟨error, is, bad⟩ | ⟨is, all⟩
      · rw [is]
        exact .inl ⟨error, rfl, bad.imp fun _ both => ⟨.tail _ both.1, both.2⟩⟩
      · rw [is]
        exact .inr ⟨rfl, forall_mem_cons.mpr ⟨valid, all⟩⟩
    · rw [if_neg valid]
      exact .inl ⟨_, rfl, arg, mem_cons_self, Bool.eq_false_iff.mpr valid⟩

/-- A removal is as documented if the indexes are not accepted, or the elements at them are what is erased. -/
theorem editsAsDocumented_remove_iff (values : List α) : class_.EditsAsDocumented convert .remove args values ↔
    (args ≠ [] → (∀ arg ∈ args, class_.valid values.length (convert.toSInt32 arg) = true) →
      class_.removeAll (args.map convert.toSInt32) values = some (without (args.map convert.toSInt32) 0 values)) := by
  simp only [EditsAsDocumented, setArgs]
  by_cases none_ : args = []
  · simp [none_]
  · rw [if_neg none_, forall_prop_of_true none_]
    rcases @readIndexes_eq A ι α class_ convert args values.length with ⟨error, is, arg, member, bad⟩ | ⟨is, all⟩
    · rw [is]
      refine iff_of_true ⟨_, _, rfl, fun success => nomatch success⟩ fun all => ?_
      exact absurd (bad.symm.trans (all arg member)) Bool.false_ne_true
    · rw [is, forall_prop_of_true all]
      dsimp only [edited]
      cases class_.removeAll (args.map convert.toSInt32) values with
      | none => simp
      | some after => simp

end ListClass

section Classes

variable (convert : StringConvert A) (op : Operation) (args : List A) (size : Nat)

/-- No index of the list is given twice to be removed. -/
def DistinctIndexes : Prop :=
  (∀ arg ∈ args, 0 ≤ convert.toSInt32 arg ∧ convert.toSInt32 arg < size) → (args.map convert.toSInt32).Nodup

/-- The indexes are those of the first elements, as many as indexes are given. -/
def FirstIndexes : Prop :=
  (∀ arg ∈ args, convert.toSInt32 arg ≠ 2 ^ 31 - 1) →
    ∀ place < size, ((place : Int) ∈ args.map convert.toSInt32 ↔ place < args.length)

/-- Some values are to be inserted after the end of the list. -/
def InsertsBehindEnd : Prop := op = .insertAfter ∧ args.tail ≠ [] ∧ ∃ index ∈ args.head?, convert.toUInt32 index = size

variable {convert op args size}

theorem insertIdx_front (front back : List α) (value : α) : (front ++ back).insertIdx front.length value = front ++ value :: back := by
  induction front with
  | nil => rfl
  | cons first rest ih => simpa using ih

theorem set_front {count : Nat} {front back : List α} (value : α) (counted : (front ++ back).length = max count front.length) :
    (if front.length < count then (front ++ back).set front.length value else front ++ back ++ [value]) =
      front ++ value :: back.drop 1 := by
  cases back with
  | nil =>
    rw [List.append_nil] at counted ⊢
    rw [if_neg (by omega)]
    rfl
  | cons first rest =>
    rw [if_pos (by simp at counted; omega)]
    simp

theorem erasePositions_of_first {indexes : List Int} {values : List α}
    (first : ∀ place < values.length, ((place : Int) ∈ indexes ↔ place < indexes.length)) :
    erasePositions indexes values = some (without indexes 0 values) := by
  rw [erasePositions, foldr_eraseIdx, without_eq_drop fun place below _ => first place (by simpa using below), Nat.sub_zero]

theorem first_of_erasePositions {indexes : List Int}
    (is : erasePositions indexes (range' 0 size) = some (without indexes 0 (range' 0 size))) :
    ∀ place < size, ((place : Int) ∈ indexes ↔ place < indexes.length) := by
  intro place below
  rw [erasePositions, foldr_eraseIdx, without_range, drop_range', Option.some.injEq] at is
  have member := congrArg (place ∈ ·) is
  simp only [mem_range'_1, List.mem_filter, decide_eq_true_eq, eq_iff_iff] at member
  by_cases listed : (place : Int) ∈ indexes
  · simp only [listed, not_true_eq_false, and_false, iff_false] at member
    exact iff_of_true listed (by omega)
  · simp only [listed, not_false_eq_true, and_true] at member
    exact iff_of_false listed (by omega)

variable (fileSpec : A → α)

theorem made_fileSpecList (items : List A) : (fileSpecList fileSpec).made items = (items.map fileSpec, none) := by
  induction items with
  | nil => rfl
  | cons item rest ih =>
    rw [ListClass.made, ih]
    rfl

theorem editAll_behind {idx : Nat} {values news : List α} (behind : values.length < idx) :
    editAll (fileSpecList fileSpec).insert idx news values = values := by
  induction news generalizing idx with
  | nil => rfl
  | cons value rest ih =>
    have skips : (fileSpecList fileSpec).insert idx value values = values := by
      change (if _ then _ else if _ then _ else values) = values
      rw [if_neg (by omega), if_neg (by omega)]
    rw [editAll, skips, ih (by omega)]

theorem fileSpecList_inserts (front back : List α) (value : α) :
    (fileSpecList fileSpec).insert front.length value (front ++ back) = front ++ value :: back := by
  change (if _ then _ else if _ then _ else _) = _
  cases back with
  | nil => simp
  | cons first rest => rw [if_pos (by simp), insertIdx_front]

theorem pathMappings_replaces (exists_ : A → Bool) (normalized : A × A → α) (count : Nat) {front back : List α} (value : α) :
    (pathMappings exists_ normalized).replace count front.length value (front ++ back) = front ++ value :: back.drop 1 := by
  change (if _ then _ else _) = _
  cases back with
  | nil => simp
  | cons first rest => simp

/-- Exactly when commands edit lists of a size as documented, in each of the classes. -/
theorem editsAsDocumented_iff (convert : StringConvert A) (op : Operation) (args : List A) (size : Nat) :
    ((∀ (α : Type) (create : Option (A → Except (Error A) α)) (values : List α), values.length = size →
        (array create).EditsAsDocumented convert op args values) ↔ (op = .remove → DistinctIndexes convert args size)) ∧
    ((∀ (α : Type) (fileSpec : A → α) (values : List α), values.length = size →
        (fileSpecList fileSpec).EditsAsDocumented convert op args values) ↔
      (op = .remove → FirstIndexes convert args size) ∧ ¬ InsertsBehindEnd convert op args size) ∧
    ((∀ (α : Type) (exists_ : A → Bool) (normalized : A × A → α) (values : List α), values.length = size →
        (pathMappings exists_ normalized).EditsAsDocumented convert op args values) ↔
      (op = .remove → FirstIndexes convert args size)) := by
  have positions : ∀ {ι α : Type} {class_ : ListClass A ι α} {values : List α}, class_.removeAll = erasePositions →
      (∀ size index, class_.valid size index = decide (index ≠ 2 ^ 31 - 1)) → values.length = size →
      (FirstIndexes convert args size → class_.EditsAsDocumented convert .remove args values) := by
    intro ι α class_ values removes valid sized first
    rw [ListClass.editsAsDocumented_remove_iff, removes]
    intro _ all
    refine erasePositions_of_first fun place below => ?_
    rw [length_map]
    exact first (fun arg member => by simpa [valid] using all arg member) place (sized ▸ below)
  have back : ∀ {ι : Type} {class_ : ListClass A ι Nat}, class_.removeAll = erasePositions →
      (∀ size index, class_.valid size index = decide (index ≠ 2 ^ 31 - 1)) →
      class_.EditsAsDocumented convert .remove args (range' 0 size) → FirstIndexes convert args size := by
    intro ι class_ removes valid edits all
    rw [ListClass.editsAsDocumented_remove_iff, removes] at edits
    by_cases none_ : args = []
    · simp [none_]
    · have is := edits none_ fun arg member => (valid _ _).trans (decide_eq_true (all arg member))
      simpa only [length_map] using first_of_erasePositions is
  refine ⟨⟨fun all removes => ?_, fun distinct α create values sized => ?_⟩,
    ⟨fun all => ⟨fun removes => ?_, ?_⟩, fun ⟨first, inside⟩ α fileSpec values sized => ?_⟩,
    ⟨fun all removes => ?_, fun first α exists_ normalized values sized => ?_⟩⟩
  · subst removes
    intro inside
    have edits := (ListClass.editsAsDocumented_remove_iff _).mp (all Unit none (replicate size ()) length_replicate)
    by_cases none_ : args = []
    · simp [none_]
    · have is := edits none_ fun arg member => by simpa [array] using inside arg member
      exact (eraseSorted_eq_iff (by simpa using inside)).mp is
  · by_cases removes : op = .remove
    · subst removes
      rw [ListClass.editsAsDocumented_remove_iff]
      intro _ valid
      have inside : ∀ arg ∈ args, 0 ≤ convert.toSInt32 arg ∧ convert.toSInt32 arg < values.length :=
        fun arg member => by simpa [array] using valid arg member
      exact eraseSorted_of_nodup (distinct rfl (sized ▸ inside)) (by simpa using inside)
    · refine ListClass.editsAsDocumented_of_ne_remove removes (fun front back value => ?_)
        (fun _ _ _ idx value values behind => if_pos behind) fun count front back value => set_front value
      change (if _ then _ else _) = _
      cases back with
      | nil => simp
      | cons first rest => rw [if_neg (by simp), insertIdx_front]
  · subst removes
    exact back rfl (fun _ _ => rfl) (all Nat (fun _ => 0) (range' 0 size) (by simp))
  · rintro ⟨rfl, some_, index, first, same⟩
    obtain ⟨after, error, is, edited⟩ := all Nat (fun _ => 0) (replicate size 0) length_replicate
    have news : (fileSpecList fun _ : A => 0).given args.tail = (args.tail.map fun _ => 0, none) := made_fileSpecList _ _
    rcases @ListClass.editFrom_eq _ _ _ (fileSpecList fun _ : A => 0) convert .insertAfter args
      (fileSpecList fun _ : A => 0).insert (replicate size 0) with
      ⟨error, -, none_ | beyond | none_⟩ | ⟨other, isOther, -, from_⟩
    · exact some_ (none_ ▸ tail_nil)
    · simp [mem_def.mp first, same] at beyond
    · rw [news] at none_
      exact some_ (map_eq_nil_iff.mp (congrArg Prod.fst none_))
    · obtain rfl : index = other := mem_unique first isOther
      rw [news, same, editAll_behind _ (by simp)] at from_
      obtain ⟨rfl, rfl⟩ := Prod.mk.inj (Option.some.inj (is.symm.trans (congrArg some from_)))
      have length := congrArg List.length (edited rfl)
      have positive := length_pos_of_ne_nil some_
      simp only [ListClass.edited, news,
        length_append, length_take, length_drop, length_map] at length
      omega
  · by_cases removes : op = .remove
    · subst removes
      exact positions rfl (fun _ _ => rfl) sized (first rfl)
    · refine ListClass.editsAsDocumented_of_ne_remove removes (fileSpecList_inserts fileSpec) (fun after atEnd some_ => ?_)
        fun count front back value => set_front value
      refine absurd ⟨after, fun none_ => some_ ?_, sized ▸ atEnd⟩ inside
      rw [none_]
      rfl
  · subst removes
    exact back rfl (fun _ _ => rfl) (all Nat (fun _ => true) (fun _ => 0) (range' 0 size) (by simp))
  · by_cases removes : op = .remove
    · subst removes
      exact positions rfl (fun _ _ => rfl) sized (first rfl)
    · refine ListClass.editsAsDocumented_of_ne_remove removes (fun front back value => ?_)
        (fun _ _ _ idx value values behind => ?_) fun count front back value _ => ?_
      · change List.insertIdx _ (if _ then _ else _) _ = _
        cases back with
        | nil => simp
        | cons first rest => rw [if_neg (by simp), insertIdx_front]
      · change List.insertIdx _ (if _ then _ else _) _ = _
        simp [if_pos behind]
      · exact pathMappings_replaces exists_ normalized count value

/-- Numbers as arguments. -/
def numbers : StringConvert Int := ⟨Int.toNat, id⟩

theorem not_editsAsDocumented : ¬ (array none).EditsAsDocumented numbers .remove [0, 0] [1, 2, 3] ∧
    ¬ (fileSpecList id).EditsAsDocumented numbers .remove [2] [1, 2, 3] ∧
    ¬ (pathMappings (fun _ => true) id).EditsAsDocumented numbers .remove [1] [(1, 2), (3, 4)] := by
  simp only [ListClass.editsAsDocumented_remove_iff]
  decide

end Classes

end Lldb.OptionValue
