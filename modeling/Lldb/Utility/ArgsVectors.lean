import Lldb.Utility.Args
import Mathlib.Data.List.InsertIdx
import Mathlib.Data.List.Nodup

/-! `Args` as it is stored: entries that own their text, and a vector of pointers to the texts that ends in null.

Buffers are numbered in the order they are made.
-/

set_option autoImplicit false

namespace Lldb

open List

namespace Args

/-- An entry owns a buffer; its text stands at the front of that, in front of a NUL. -/
structure StoredEntry where
  ptr : Nat
  data : Bytes
  size : Nat
  quote : UInt8
  terminated : data[size]? = some 0

def StoredEntry.ref (entry : StoredEntry) : Bytes := entry.data.take entry.size

def StoredEntry.entry (entry : StoredEntry) : ArgEntry := ⟨entry.ref, entry.quote⟩

def StoredEntry.make (ptr : Nat) (str : Bytes) (quote : UInt8) : StoredEntry :=
  ⟨ptr, str ++ [0], str.length, quote, getElem?_concat_length⟩

def StoredEntry.overwrite (entry : StoredEntry) (str : Bytes) : StoredEntry where
  ptr := entry.ptr
  data := str ++ 0 :: entry.data.drop (str.length + 1)
  size := str.length
  quote := entry.quote
  terminated := by rw [List.getElem?_append_right (Nat.le_refl _), Nat.sub_self, List.getElem?_cons_zero]

@[simp] theorem StoredEntry.ref_make (ptr : Nat) (str : Bytes) (quote : UInt8) : (make ptr str quote).ref = str :=
  take_left

@[simp] theorem StoredEntry.ref_overwrite (entry : StoredEntry) (str : Bytes) : (entry.overwrite str).ref = str :=
  take_left

def cString (str : Bytes) : Bytes := str.takeWhile (· ≠ 0)

def leadingQuote (str : Bytes) : UInt8 :=
  match str with
  | [] => 0
  | c :: _ => if c = singleQuote ∨ c = doubleQuote ∨ c = backtick then c else 0

end Args

structure Args where
  entries : List Args.StoredEntry
  argv : List (Option Nat)
  buffers : Nat

namespace Args

def empty : Args := ⟨[], [none], 0⟩

def Asserts (args : Args) : Prop := args.argv.length = args.entries.length + 1 ∧ args.argv.getLast? = some none

instance (args : Args) : Decidable args.Asserts := inferInstanceAs (Decidable (_ ∧ _))

def clear (args : Args) : Args := { args with entries := [], argv := [none] }

def pushBack (args : Args) (str : Bytes) (quote : UInt8) : Args where
  entries := args.entries ++ [.make args.buffers str quote]
  argv := args.argv ++ [some args.buffers]
  buffers := args.buffers + 1

def pushAll (args : Args) (entries : List ArgEntry) : Args :=
  entries.foldl (fun args entry => args.pushBack entry.ref entry.quote) args

def pushTerminated (args : Args) (entries : List ArgEntry) : Args :=
  { args.pushAll entries with argv := (args.pushAll entries).argv ++ [none] }

def assign (args : Args) (rhs : List ArgEntry) : Args := { args.clear with argv := [] }.pushTerminated rhs

def storeCommandString (args : Args) (command : Bytes) : Args :=
  { args.clear with argv := [] }.pushTerminated (setCommandString command)

/-- The source gives the vectors their sizes first; no entry is read before it is made. -/
def setArguments (args : Args) (argv : List Bytes) : Args :=
  { args.clear with argv := [] }.pushTerminated (argv.map fun arg => ⟨cString arg, leadingQuote (cString arg)⟩)

def appendArguments (args : Args) (rhs : List ArgEntry) : Option Args :=
  if args.Asserts then some ({ args with argv := args.argv.dropLast }.pushTerminated rhs) else none

def appendArgv (args : Args) (argv : List Bytes) : Option Args :=
  if args.Asserts then
    some ({ args with argv := args.argv.dropLast }.pushTerminated (argv.map fun arg => ⟨cString arg, 0⟩))
  else none

def insertArgumentAtIndex (args : Args) (idx : Nat) (str : Bytes) (quote : UInt8) : Option Args :=
  if args.Asserts then
    if idx > args.entries.length then some args
    else some
      { entries := args.entries.insertIdx idx (.make args.buffers str quote)
        argv := args.argv.insertIdx idx (some args.buffers)
        buffers := args.buffers + 1 }
  else none

def appendArgument (args : Args) (str : Bytes) (quote : UInt8) : Option Args :=
  args.insertArgumentAtIndex args.entries.length str quote

def unshift (args : Args) (str : Bytes) (quote : UInt8) : Option Args := args.insertArgumentAtIndex 0 str quote

def replaceArgumentAtIndex (args : Args) (idx : Nat) (str : Bytes) (quote : UInt8) : Option Args :=
  if args.Asserts then
    match args.entries[idx]? with
    | none => some args
    | some entry =>
      if str.length > entry.ref.length then
        some
          { entries := args.entries.set idx (.make args.buffers str quote)
            argv := args.argv.set idx (some args.buffers)
            buffers := args.buffers + 1 }
      else some { args with entries := args.entries.set idx (entry.overwrite str) }
  else none

def deleteArgumentAtIndex (args : Args) (idx : Nat) : Args :=
  if idx ≥ args.entries.length then args
  else { args with entries := args.entries.eraseIdx idx, argv := args.argv.eraseIdx idx }

def shift (args : Args) : Args :=
  if args.entries = [] then args
  else { args with entries := args.entries.eraseIdx 0, argv := args.argv.eraseIdx 0 }

inductive Operation where
  | assign (rhs : List ArgEntry)
  | setCommandString (command : Bytes)
  | setArguments (argv : List Bytes)
  | appendArguments (rhs : List ArgEntry)
  | appendArgv (argv : List Bytes)
  | appendArgument (str : Bytes) (quote : UInt8)
  | insertArgumentAtIndex (idx : Nat) (str : Bytes) (quote : UInt8)
  | replaceArgumentAtIndex (idx : Nat) (str : Bytes) (quote : UInt8)
  | deleteArgumentAtIndex (idx : Nat)
  | shift
  | unshift (str : Bytes) (quote : UInt8)
  | clear

def apply (args : Args) : Operation → Option Args
  | .assign rhs => some (args.assign rhs)
  | .setCommandString command => some (args.storeCommandString command)
  | .setArguments argv => some (args.setArguments argv)
  | .appendArguments rhs => args.appendArguments rhs
  | .appendArgv argv => args.appendArgv argv
  | .appendArgument str quote => args.appendArgument str quote
  | .insertArgumentAtIndex idx str quote => args.insertArgumentAtIndex idx str quote
  | .replaceArgumentAtIndex idx str quote => args.replaceArgumentAtIndex idx str quote
  | .deleteArgumentAtIndex idx => some (args.deleteArgumentAtIndex idx)
  | .shift => some args.shift
  | .unshift str quote => args.unshift str quote
  | .clear => some args.clear

def Operation.onList (list : List ArgEntry) : Operation → List ArgEntry
  | .assign rhs => rhs
  | .setCommandString command => Args.setCommandString command
  | .setArguments argv => argv.map fun arg => ⟨cString arg, leadingQuote (cString arg)⟩
  | .appendArguments rhs => list ++ rhs
  | .appendArgv argv => list ++ argv.map fun arg => ⟨cString arg, 0⟩
  | .appendArgument str quote => list ++ [⟨str, quote⟩]
  | .insertArgumentAtIndex idx str quote => list.insertIdx idx ⟨str, quote⟩
  | .replaceArgumentAtIndex idx str quote => list.set idx ⟨str, quote⟩
  | .deleteArgumentAtIndex idx => list.eraseIdx idx
  | .shift => list.tail
  | .unshift str quote => ⟨str, quote⟩ :: list
  | .clear => []

/-- The entries are those of the list, each in a buffer of its own, and the pointers those to their texts. -/
structure Refines (args : Args) (list : List ArgEntry) : Prop where
  argv : args.argv = args.entries.map (fun entry => some entry.ptr) ++ [none]
  contents : args.entries.map StoredEntry.entry = list
  distinct : (args.entries.map StoredEntry.ptr).Nodup
  made : ∀ entry ∈ args.entries, entry.ptr < args.buffers

variable {args : Args} {list : List ArgEntry}

theorem empty_refines : empty.Refines [] := ⟨rfl, rfl, nodup_nil, nofun⟩

theorem Refines.asserts (refines : args.Refines list) : args.Asserts := by
  unfold Asserts
  rw [refines.argv, length_append, length_map]
  exact ⟨rfl, getLast?_concat⟩

theorem Refines.length (refines : args.Refines list) : args.entries.length = list.length := by
  rw [← refines.contents, length_map]

/-! Arguments at the back. -/

def Open (args : Args) (list : List ArgEntry) : Prop := Refines { args with argv := args.argv ++ [none] } list

theorem Refines.opened (refines : args.Refines list) : Open { args with argv := args.argv.dropLast } list := by
  refine ⟨?_, refines.contents, refines.distinct, refines.made⟩
  simp [refines.argv]

theorem cleared_open (args : Args) : Open { args.clear with argv := [] } [] := ⟨rfl, rfl, nodup_nil, nofun⟩

theorem Open.pushBack (opened : args.Open list) (str : Bytes) (quote : UInt8) :
    (args.pushBack str quote).Open (list ++ [⟨str, quote⟩]) where
  argv := by
    have pointers := append_cancel_right opened.argv
    change args.argv ++ [some args.buffers] ++ [none] = _
    rw [show args.argv = _ from pointers]
    change _ = (args.entries ++ [StoredEntry.make args.buffers str quote]).map _ ++ [none]
    rw [map_append]
    rfl
  contents := by
    have contents : args.entries.map StoredEntry.entry = list := opened.contents
    change (args.entries ++ [StoredEntry.make args.buffers str quote]).map StoredEntry.entry = _
    rw [map_append, contents, map_singleton, StoredEntry.entry, StoredEntry.ref_make]
    rfl
  distinct := by
    change ((args.entries ++ [StoredEntry.make args.buffers str quote]).map StoredEntry.ptr).Nodup
    rw [map_append, nodup_append]
    refine ⟨opened.distinct, nodup_singleton _, fun ptr member other made => ?_⟩
    obtain ⟨entry, inside, rfl⟩ := mem_map.mp member
    obtain rfl := mem_singleton.mp made
    exact Nat.ne_of_lt (opened.made entry inside)
  made := by
    intro entry member
    rcases mem_append.mp member with before | last
    · exact Nat.lt_succ_of_lt (opened.made entry before)
    · obtain rfl := mem_singleton.mp last
      exact Nat.lt_succ_self _

theorem Open.pushAll (opened : args.Open list) (entries : List ArgEntry) :
    (args.pushAll entries).Open (list ++ entries) := by
  induction entries generalizing args list with
  | nil =>
    rw [List.append_nil]
    exact opened
  | cons entry entries ih =>
    have next := ih (opened.pushBack entry.ref entry.quote)
    rwa [append_assoc] at next

theorem Open.pushTerminated (opened : args.Open list) (entries : List ArgEntry) :
    (args.pushTerminated entries).Refines (list ++ entries) := opened.pushAll entries

/-! Arguments in the middle. -/

theorem insertIdx_append {α : Type} {front : List α} {idx : Nat} (inside : idx ≤ front.length) (back : List α)
    (value : α) : (front ++ back).insertIdx idx value = front.insertIdx idx value ++ back := by
  induction front generalizing idx with
  | nil =>
    obtain rfl := Nat.le_zero.mp inside
    rfl
  | cons first front ih =>
    cases idx with
    | zero => rfl
    | succ idx =>
      simp [ih (Nat.le_of_succ_le_succ inside)]

variable (refines : args.Refines list)
include refines

theorem Refines.insertArgumentAtIndex (idx : Nat) (str : Bytes) (quote : UInt8) :
    ∃ next, args.insertArgumentAtIndex idx str quote = some next ∧ next.Refines (list.insertIdx idx ⟨str, quote⟩) := by
  unfold Args.insertArgumentAtIndex
  rw [if_pos refines.asserts]
  by_cases behind : idx > args.entries.length
  · refine ⟨args, if_pos behind, ?_⟩
    rw [insertIdx_of_length_lt (refines.length ▸ behind)]
    exact refines
  · rw [if_neg behind]
    have inside : idx ≤ args.entries.length := Nat.le_of_not_lt behind
    have permuted := perm_insertIdx (StoredEntry.make args.buffers str quote) args.entries inside
    refine ⟨_, rfl, ?_, ?_, ?_, ?_⟩
    · rw [refines.argv, map_insertIdx, insertIdx_append (by rwa [length_map])]
      rfl
    · rw [map_insertIdx, refines.contents, StoredEntry.entry, StoredEntry.ref_make]
      rfl
    · rw [(permuted.map StoredEntry.ptr).nodup_iff, map_cons, nodup_cons]
      refine ⟨fun member => ?_, refines.distinct⟩
      obtain ⟨entry, found, same⟩ := mem_map.mp member
      exact absurd same (Nat.ne_of_lt (refines.made entry found))
    · intro entry member
      rcases List.mem_cons.mp (permuted.mem_iff.mp member) with rfl | before
      · exact Nat.lt_succ_self _
      · exact Nat.lt_succ_of_lt (refines.made entry before)

theorem Refines.eraseIdx {idx : Nat} (inside : idx < args.entries.length) :
    Refines { args with entries := args.entries.eraseIdx idx, argv := args.argv.eraseIdx idx } (list.eraseIdx idx) where
  argv := by
    rw [refines.argv, eraseIdx_append_of_lt_length (by rwa [length_map]), eraseIdx_map]
  contents := by
    rw [← eraseIdx_map, refines.contents]
  distinct := by
    exact refines.distinct.sublist ((eraseIdx_sublist _ idx).map _)
  made entry member := refines.made entry (mem_of_mem_eraseIdx member)

theorem Refines.deleteArgumentAtIndex (idx : Nat) : (args.deleteArgumentAtIndex idx).Refines (list.eraseIdx idx) := by
  unfold Args.deleteArgumentAtIndex
  split_ifs with behind
  · rw [eraseIdx_of_length_le (refines.length ▸ behind)]
    exact refines
  · exact refines.eraseIdx (Nat.lt_of_not_le behind)

theorem Refines.shift : args.shift.Refines list.tail := by
  unfold Args.shift
  split_ifs with none_
  · have empty_ : list = [] := by rw [← refines.contents, none_, map_nil]
    rw [empty_] at refines ⊢
    exact refines
  · rw [← eraseIdx_zero]
    exact refines.eraseIdx (length_pos_iff.mpr none_)

omit refines

/-! Arguments in place of others. -/

theorem nodup_set_ptr {entries : List StoredEntry} {idx : Nat} {entry : StoredEntry}
    (distinct : (entries.map StoredEntry.ptr).Nodup) (new : entry.ptr ∉ entries.map StoredEntry.ptr) :
    ((entries.set idx entry).map StoredEntry.ptr).Nodup := by
  rw [map_set]
  exact distinct.set new

theorem Refines.replaceArgumentAtIndex (refines : args.Refines list) (idx : Nat) (str : Bytes) (quote : UInt8) :
    ∃ next, args.replaceArgumentAtIndex idx str quote = some next ∧ next.Refines (match list[idx]? with
        | none => list
        | some entry => list.set idx ⟨str, if str.length > entry.ref.length then quote else entry.quote⟩) := by
  unfold Args.replaceArgumentAtIndex
  rw [if_pos refines.asserts, ← refines.contents, getElem?_map]
  cases found : args.entries[idx]? with
  | none => exact ⟨args, rfl, refines.contents ▸ refines⟩
  | some entry =>
    obtain ⟨inside, here⟩ := List.getElem?_eq_some_iff.mp found
    change ∃ next : Args, (if str.length > entry.ref.length then _ else _) = some next ∧ next.Refines (List.set _ idx
      ⟨str, if str.length > entry.ref.length then quote else entry.quote⟩)
    split_ifs with longer
    · refine ⟨_, rfl, ?_, ?_, ?_, ?_⟩
      · rw [refines.argv, map_set, set_append_left _ _ (by rwa [length_map])]
        rfl
      · rw [map_set, StoredEntry.entry, StoredEntry.ref_make]
        rfl
      · apply nodup_set_ptr refines.distinct
        intro member
        obtain ⟨other, before, same⟩ := mem_map.mp member
        exact absurd same (Nat.ne_of_lt (refines.made other before))
      · intro other member
        rcases List.mem_or_eq_of_mem_set member with before | rfl
        · exact Nat.lt_succ_of_lt (refines.made other before)
        · exact Nat.lt_succ_self _
    · have same :
          (args.entries.set idx (entry.overwrite str)).map StoredEntry.ptr = args.entries.map StoredEntry.ptr := by
        subst here
        rw [map_set]
        change List.set _ idx args.entries[idx].ptr = _
        rw [← getElem_map StoredEntry.ptr, set_getElem_self]
        rwa [length_map]
      refine ⟨_, rfl, ?_, ?_, ?_, ?_⟩
      · have pointers := congrArg (List.map some) same
        rw [map_map, map_map] at pointers
        exact refines.argv.trans (congrArg (· ++ [none]) pointers.symm)
      · rw [map_set, StoredEntry.entry, StoredEntry.ref_overwrite]
        rfl
      · exact same ▸ refines.distinct
      · intro other member
        rcases mem_or_eq_of_mem_set member with before | rfl
        · exact refines.made other before
        · exact refines.made entry (mem_of_getElem? found)

/-! Runs. -/

def Meets (args : Args) (list : List ArgEntry) (operation : Operation) : Prop :=
  ∃ next, args.apply operation = some next ∧ next.Refines (operation.onList list)

def Suits (list : List ArgEntry) : Operation → Prop
  | .replaceArgumentAtIndex idx str quote =>
      ∀ entry, list[idx]? = some entry → entry.ref.length < str.length ∨ quote = entry.quote
  | .assign _ | .setCommandString _ | .setArguments _ | .appendArguments _ | .appendArgv _ | .appendArgument _ _
  | .insertArgumentAtIndex _ _ _ | .deleteArgumentAtIndex _ | .shift | .unshift _ _ | .clear => True

theorem Refines.meets_iff (refines : args.Refines list) (operation : Operation) :
    args.Meets list operation ↔ Suits list operation := by
  cases operation with
  | assign rhs => exact iff_of_true ⟨_, rfl, (cleared_open args).pushTerminated rhs⟩ trivial
  | setCommandString command => exact iff_of_true ⟨_, rfl, (cleared_open args).pushTerminated _⟩ trivial
  | setArguments argv => exact iff_of_true ⟨_, rfl, (cleared_open args).pushTerminated _⟩ trivial
  | appendArguments rhs =>
    exact iff_of_true ⟨_, if_pos refines.asserts, refines.opened.pushTerminated rhs⟩ trivial
  | appendArgv argv => exact iff_of_true ⟨_, if_pos refines.asserts, refines.opened.pushTerminated _⟩ trivial
  | appendArgument str quote =>
    obtain ⟨next, inserted, after⟩ := refines.insertArgumentAtIndex args.entries.length str quote
    rw [refines.length, insertIdx_length_self] at after
    exact iff_of_true ⟨next, inserted, after⟩ trivial
  | insertArgumentAtIndex idx str quote => exact iff_of_true (refines.insertArgumentAtIndex idx str quote) trivial
  | replaceArgumentAtIndex idx str quote =>
    obtain ⟨next, replaced, after⟩ := refines.replaceArgumentAtIndex idx str quote
    have applied :
        args.Meets list (.replaceArgumentAtIndex idx str quote) ↔ next.Refines (list.set idx ⟨str, quote⟩) := by
      constructor
      · rintro ⟨other, found, meets⟩
        obtain rfl := Option.some.inj (replaced.symm.trans found)
        exact meets
      · intro meets
        exact ⟨next, replaced, meets⟩
    rw [applied]
    cases found : list[idx]? with
    | none =>
      rw [found] at after
      have outside := getElem?_eq_none_iff.mp found
      rw [set_eq_of_length_le outside]
      refine iff_of_true after fun entry some_ => ?_
      rw [found] at some_
      cases some_
    | some entry =>
      rw [found] at after
      dsimp only at after
      obtain ⟨inside, -⟩ := List.getElem?_eq_some_iff.mp found
      constructor
      · intro meets other some_
        rw [found, Option.some.injEq] at some_
        subst some_
        -- Both lists are the contents of the entries.
        have same := congrArg (fun list => list[idx]?) (after.contents.symm.trans meets.contents)
        simp only [getElem?_set_self inside, Option.some.injEq, ArgEntry.mk.injEq, true_and] at same
        split_ifs at same with longer
        · exact .inl longer
        · exact .inr same.symm
      · intro suits
        rcases suits entry found with longer | same
        · rwa [if_pos longer] at after
        · rwa [← same, ite_self] at after
  | deleteArgumentAtIndex idx => exact iff_of_true ⟨_, rfl, refines.deleteArgumentAtIndex idx⟩ trivial
  | shift => exact iff_of_true ⟨_, rfl, refines.shift⟩ trivial
  | unshift str quote => exact iff_of_true (refines.insertArgumentAtIndex 0 str quote) trivial
  | clear => exact iff_of_true ⟨_, rfl, rfl, rfl, nodup_nil, nofun⟩ trivial

/-- A property of every operation of a run, with the arguments and the list before it. -/
def Throughout (holds : Args → List ArgEntry → Operation → Prop) : Args → List ArgEntry → List Operation → Prop
  | _, _, [] => True
  | args, list, operation :: rest =>
    holds args list operation ∧
      ∀ next, args.apply operation = some next → Throughout holds next (operation.onList list) rest

theorem Refines.throughout_iff (refines : args.Refines list) (operations : List Operation) :
    Throughout Meets args list operations ↔ Throughout (fun _ => Suits) args list operations := by
  induction operations generalizing args list with
  | nil => rfl
  | cons operation rest ih =>
    unfold Throughout
    rw [refines.meets_iff operation]
    refine and_congr_right fun suits => ?_
    obtain ⟨next, applied, after⟩ := (refines.meets_iff operation).mpr suits
    refine forall_congr' fun other => imp_congr_right fun found => ?_
    obtain rfl := Option.some.inj (applied.symm.trans found)
    exact ih after

end Args

end Lldb
