import Lldb.Interpreter.OptionValueLists

/-! `OptionValueDictionary`: how entries are set, what a failed command leaves behind, and paths to values inside others. -/

set_option autoImplicit false

namespace Lldb.OptionValue

open List Option

abbrev Text := List Char

/-- The halves that `StringRef::split` makes. -/
def before (mark : Char) (text : Text) : Text := text.takeWhile (· ≠ mark)

def behind (mark : Char) (text : Text) : Text := (text.dropWhile (· ≠ mark)).tail

def isQuote (char : Char) : Bool := char = '\'' || char = '"'

inductive EntryError where
  | emptyArgument
  | takes
  | emptyKey
  | invalidKey (key : Text)
  | value
  | complex
  | absent (key : Text)
  | unsupported

/-- The key and the text of the value. -/
def readEntry (arg : Text) : Except EntryError (Text × Text) :=
  if arg = [] then .error .emptyArgument
  else if '=' ∉ arg then .error .takes
  else
    match before '=' arg with
    | [] => .error .emptyKey
    | first :: rest =>
      if first ≠ '[' then .ok (first :: rest, behind '=' arg)
      else if ¬ (2 < (first :: rest).length ∧ rest.getLast? = some ']') then .error (.invalidKey (first :: rest))
      else
        match rest.dropLast with
        | [] => .error (.invalidKey [])
        | quote :: inner =>
          if ¬ isQuote quote then .ok (quote :: inner, behind '=' arg)
          else if 2 < (quote :: inner).length ∧ inner.getLast? = some quote then .ok (inner.dropLast, behind '=' arg)
          else .error (.invalidKey (quote :: inner))

variable {α : Type}

abbrev Dictionary (α : Type) := Text → Option α

def setValueForKey (values : Dictionary α) (entry : Text × α) : Dictionary α := Function.update values entry.1 (some entry.2)

section SetArgs

variable (create : Option (Text → Except EntryError α))

/-- Where no value can be made of any text the loop goes on with the error. -/
def assignAll : List Text → Dictionary α × Option EntryError → Dictionary α × Option EntryError
  | [], result => result
  | arg :: rest, (values, _) =>
    match readEntry arg with
    | .error error => (values, some error)
    | .ok (key, text) =>
      match create with
      | none => assignAll rest (values, some .complex)
      | some create =>
        match create text with
        | .error error => (values, some error)
        | .ok value => assignAll rest (setValueForKey values (key, value), none)

def removeKeys : List Text → Dictionary α → Dictionary α × Option EntryError
  | [], values => (values, none)
  | key :: rest, values =>
    if values key = none then (values, some (.absent key)) else removeKeys rest (Function.update values key none)

def setArgs (op : Operation) (args : List Text) (values : Dictionary α) : Dictionary α × Option EntryError :=
  match op with
  | .clear => (fun _ => none, none)
  | .append | .replace | .assign => if args = [] then (values, some .takes) else assignAll create args (values, none)
  | .remove => if args = [] then (values, some .takes) else removeKeys args values
  | .insertBefore | .insertAfter | .invalid => (values, some .unsupported)

end SetArgs

/-- What is inside a value. -/
inductive View (V : Type) where
  | array (values : { values : List V // values.length < 2 ^ 31 })
  | dictionary (values : Dictionary V)
  | other

section GetSubValue

variable {V : Type} (getAsInteger : Text → Option Int) (view : V → View V)

/-- The value that the first part of a path names, and the rest of the path; a failed assertion is undefined. -/
def select (value : V) (name : Text) : Option (Option (V × Text)) :=
  match view value with
  | .other => some none
  | .array values =>
    match name with
    | '[' :: name =>
      if ']' ∉ name then some none
      else
        match getAsInteger (before ']' name) with
        | none => some none
        | some idx =>
          let newIdx := ((if idx < 0 then values.1.length - idx else idx) % 2 ^ 32).toNat
          some (values.1[newIdx]?.map (·, behind ']' name))
    | _ => some none
  | .dictionary values =>
    if '[' ∉ name then some none
    else
      match behind '[' name with
      | [] => none
      | first :: rest =>
        let temp := if isQuote first then rest else first :: rest
        let key := before ']' temp
        let bare := if ¬ isQuote first then some key else if key.getLast? = some first then some key.dropLast else none
        some (((bare.filter (· ≠ [])).bind values).map (·, behind ']' temp))

theorem length_behind_le (mark : Char) (text : Text) : (behind mark text).length ≤ text.length := by
  have shorter := (dropWhile_sublist (· ≠ mark) (l := text)).length_le
  rw [behind, length_tail]
  omega

variable {getAsInteger view}

theorem length_select {value next : V} {name sub : Text} (is : select getAsInteger view value name = some (some (next, sub))) :
    sub.length < name.length := by
  unfold select at is
  split at is
  · cases is
  · split at is
    · split at is
      · cases is
      · split at is
        · cases is
        · obtain ⟨_, -, same⟩ := map_eq_some_iff.mp (Option.some.inj is)
          rw [← (Prod.mk.inj same).2]
          exact Nat.lt_succ_of_le (length_behind_le _ _)
    · cases is
  · split at is
    · cases is
    · next opened =>
      split at is
      · cases is
      · next first rest is_ =>
        obtain ⟨_, -, same⟩ := map_eq_some_iff.mp (Option.some.inj is)
        have temp := length_behind_le ']' (if isQuote first then rest else first :: rest)
        have drop : (behind '[' name).length < name.length := by
          rw [behind, length_tail]
          have le := (dropWhile_sublist (· ≠ '[') (l := name)).length_le
          have some_ : name.length ≠ 0 := fun none_ => opened (by simp [length_eq_zero_iff.mp none_])
          omega
        rw [is_] at drop
        rw [← (Prod.mk.inj same).2]
        refine lt_of_le_of_lt (temp.trans ?_) drop
        split <;> simp

variable (getAsInteger view)

def getSubValue (value : V) (name : Text) : Option (Option V) :=
  match _is : select getAsInteger view value name with
  | none => none
  | some none => some none
  | some (some (next, sub)) => if sub = [] then some (some next) else getSubValue next sub
termination_by name.length
decreasing_by exact length_select _is

end GetSubValue

/-! What a failed command leaves behind. -/

namespace ListClass

variable {A ι : Type} (class_ : ListClass A ι α) (convert : StringConvert A) (op : Operation) (args : List A)
  (values : List α)

def KeepsOnError : Prop :=
  ∀ after error, class_.setArgs convert op args values = some (after, some error) → after = values

/-- No value was taken before the bad argument, or taking them changes nothing. -/
def HarmlessError : Prop :=
  let news := class_.given args.tail
  match op with
  | .insertBefore | .insertAfter => ∀ idx ∈ args.head?.map convert.toUInt32, idx ≤ values.length → news.2 ≠ none → news.1 = []
  | .replace => ∀ idx ∈ args.head?.map convert.toUInt32, idx ≤ values.length → news.2 ≠ none →
      news.1 = (values.drop idx).take news.1.length
  | .append => (class_.given args).2 ≠ none → (class_.given args).1 = []
  | .assign =>
    if class_.wrongNumber args then class_.clearsFirst = true → values = []
    else (class_.given args).2 ≠ none → values = (class_.given args).1
  | _ => True

variable {class_ convert op args values}

theorem length_editAll {edit : Nat → α → List α → List α} (grows : ∀ idx value (values : List α), (edit idx value values).length = values.length + 1)
    (idx : Nat) (news values : List α) : (editAll edit idx news values).length = values.length + news.length := by
  induction news generalizing idx values with
  | nil => rfl
  | cons value rest ih =>
    rw [editAll, ih, grows, length_cons]
    omega

theorem editFrom_keeps_iff (edit : Nat → α → List α → List α) :
    (∀ after error, class_.editFrom convert op edit args values = (after, some error) → after = values) ↔
      ∀ idx ∈ args.head?.map convert.toUInt32, idx ≤ values.length → (class_.given args.tail).2 ≠ none →
        editAll edit (if op = .insertAfter then idx + 1 else idx) (class_.given args.tail).1 values = values := by
  rcases editFrom_eq edit values with ⟨error, is, why⟩ | ⟨index, first, inside, is⟩
  · rw [is]
    refine iff_of_true (fun after error same => (congrArg Prod.fst same).symm) fun idx isIdx inside fails => ?_
    obtain ⟨index, first, rfl⟩ := map_eq_some_iff.mp isIdx
    rcases why with rfl | beyond | none_
    · cases first
    · rw [first] at beyond
      exact absurd inside (by simpa using beyond)
    · rw [none_] at fails
      exact absurd rfl fails
  · rw [is, mem_def.mp first]
    simp only [map_some, mem_some, forall_eq', inside, Prod.mk.injEq, and_imp, forall_const]
    constructor
    · intro all fails
      obtain ⟨error, is⟩ := ne_none_iff_exists'.mp fails
      exact all _ error rfl is
    · rintro all after error rfl fails
      exact all (by simp [fails])

theorem made_of_ok (makes : ∀ item, ∃ value, class_.make item = .ok value) (items : List ι) : (class_.made items).2 = none := by
  induction items with
  | nil => rfl
  | cons item rest ih =>
    obtain ⟨value, is⟩ := makes item
    rw [made, is]
    exact ih

theorem keepsOnError_iff (grows : (∀ item, ∃ value, class_.make item = .ok value) ∨
      ∀ idx value (values : List α), (class_.insert idx value values).length = values.length + 1)
    (replaces : ∀ count (front back : List α) value, (front ++ back).length = max count front.length →
      class_.replace count front.length value (front ++ back) = front ++ value :: back.drop 1) :
    class_.KeepsOnError convert op args values ↔ class_.HarmlessError convert op args values := by
  have inserted (place : Nat) (fails : (class_.given args.tail).2 ≠ none) :
      editAll class_.insert place (class_.given args.tail).1 values = values ↔ (class_.given args.tail).1 = [] := by
    constructor
    · intro same
      have length := length_editAll (grows.resolve_left fun makes => fails (made_of_ok makes _)) place (class_.given args.tail).1 values
      rw [same] at length
      exact length_eq_zero_iff.mp (by omega)
    · intro none_
      rw [none_]
      rfl
  have appended (start : List α) : (∀ after error, some (class_.append op args start) = some (after, some error) → after = values) ↔
      ((class_.append op args start).2 ≠ none → start ++ (class_.given args).1 = values) := by
    rw [← append_eq start]
    generalize class_.append op args start = result
    obtain ⟨after, _ | error⟩ := result
    · simp
    · simp
  have errs (start : List α) (right : class_.wrongNumber args = false) : (class_.append op args start).2 = (class_.given args).2 := by
    rw [append, if_neg (by simp [right]), loop_eq]
    rfl
  cases op with
  | clear | invalid => simp [KeepsOnError, HarmlessError, setArgs]
  | insertBefore | insertAfter =>
    simp only [KeepsOnError, setArgs, Option.some.injEq, editFrom_keeps_iff]
    exact forall₄_congr fun _ _ _ fails => inserted _ fails
  | replace =>
    simp only [KeepsOnError, setArgs, Option.some.injEq, editFrom_keeps_iff]
    refine forall₄_congr fun idx _ inside _ => ?_
    have all := editAll_replace (replaces values.length) (values.take idx) (values.drop idx) (class_.given args.tail).1
      (by rw [take_append_drop, length_take_of_le inside]; omega)
    rw [length_take_of_le inside, take_append_drop] at all
    rw [if_neg (by decide), all, append_assoc]
    constructor
    · intro same
      have rest : _ = values.drop idx := append_cancel_left (same.trans (take_append_drop idx values).symm)
      rw [← rest, take_left]
    · intro same
      conv_rhs => rw [← take_append_drop idx values, ← take_append_drop (class_.given args.tail).1.length (values.drop idx)]
      rw [← same]
  | append =>
    simp only [KeepsOnError, HarmlessError, setArgs, appended]
    by_cases wrong : class_.wrongNumber args = true
    · simp [given_of_wrong wrong]
    · simp [errs values (Bool.eq_false_iff.mpr wrong)]
  | assign =>
    simp only [KeepsOnError, HarmlessError, setArgs, appended]
    by_cases wrong : class_.wrongNumber args = true
    · rw [given_of_wrong wrong]
      cases class_.clearsFirst <;> simp [append, wrong]
    · simp [errs _ (Bool.eq_false_iff.mpr wrong), wrong, eq_comm]
  | remove =>
    simp only [KeepsOnError, HarmlessError, setArgs, iff_true]
    intro after error is
    split at is
    · exact (congrArg Prod.fst (Option.some.inj is)).symm
    · split at is
      · obtain ⟨_, -, same⟩ := map_eq_some_iff.mp is
        cases same
      · exact (congrArg Prod.fst (Option.some.inj is)).symm

end ListClass

section Dictionaries

variable (create : Option (Text → Except EntryError α)) (op : Operation) (args : List Text) (values : Dictionary α)

/-- The entries that arguments set up to a bad one. -/
def entries : List Text → Option EntryError → List (Text × α) × Option EntryError
  | [], error => ([], error)
  | arg :: rest, _ =>
    match readEntry arg with
    | .error error => ([], some error)
    | .ok (key, text) =>
      match create with
      | none => entries rest (some .complex)
      | some create =>
        match create text with
        | .error error => ([], some error)
        | .ok value => ((key, value) :: (entries rest none).1, (entries rest none).2)

def lastOf (entries : List (Text × α)) (key : Text) : Option α := (entries.reverse.find? (·.1 = key)).map Prod.snd

def KeepsDictionary : Prop := ∀ after error, setArgs create op args values = (after, some error) → after = values

/-- The dictionary has the entries before the bad argument already; and no key was removed before one that is absent. -/
def HarmlessEntries : Prop :=
  match op with
  | .append | .replace | .assign => (entries create args none).2 ≠ none →
      ∀ key value, lastOf (entries create args none).1 key = some value → values key = some value
  | .remove => ¬ (args.Nodup ∧ ∀ key ∈ args, values key ≠ none) → ∀ key ∈ args.head?, values key = none
  | _ => True

variable {create op args values}

theorem assignAll_eq (error : Option EntryError) : assignAll create args (values, error) =
    ((entries create args error).1.foldl setValueForKey values, (entries create args error).2) := by
  induction args generalizing values error with
  | nil => rfl
  | cons arg rest ih =>
    rw [assignAll, entries]
    cases readEntry arg with
    | error error => rfl
    | ok entry =>
      cases create with
      | none => exact ih _
      | some create =>
        dsimp only
        cases create entry.2 with
        | error error => rfl
        | ok value => exact ih _

theorem foldl_update (entries : List (Text × α)) (key : Text) : entries.foldl setValueForKey values key =
      (lastOf entries key).or (values key) := by
  induction entries using reverseRecOn with
  | nil => rfl
  | append_singleton front last ih =>
    rw [foldl_append, foldl_cons, foldl_nil, lastOf, setValueForKey]
    by_cases same : last.1 = key
    · simp [same]
    · rw [Function.update_of_ne (Ne.symm same), ih]
      simp [same, lastOf]

theorem foldl_update_eq_iff (entries : List (Text × α)) : entries.foldl setValueForKey values = values ↔
      ∀ key value, lastOf entries key = some value → values key = some value := by
  rw [funext_iff]
  refine forall_congr' fun key => ?_
  rw [foldl_update]
  cases lastOf entries key with
  | none => simp
  | some value => simp [eq_comm]

theorem removeKeys_none (key : Text) (none_ : values key = none) : (removeKeys args values).1 key = none := by
  induction args generalizing values with
  | nil => exact none_
  | cons first rest ih =>
    rw [removeKeys]
    split
    · exact none_
    · refine ih ?_
      by_cases same : key = first
      · simp [same]
      · rw [Function.update_of_ne same, none_]

theorem removeKeys_succeeds_iff : (removeKeys args values).2 = none ↔ args.Nodup ∧ ∀ key ∈ args, values key ≠ none := by
  induction args generalizing values with
  | nil => simp [removeKeys]
  | cons first rest ih =>
    rw [removeKeys, nodup_cons, forall_mem_cons]
    by_cases absent : values first = none
    · simp [absent]
    · rw [if_neg absent, ih]
      constructor
      · rintro ⟨distinct, present⟩
        refine ⟨⟨fun member => present first member (by simp), distinct⟩, absent, fun key member none_ => ?_⟩
        refine present key member ?_
        by_cases same : key = first
        · simp [same]
        · rw [Function.update_of_ne same, none_]
      · rintro ⟨⟨apart, distinct⟩, -, present⟩
        refine ⟨distinct, fun key member => ?_⟩
        have other : key ≠ first := fun same => apart (same ▸ member)
        rw [Function.update_of_ne other]
        exact present key member

theorem keepsDictionary_iff : KeepsDictionary create op args values ↔ HarmlessEntries create op args values := by
  have split (result : Dictionary α × Option EntryError) :
      (∀ after error, result = (after, some error) → after = values) ↔ (result.2 ≠ none → result.1 = values) := by
    obtain ⟨after, _ | error⟩ := result <;> simp
  cases op with
  | clear | insertBefore | insertAfter | invalid => simp [KeepsDictionary, HarmlessEntries, setArgs]
  | append | replace | assign =>
    simp only [KeepsDictionary, HarmlessEntries, setArgs]
    by_cases none_ : args = []
    · simp [none_, entries]
    · rw [if_neg none_, split, assignAll_eq, foldl_update_eq_iff]
  | remove =>
    simp only [KeepsDictionary, HarmlessEntries, setArgs]
    cases args with
    | nil => simp
    | cons first rest =>
      rw [if_neg (cons_ne_nil _ _), split, Ne, removeKeys_succeeds_iff]
      refine imp_congr_right fun _ => ?_
      rw [removeKeys]
      by_cases absent : values first = none
      · simp [absent]
      · rw [if_neg absent]
        refine iff_of_false (fun same => absent ?_) (by simpa using absent)
        rw [← same]
        exact removeKeys_none first (by simp)

/-- Exactly when a failed command changes nothing, in each of the classes. -/
theorem keeps_on_error_iff {A : Type} (convert : StringConvert A) (op : Operation) (args : List A) :
    (∀ (create : Option (A → Except (Error A) α)) (values : List α), (array create).KeepsOnError convert op args values ↔
        (array create).HarmlessError convert op args values) ∧
    (∀ (fileSpec : A → α) (values : List α), (fileSpecList fileSpec).KeepsOnError convert op args values ↔
        (fileSpecList fileSpec).HarmlessError convert op args values) ∧
    (∀ (exists_ : A → Bool) (normalized : A × A → α) (values : List α),
      (pathMappings exists_ normalized).KeepsOnError convert op args values ↔
        (pathMappings exists_ normalized).HarmlessError convert op args values) ∧
    ∀ (create : Option (Text → Except EntryError α)) (texts : List Text) (values : Dictionary α),
      KeepsDictionary create op texts values ↔ HarmlessEntries create op texts values := by
  refine ⟨fun create values => ?_, fun fileSpec values => ?_, fun exists_ normalized values => ?_,
    fun create texts values => keepsDictionary_iff⟩
  · refine ListClass.keepsOnError_iff (.inr fun idx value values => ?_) fun count front back value => set_front value
    change (if _ then _ else _ : List α).length = _
    split
    · simp
    · next inside => rw [length_insertIdx_of_le_length (by omega)]
  · exact ListClass.keepsOnError_iff (.inl fun arg => ⟨_, rfl⟩) fun count front back value => set_front value
  · refine ListClass.keepsOnError_iff (.inr fun idx value values => ?_) fun count front back value _ =>
      pathMappings_replaces exists_ normalized count value
    refine length_insertIdx_of_le_length ?_ _
    split <;> omega

/-- Numbers that are not negative are values. -/
def naturals (argument : Int) : Except (Error Int) Int := if argument < 0 then .error (.value argument) else .ok argument

theorem not_keeps_on_error : ¬ (array (some naturals)).KeepsOnError numbers .append [1, -1] [] ∧
    ¬ (fileSpecList id).KeepsOnError numbers .assign [] [1] ∧
    ¬ (pathMappings (0 ≤ ·) id).KeepsOnError numbers .assign [1, -1] [(1, 1)] ∧
    ¬ KeepsDictionary (some fun _ => .ok 0) .remove [['a'], ['b']] fun key => if key = ['a'] then some 0 else none := by
  refine ⟨fun keeps => ?_, fun keeps => ?_, fun keeps => ?_, fun keeps => ?_⟩
  · cases keeps _ _ rfl
  · cases keeps _ _ rfl
  · cases keeps _ _ rfl
  · cases congrFun (keeps _ _ rfl) ['a']

end Dictionaries

/-! What paths name. -/

section Paths

variable {V : Type} {getAsInteger : Text → Option Int} {view : V → View V} {value : V} {mark : Char} {text name : Text}

def bracketed (text : Text) : Text := '[' :: (text ++ [']'])

theorem before_mark (absent : mark ∉ text) (rest : Text) : before mark (text ++ mark :: rest) = text := by
  rw [before, takeWhile_append_of_pos fun char member => by simpa using ne_of_mem_of_not_mem member absent]
  simp

theorem behind_mark (absent : mark ∉ text) (rest : Text) : behind mark (text ++ mark :: rest) = rest := by
  rw [behind, dropWhile_append_of_pos fun char member => by simpa using ne_of_mem_of_not_mem member absent]
  simp

theorem opened (text : Text) : '[' ∈ bracketed text := mem_cons_self

theorem behind_opened (text : Text) : behind '[' (bracketed text) = text ++ [']'] := behind_mark not_mem_nil _

theorem readEntry_ne_nil {arg key : Text} (is : readEntry arg = .ok (key, text)) : key ≠ [] := by
  unfold readEntry at is
  repeat' split at is
  all_goals cases is
  · exact cons_ne_nil _ _
  · exact cons_ne_nil _ _
  · next long =>
    refine ne_nil_of_length_pos ?_
    have size := long.1
    rw [length_cons] at size
    rw [length_dropLast]
    omega

theorem getSubValue_array {values : { values : List V // values.length < 2 ^ 31 }} {idx : Int} (is : view value = .array values)
    (closed : ']' ∉ text) (reads : getAsInteger text = some idx) (low : -values.1.length ≤ idx) (high : idx < values.1.length) :
    getSubValue getAsInteger view value (bracketed text) =
        some values.1[(if idx < 0 then values.1.length + idx else idx).toNat]? ↔ 0 ≤ idx := by
  have selected : select getAsInteger view value (bracketed text) =
      some (values.1[((if idx < 0 then values.1.length - idx else idx) % 2 ^ 32).toNat]?.map (·, [])) := by
    simp [select, is, bracketed, before_mark closed, behind_mark closed, reads]
  have small := values.2
  rw [getSubValue, selected]
  by_cases negative : idx < 0
  · -- The sum of the count and the number is no index.
    rw [if_pos negative, if_pos negative, Int.emod_eq_of_lt (by omega) (by omega), getElem?_eq_none (by omega),
      getElem?_eq_getElem (by omega)]
    simpa using negative
  · rw [if_neg negative, if_neg negative, Int.emod_eq_of_lt (by omega) (by omega), getElem?_eq_getElem (by omega)]
    simpa using negative

theorem getSubValue_key {values : Dictionary V} {entry : V} {key : Text} (is : view value = .dictionary values)
    (there : values key = some entry) (some_ : key ≠ []) (closed : ']' ∉ key) :
    getSubValue getAsInteger view value (bracketed ('\'' :: (key ++ ['\'']))) = some (some entry) ∧
      ((∀ first ∈ key.head?, isQuote first = false) → getSubValue getAsInteger view value (bracketed key) = some (some entry)) := by
  constructor
  · have inner : ']' ∉ key ++ ['\''] := by simp [closed]
    have selected : select getAsInteger view value (bracketed ('\'' :: (key ++ ['\'']))) = some (some (entry, [])) := by
      unfold select
      rw [is]
      dsimp only
      rw [if_neg (not_not_intro (opened _)), behind_opened, cons_append]
      dsimp only
      rw [if_pos (by decide), before_mark inner, behind_mark inner]
      simp [isQuote, Option.filter, some_, there]
    rw [getSubValue, selected]
    rfl
  · intro bare
    obtain ⟨first, rest, rfl⟩ := exists_cons_of_ne_nil some_
    have plain := bare first rfl
    have selected : select getAsInteger view value (bracketed (first :: rest)) = some (some (entry, [])) := by
      unfold select
      rw [is]
      dsimp only
      rw [if_neg (not_not_intro (opened _)), behind_opened, cons_append]
      dsimp only
      rw [plain, if_neg Bool.false_ne_true, ← cons_append, before_mark closed, behind_mark closed]
      simp [Option.filter, there]
    rw [getSubValue, selected]
    rfl

/-- In a dictionary with one entry. -/
theorem getSubValue_closed {key : Text} (closed : ']' ∈ key) :
    getSubValue (fun _ => none) (fun value => if value then .dictionary fun other => if other = key then some false else none else .other)
      true (bracketed ('\'' :: (key ++ ['\'']))) ≠ some (some false) := by
  have shorter : (before ']' (key ++ ['\'', ']'])).length < key.length := by
    obtain ⟨front, back, rfl, absent⟩ := eq_append_cons_of_mem closed
    rw [append_assoc, cons_append, before_mark absent]
    simp
  have selected : select (fun _ => none)
      (fun value => if value then View.dictionary fun other => if other = key then some false else none else .other)
      true (bracketed ('\'' :: (key ++ ['\'']))) = some none := by
    unfold select
    simp only [if_true]
    rw [if_neg (not_not_intro (opened _)), behind_opened]
    have rest : key ++ ['\''] ++ [']'] = key ++ ['\'', ']'] := by simp
    simp only [cons_append, rest, isQuote]
    have other : (before ']' (key ++ ['\'', ']'])).dropLast ≠ key := by
      intro same
      have length := congrArg List.length same
      rw [length_dropLast] at length
      omega
    by_cases ends : (before ']' (key ++ ['\'', ']'])).getLast? = some '\''
    · simp [ends, Option.filter, other]
    · simp [ends]
  rw [getSubValue, selected]
  simp

def Step (getAsInteger : Text → Option Int) (view : V → View V) (from_ next : V × Text) : Prop :=
  select getAsInteger view from_.1 from_.2 = some (some next) ∧ next.2 ≠ []

/-- A dictionary is asked for a path that ends with its first bracket. -/
def OpensAtEnd (view : V → View V) (asked : V × Text) : Prop :=
  (∃ values, view asked.1 = .dictionary values) ∧ '[' ∈ asked.2 ∧ behind '[' asked.2 = []

theorem select_eq_none_iff : select getAsInteger view value name = none ↔ OpensAtEnd view (value, name) := by
  unfold select OpensAtEnd
  cases view value with
  | other => simp
  | array values =>
    simp only [reduceCtorEq]
    split
    · split
      · simp
      · split <;> simp
    · simp
  | dictionary values =>
    by_cases opened : '[' ∈ name
    · simp only [opened]
      cases behind '[' name with
      | nil => simp
      | cons first rest => simp
    · simp [opened]

theorem getSubValue_eq_none_iff : getSubValue getAsInteger view value name = none ↔
    ∃ asked, Relation.ReflTransGen (Step getAsInteger view) (value, name) asked ∧ OpensAtEnd view asked := by
  induction size : name.length using Nat.strong_induction_on generalizing value name with
  | _ size ih =>
    rw [getSubValue]
    cases is : select getAsInteger view value name with
    | none => exact iff_of_true rfl ⟨_, .refl, select_eq_none_iff.mp is⟩
    | some selected =>
      have here : ¬ OpensAtEnd view (value, name) := fun opens => by simp [select_eq_none_iff.mpr opens] at is
      -- A way to such a dictionary starts with the value selected.
      have first (asked : V × Text) : Relation.ReflTransGen (Step getAsInteger view) (value, name) asked ∧ OpensAtEnd view asked ↔
          ∃ next, Step getAsInteger view (value, name) next ∧
            Relation.ReflTransGen (Step getAsInteger view) next asked ∧ OpensAtEnd view asked := by
        rw [Relation.ReflTransGen.cases_head_iff]
        constructor
        · rintro ⟨rfl | ⟨next, step, rest⟩, opens⟩
          · exact absurd opens here
          · exact ⟨next, step, rest, opens⟩
        · rintro ⟨next, step, rest, opens⟩
          exact ⟨.inr ⟨next, step, rest⟩, opens⟩
      simp only [first, Step, is]
      cases selected with
      | none => simp
      | some next =>
        dsimp only
        by_cases last : next.2 = []
        · rw [if_pos last]
          simp only [reduceCtorEq, false_iff]
          rintro ⟨asked, other, ⟨same, rest⟩, -⟩
          exact rest (Option.some.inj (Option.some.inj same) ▸ last)
        · rw [if_neg last, ih _ (size ▸ length_select is) rfl]
          constructor
          · rintro ⟨asked, way, opens⟩
            exact ⟨asked, next, ⟨rfl, last⟩, way, opens⟩
          · rintro ⟨asked, other, ⟨same, -⟩, way, opens⟩
            obtain rfl := Option.some.inj (Option.some.inj same)
            exact ⟨asked, way, opens⟩

/-- Exactly when an index from the end or from the start, a key that was set, and any path name what they should. -/
theorem paths_address_iff {V : Type} (getAsInteger : Text → Option Int) (view : V → View V) (value : V) :
    (∀ (values : { values : List V // values.length < 2 ^ 31 }) (text : Text) (idx : Int),
      view value = .array values → ']' ∉ text → getAsInteger text = some idx → -values.1.length ≤ idx → idx < values.1.length →
        (getSubValue getAsInteger view value (bracketed text) =
          some values.1[(if idx < 0 then values.1.length + idx else idx).toNat]? ↔ 0 ≤ idx)) ∧
    (∀ arg key text : Text, readEntry arg = .ok (key, text) →
      ((∀ (V : Type) (getAsInteger : Text → Option Int) (view : V → View V) (value entry : V) (values : Dictionary V),
        view value = .dictionary values → values key = some entry →
          getSubValue getAsInteger view value (bracketed ('\'' :: (key ++ ['\'']))) = some (some entry) ∧
            ((∀ first ∈ key.head?, isQuote first = false) →
              getSubValue getAsInteger view value (bracketed key) = some (some entry))) ↔ ']' ∉ key)) ∧
    ∀ name : Text, getSubValue getAsInteger view value name ≠ none ↔
      ∀ asked, Relation.ReflTransGen (Step getAsInteger view) (value, name) asked → ¬ OpensAtEnd view asked := by
  refine ⟨fun values text idx is closed reads low high => getSubValue_array is closed reads low high,
    fun arg key text accepted => ⟨fun all closed => ?_, fun closed V getAsInteger view value entry values is there =>
      getSubValue_key is there (readEntry_ne_nil accepted) closed⟩, fun name => ?_⟩
  · exact getSubValue_closed closed (all Bool _ _ true false _ (if_pos rfl) (if_pos rfl)).1
  · rw [Ne, getSubValue_eq_none_iff]
    simp

theorem not_paths_address :
    getSubValue (fun _ => some (-1)) (fun value => if value then .array ⟨[false], by decide⟩ else .other) true ['[', '-', '1', ']'] ≠
      some (some false) ∧
    readEntry ['a', ']', '=', 'x'] = .ok (['a', ']'], ['x']) ∧
    getSubValue (fun _ => none)
      (fun value => if value then .dictionary fun key => if key = ['a', ']'] then some false else none else .other)
      true (bracketed ['\'', 'a', ']', '\'']) ≠ some (some false) ∧
    getSubValue (fun _ => none) (fun _ => .dictionary fun _ => none) true ['a', '['] = none := by
  have none_ {V : Type} {getAsInteger : Text → Option Int} {view : V → View V} {value : V} {name : Text}
      (is : select getAsInteger view value name = some none) (entry : V) :
      getSubValue getAsInteger view value name ≠ some (some entry) := by
    rw [getSubValue, is]
    simp
  refine ⟨none_ rfl _, rfl, none_ rfl _, getSubValue_eq_none_iff.mpr ⟨_, .refl, ⟨_, rfl⟩, by decide, rfl⟩⟩

end Paths

end Lldb.OptionValue
