import Lldb.Utility.FileSpecNormalization

/-! `PathMappingList`: pairs of normalised paths, how the list is changed, and how an entry is found again. -/

set_option autoImplicit false

namespace Lldb

open List

open Library.PosixPath (Path slash dot)

/-- The path that a `FileSpec` makes of it. -/
def normalizePath (host : Host) (path : ConstString) : ConstString :=
  some ((FileSpec.setFile host path.getStringRef false .native).getPath true)

/-- The pairs, the modification id, and how often the callback has been called, if there is one. -/
structure PathMappingList where
  pairs : List (ConstString × ConstString)
  modId : Nat
  callback : Bool
  calls : Nat
  deriving DecidableEq, Repr

namespace PathMappingList

variable (host : Host) (list : PathMappingList)

def uint32Max : Nat := 2 ^ 32 - 1

def empty (callback : Bool) : PathMappingList := { pairs := [], modId := 0, callback, calls := 0 }

/-- `++m_mod_id` with the changed pairs. -/
def modified (pairs : List (ConstString × ConstString)) : PathMappingList :=
  { list with pairs, modId := (list.modId + 1) % 2 ^ 32 }

def notified (notify : Bool) : PathMappingList :=
  if notify && list.callback then { list with calls := list.calls + 1 } else list

def findIteratorForPath (path : ConstString) : Nat := list.pairs.findIdx (·.1 = path)

def findIndexForPath (origPath : ConstString) : Nat :=
  let path := normalizePath host origPath
  match list.pairs.findIdx? (·.1 = path) with
  | some position => position % 2 ^ 32
  | none => uint32Max

def append (path replacement : ConstString) (notify : Bool) : PathMappingList :=
  (list.modified (list.pairs ++ [(normalizePath host path, normalizePath host replacement)])).notified notify

def insert (path replacement : ConstString) (index : Nat) (notify : Bool) : PathMappingList :=
  let position := if index ≥ list.pairs.length then list.pairs.length else index
  (list.modified (list.pairs.insertIdx position (normalizePath host path, normalizePath host replacement))).notified notify

def replaceAt (path replacement : ConstString) (index : Nat) (notify : Bool) : Bool × PathMappingList :=
  if index ≥ list.pairs.length then (false, list)
  else
    let pairs := list.pairs.set index (normalizePath host path, normalizePath host replacement)
    (true, (list.modified pairs).notified notify)

def removeAt (index : Nat) (notify : Bool) : Bool × PathMappingList :=
  if index ≥ list.pairs.length then (false, list)
  else (true, (list.modified (list.pairs.eraseIdx index)).notified notify)

def clear (notify : Bool) : PathMappingList :=
  (if list.pairs ≠ [] then list.modified [] else list).notified notify

def replace (path newPath : ConstString) (notify : Bool) : Bool × PathMappingList :=
  let idx := list.findIndexForPath host path
  match list.pairs[idx]? with
  | some pair => (true, (list.modified (list.pairs.set idx (pair.1, newPath))).notified notify)
  | none => (false, list)

def remove (path : ConstString) (notify : Bool) : Bool × PathMappingList :=
  let pos := list.findIteratorForPath path
  if pos ≠ list.pairs.length then (true, (list.modified (list.pairs.eraseIdx pos)).notified notify)
  else (false, list)

/-! Runs of the functions that change a list. -/

abbrev PathString := { path : ConstString // 0 ∉ path.getStringRef }

inductive Op
  | append (path replacement : PathString) (notify : Bool)
  | insert (path replacement : PathString) (index : Nat) (notify : Bool)
  | replaceAt (path replacement : PathString) (index : Nat) (notify : Bool)
  | removeAt (index : Nat) (notify : Bool)
  | clear (notify : Bool)
  | replace (path newPath : PathString) (notify : Bool)
  | remove (path : PathString) (notify : Bool)

def Op.apply : Op → PathMappingList
  | .append path replacement notify => list.append host path.1 replacement.1 notify
  | .insert path replacement index notify => list.insert host path.1 replacement.1 index notify
  | .replaceAt path replacement index notify => (list.replaceAt host path.1 replacement.1 index notify).2
  | .removeAt index notify => (list.removeAt index notify).2
  | .clear notify => list.clear notify
  | .replace path newPath notify => (list.replace host path.1 newPath.1 notify).2
  | .remove path notify => (list.remove path.1 notify).2

/-- Entry by entry, the path that was given to `append` for it. -/
def Op.marks (marks : List (Option ConstString)) : Op → List (Option ConstString)
  | .append path _ _ => marks ++ [some path.1]
  | .insert _ _ index _ => marks.insertIdx (if index ≥ list.pairs.length then list.pairs.length else index) none
  | .replaceAt _ _ index _ => marks.set index none
  | .removeAt index _ => marks.eraseIdx index
  | .clear _ => []
  | .replace _ _ _ => marks
  | .remove path _ => marks.eraseIdx (list.findIteratorForPath path.1)

/-- A list as the operations that `allowed` lets through leave it, and the paths given for its entries. -/
inductive Run (allowed : PathMappingList → Op → Prop) : PathMappingList → List (Option ConstString) → Prop
  | start (callback : Bool) : Run allowed (empty callback) []
  | step {list : PathMappingList} {marks : List (Option ConstString)} (run : Run allowed list marks) (op : Op)
      (allow : allowed list op) : Run allowed (op.apply host list) (op.marks list marks)

/-- All paths are normalised, and an entry appended for a path is found for it. -/
structure Addressable (marks : List (Option ConstString)) : Prop where
  normalised : ∀ pair ∈ list.pairs, normalizePath host pair.1 = pair.1 ∧ normalizePath host pair.2 = pair.2
  index : ∀ path, some path ∈ marks →
    ∃ pair, list.pairs[list.findIndexForPath host path]? = some pair ∧ pair.1 = normalizePath host path
  replace : ∀ path, some path ∈ marks → ∀ newPath notify, (list.replace host path newPath notify).1 = true
  remove : ∀ path, some path ∈ marks → ∀ notify, (list.remove path notify).1 = true

/-- A path is appended as its own normal form, an entry is replaced by one, and there are no more entries than can be
counted.
-/
def Meets : Op → Prop
  | .append path _ _ => normalizePath host path.1 = path.1 ∧ list.pairs.length + 1 < 2 ^ 32
  | .insert _ _ _ _ => list.pairs.length + 1 < 2 ^ 32
  | .replace path newPath _ =>
      (∃ pair ∈ list.pairs, pair.1 = normalizePath host path.1) → normalizePath host newPath.1 = newPath.1
  | _ => True

/-! Normalised paths. -/

theorem normalizePath_normalizePath {host : Host} (documented : host.Documented) (path : PathString) :
    normalizePath host (normalizePath host path.1) = normalizePath host path.1 := by
  have stable := setFile_getPath documented path.2 true
  exact congrArg (fun spec : FileSpec => some (spec.getPath true)) stable

/-! The pairs that each function leaves. -/

@[simp] theorem notified_pairs (list : PathMappingList) (notify : Bool) :
    (list.notified notify).pairs = list.pairs := by
  unfold notified
  split
  · rfl
  · rfl

theorem clear_pairs (list : PathMappingList) (notify : Bool) : (list.clear notify).pairs = [] := by
  unfold clear
  rw [notified_pairs]
  by_cases some_ : list.pairs ≠ []
  · rw [if_pos some_]
    rfl
  · rw [if_neg some_]
    exact not_not.mp some_

theorem removeAt_pairs (list : PathMappingList) (index : Nat) (notify : Bool) :
    (list.removeAt index notify).2.pairs = list.pairs.eraseIdx index := by
  unfold removeAt
  split
  · next outside => exact (eraseIdx_of_length_le outside).symm
  · exact notified_pairs _ _

theorem remove_pairs (list : PathMappingList) (path : ConstString) (notify : Bool) :
    (list.remove path notify).2.pairs = list.pairs.eraseIdx (list.findIteratorForPath path) := by
  unfold remove
  dsimp only
  split
  · exact notified_pairs _ _
  · next outside =>
    rw [not_not] at outside
    exact (eraseIdx_of_length_le outside.ge).symm

theorem replaceAt_pairs (host : Host) (list : PathMappingList) (path replacement : ConstString) (index : Nat)
    (notify : Bool) :
    (list.replaceAt host path replacement index notify).2.pairs =
      list.pairs.set index (normalizePath host path, normalizePath host replacement) := by
  unfold replaceAt
  split
  · next outside => exact (set_eq_of_length_le outside).symm
  · exact notified_pairs _ _

/-! Entries are found by their own normal form. -/

/-- What a run keeps: normalised pairs, few enough to be counted, and for each mark the entry it was made for. -/
structure Kept (host : Host) (pairs : List (ConstString × ConstString)) (marks : List (Option ConstString)) : Prop where
  normalised : ∀ pair ∈ pairs, normalizePath host pair.1 = pair.1 ∧ normalizePath host pair.2 = pair.2
  few : pairs.length < 2 ^ 32
  marked : ∀ (index : Nat) (path : ConstString), marks[index]? = some (some path) →
    normalizePath host path = path ∧ ∃ pair, pairs[index]? = some pair ∧ pair.1 = path
  length : marks.length = pairs.length

theorem findIndexForPath_found {host : Host} {list : PathMappingList} (few : list.pairs.length < 2 ^ 32)
    {path : ConstString} (found : ∃ pair ∈ list.pairs, pair.1 = normalizePath host path) :
    ∃ pair, list.pairs[list.findIndexForPath host path]? = some pair ∧ pair.1 = normalizePath host path := by
  obtain ⟨pair, member, same⟩ := found
  have some_ : (list.pairs.findIdx? (·.1 = normalizePath host path)).isSome = true := by
    rw [findIdx?_isSome, any_eq_true]
    exact ⟨pair, member, decide_eq_true same⟩
  obtain ⟨position, first⟩ := Option.isSome_iff_exists.mp some_
  obtain ⟨inside, here, -⟩ := findIdx?_eq_some_iff_getElem.mp first
  -- The position is returned in 32 bits.
  unfold findIndexForPath
  dsimp only
  rw [first]
  dsimp only
  rw [Nat.mod_eq_of_lt (inside.trans few)]
  exact ⟨_, getElem?_eq_getElem inside, of_decide_eq_true here⟩

theorem exists_of_findIndexForPath {host : Host} {list : PathMappingList} (few : list.pairs.length < 2 ^ 32)
    {path : ConstString} {pair : ConstString × ConstString}
    (found : list.pairs[list.findIndexForPath host path]? = some pair) :
    ∃ pair ∈ list.pairs, pair.1 = normalizePath host path := by
  have inside := (List.getElem?_eq_some_iff.mp found).1
  unfold findIndexForPath at inside
  dsimp only at inside
  cases first : list.pairs.findIdx? (·.1 = normalizePath host path) with
  | none =>
    have max : uint32Max = 2 ^ 32 - 1 := rfl
    rw [first] at inside
    dsimp only at inside
    omega
  | some position =>
    obtain ⟨below, here, -⟩ := findIdx?_eq_some_iff_getElem.mp first
    exact ⟨_, getElem_mem below, of_decide_eq_true here⟩

theorem Kept.addressable {host : Host} {list : PathMappingList} {marks : List (Option ConstString)}
    (kept : Kept host list.pairs marks) : Addressable host list marks := by
  have entry : ∀ path, some path ∈ marks → normalizePath host path = path ∧ ∃ pair ∈ list.pairs, pair.1 = path := by
    intro path member
    obtain ⟨index, here⟩ := mem_iff_getElem?.mp member
    obtain ⟨normal, pair, found, same⟩ := kept.marked index path here
    exact ⟨normal, pair, mem_of_getElem? found, same⟩
  have index : ∀ path, some path ∈ marks →
      ∃ pair, list.pairs[list.findIndexForPath host path]? = some pair ∧ pair.1 = normalizePath host path := by
    intro path member
    obtain ⟨normal, pair, found, same⟩ := entry path member
    exact findIndexForPath_found kept.few ⟨pair, found, same.trans normal.symm⟩
  refine ⟨kept.normalised, index, fun path member newPath notify => ?_, fun path member notify => ?_⟩
  · obtain ⟨pair, found, -⟩ := index path member
    unfold replace
    dsimp only
    rw [found]
  · obtain ⟨-, pair, found, same⟩ := entry path member
    have inside : list.findIteratorForPath path < list.pairs.length :=
      findIdx_lt_length_of_exists ⟨pair, found, decide_eq_true same⟩
    unfold remove
    rw [if_pos inside.ne]

section Kept

variable {host : Host} {pairs : List (ConstString × ConstString)} {marks : List (Option ConstString)}
  {pair : ConstString × ConstString}

theorem Kept.nil (host : Host) : Kept host [] [] :=
  ⟨fun _ member => absurd member not_mem_nil, by decide, fun _ _ here => absurd here (by simp), rfl⟩

theorem Kept.insertIdx (kept : Kept host pairs marks) {index : Nat} (inside : index ≤ pairs.length)
    (few : pairs.length + 1 < 2 ^ 32) (normal : normalizePath host pair.1 = pair.1 ∧ normalizePath host pair.2 = pair.2)
    {mark : Option ConstString} (given : ∀ path, mark = some path → pair.1 = path) :
    Kept host (pairs.insertIdx index pair) (marks.insertIdx index mark) := by
  refine ⟨fun other member => ?_, ?_, fun position path here => ?_, ?_⟩
  · rcases (mem_insertIdx inside).mp member with rfl | earlier
    · exact normal
    · exact kept.normalised other earlier
  · rwa [length_insertIdx_of_le_length inside]
  · rw [getElem?_insertIdx] at here ⊢
    split at here
    · next before =>
      rw [if_pos before]
      exact kept.marked position path here
    · next before =>
      rw [if_neg before]
      split at here
      · next same =>
        rw [if_pos same, if_pos (same ▸ inside)]
        split at here
        · have chosen := given path (Option.some.inj here)
          exact ⟨chosen ▸ normal.1, pair, rfl, chosen⟩
        · cases here
      · next same =>
        rw [if_neg same]
        exact kept.marked (position - 1) path here
  · rw [length_insertIdx_of_le_length inside, length_insertIdx_of_le_length (kept.length ▸ inside),
      kept.length]

theorem Kept.eraseIdx (kept : Kept host pairs marks) (index : Nat) :
    Kept host (pairs.eraseIdx index) (marks.eraseIdx index) := by
  refine ⟨fun other member => ?_, ?_, fun position path here => ?_, ?_⟩
  · exact kept.normalised other (mem_of_mem_eraseIdx member)
  · exact (length_eraseIdx_le pairs index).trans_lt kept.few
  · rw [getElem?_eraseIdx] at here ⊢
    split at here
    · next before =>
      rw [if_pos before]
      exact kept.marked position path here
    · next before =>
      rw [if_neg before]
      exact kept.marked (position + 1) path here
  · simp [length_eraseIdx, kept.length]

theorem Kept.set (kept : Kept host pairs marks) (index : Nat)
    (normal : normalizePath host pair.1 = pair.1 ∧ normalizePath host pair.2 = pair.2) :
    Kept host (pairs.set index pair) (marks.set index none) := by
  refine ⟨fun other member => ?_, ?_, fun position path here => ?_, ?_⟩
  · rcases mem_or_eq_of_mem_set member with earlier | rfl
    · exact kept.normalised other earlier
    · exact normal
  · rw [length_set]
    exact kept.few
  · rw [getElem?_set] at here ⊢
    split at here
    · split at here
      · cases here
      · cases here
    · next other =>
      rw [if_neg other]
      exact kept.marked position path here
  · simp [kept.length]

theorem Kept.replace (kept : Kept host pairs marks) {index : Nat} (found : pairs[index]? = some pair)
    {newPath : ConstString} (normal : normalizePath host newPath = newPath) :
    Kept host (pairs.set index (pair.1, newPath)) marks := by
  refine ⟨fun other member => ?_, ?_, fun position path here => ?_, ?_⟩
  · rcases mem_or_eq_of_mem_set member with earlier | rfl
    · exact kept.normalised other earlier
    · exact ⟨(kept.normalised pair (mem_of_getElem? found)).1, normal⟩
  · rw [length_set]
    exact kept.few
  · obtain ⟨same, old, there, first⟩ := kept.marked position path here
    refine ⟨same, ?_⟩
    rw [getElem?_set]
    split
    · next eq =>
      subst eq
      rw [found] at there
      cases there
      rw [if_pos (List.getElem?_eq_some_iff.mp found).1]
      exact ⟨_, rfl, first⟩
    · exact ⟨old, there, first⟩
  · rw [length_set, kept.length]

end Kept

/-! Runs. -/

theorem Op.apply_kept {host : Host} (documented : host.Documented) {list : PathMappingList}
    {marks : List (Option ConstString)} (kept : Kept host list.pairs marks) (op : Op) (meets : Meets host list op) :
    Kept host (op.apply host list).pairs (op.marks list marks) := by
  have normal : ∀ path replacement : PathString,
      normalizePath host (normalizePath host path.1, normalizePath host replacement.1).1 =
          (normalizePath host path.1, normalizePath host replacement.1).1 ∧
        normalizePath host (normalizePath host path.1, normalizePath host replacement.1).2 =
          (normalizePath host path.1, normalizePath host replacement.1).2 := fun path replacement =>
    ⟨normalizePath_normalizePath documented path, normalizePath_normalizePath documented replacement⟩
  cases op with
  | append path replacement notify =>
    have same : ∀ other, some path.1 = some other → normalizePath host path.1 = other :=
      fun _ here => meets.1.trans (Option.some.inj here)
    have added := kept.insertIdx (le_refl _) meets.2 (normal path replacement) same
    rw [insertIdx_length_self, ← kept.length, insertIdx_length_self] at added
    show Kept host ((list.append host path.1 replacement.1 notify).pairs) (marks ++ [some path.1])
    rw [PathMappingList.append, notified_pairs]
    exact added
  | insert path replacement index notify =>
    show Kept host (list.insert host path.1 replacement.1 index notify).pairs _
    rw [PathMappingList.insert, notified_pairs]
    refine kept.insertIdx ?_ meets (normal path replacement) fun _ none => absurd none (by simp)
    split
    · exact le_refl _
    · next inside => exact (Nat.lt_of_not_le inside).le
  | replaceAt path replacement index notify =>
    show Kept host (list.replaceAt host path.1 replacement.1 index notify).2.pairs _
    rw [replaceAt_pairs]
    exact kept.set index (normal path replacement)
  | removeAt index notify =>
    show Kept host (list.removeAt index notify).2.pairs _
    rw [removeAt_pairs]
    exact kept.eraseIdx index
  | clear notify =>
    show Kept host (list.clear notify).pairs []
    rw [clear_pairs]
    exact .nil host
  | replace path newPath notify =>
    show Kept host (list.replace host path.1 newPath.1 notify).2.pairs marks
    unfold PathMappingList.replace
    dsimp only
    cases found : list.pairs[list.findIndexForPath host path.1]? with
    | none => exact kept
    | some pair =>
      rw [notified_pairs]
      exact kept.replace found (meets (exists_of_findIndexForPath kept.few found))
  | remove path notify =>
    show Kept host (list.remove path.1 notify).2.pairs _
    rw [remove_pairs]
    exact kept.eraseIdx _

theorem run_addressable {host : Host} (documented : host.Documented) {list : PathMappingList}
    {marks : List (Option ConstString)} (run : Run host (Meets host) list marks) : Addressable host list marks := by
  have kept : Kept host list.pairs marks := by
    induction run with
    | start callback => exact .nil host
    | step run op meets ih => exact op.apply_kept documented ih meets
  exact kept.addressable

/-- `/a` is mapped to `/b` and then to `/c`. -/
theorem run_addressable_mapped : let host := Host.posix id
    let source : PathString := ⟨some [slash, 0x61], by decide⟩
    let append := Op.append source ⟨some [slash, 0x62], by decide⟩ false
    let replace := Op.replace source ⟨some [slash, 0x63], by decide⟩ false
    let list := append.apply host (empty false)
    Addressable host (replace.apply host list) (replace.marks list (append.marks (empty false) [])) :=
  run_addressable (Host.posix_documented id)
    (.step (.step (.start false) _ ⟨by decide, by decide⟩) _ fun _ => by decide)

/-- An entry for `./a` cannot be removed by that path, and an entry can be mapped to `/c/`. -/
theorem run_not_addressable : let host := Host.posix id
    let mapped : PathString := ⟨some [slash, 0x62], by decide⟩
    let dotted := Op.append ⟨some [dot, slash, 0x61], by decide⟩ mapped false
    let append := Op.append ⟨some [slash, 0x61], by decide⟩ mapped false
    let replace := Op.replace ⟨some [slash, 0x61], by decide⟩ ⟨some [slash, 0x63, slash], by decide⟩ false
    let list := append.apply host (empty false)
    let any : PathMappingList → Op → Prop := fun _ _ => True
    (Run host any (dotted.apply host (empty false)) (dotted.marks (empty false) []) ∧
        ¬ Addressable host (dotted.apply host (empty false)) (dotted.marks (empty false) [])) ∧
      Run host any (replace.apply host list) (replace.marks list (append.marks (empty false) [])) ∧
        ¬ Addressable host (replace.apply host list) (replace.marks list (append.marks (empty false) [])) := by
  intro host mapped dotted append replace list any
  refine ⟨⟨.step (.start false) dotted trivial, fun addressable => ?_⟩,
    .step (.step (.start false) append trivial) replace trivial, fun addressable => ?_⟩
  · have removed := addressable.remove (some [dot, slash, 0x61]) (by decide) false
    exact absurd removed (by decide)
  · have normal := (addressable.normalised (some [slash, 0x61], some [slash, 0x63, slash]) (by decide)).2
    exact absurd normal (by decide)

end PathMappingList

end Lldb
