import Lldb.Target.SectionLoadRuns

/-! `SectionLoadHistory`: a section load list for each stop at which one was changed or asked for.

`eStopIDNow` stands for the last list in reads. The assertion that writes do not use it is not modelled.
-/

set_option autoImplicit false

namespace Lldb

open Library (OrderedMap)
open List

/-- `m_stop_id_to_section_load_list`. -/
structure SectionLoadHistory where
  lists : OrderedMap Nat SectionLoadList

namespace SectionLoadHistory

def eStopIDNow : Nat := 2 ^ 32 - 1

def empty : SectionLoadHistory := ⟨.empty⟩

def insertEmpty (history : SectionLoadHistory) (stopId : Nat) : Nat × SectionLoadHistory :=
  let stopId := if stopId = eStopIDNow then 0 else stopId
  (stopId, ⟨history.lists.insert stopId .empty⟩)

/-- The stop ID under which the list is kept that `GetSectionLoadListForStopID` returns. -/
def getSectionLoadListForStopID (history : SectionLoadHistory) (stopId : Nat) (readOnly : Bool) :
    Nat × SectionLoadHistory :=
  let entries := history.lists.entries
  let position := history.lists.lowerBound stopId
  match entries.getLast? with
  | none => history.insertEmpty stopId
  | some last =>
      if readOnly then
        if stopId = eStopIDNow then (last.1, history)
        else if (entries[position]?.any fun entry => entry.1 = stopId) then (stopId, history)
        else if position = 0 then history.insertEmpty stopId
        else ((entries[position - 1]?.getD last).1, history)
      else if (entries[position]?.any fun entry => entry.1 = stopId) then (stopId, history)
      -- A copy of the last list, also where that is of a later stop.
      else (stopId, ⟨history.lists.insert stopId last.2⟩)

def listAt (history : SectionLoadHistory) (stopId : Nat) : SectionLoadList :=
  (history.lists.find? stopId).getD .empty

def getCurrentSectionLoadList (history : SectionLoadHistory) : SectionLoadList × SectionLoadHistory :=
  let (key, history) := history.getSectionLoadListForStopID eStopIDNow true
  (history.listAt key, history)

def getSectionLoadAddress (history : SectionLoadHistory) (stopId : Nat) (sect : Section) : Nat × SectionLoadHistory :=
  let (key, history) := history.getSectionLoadListForStopID stopId true
  ((history.listAt key).getSectionLoadAddress sect, history)

def resolveLoadAddress (history : SectionLoadHistory) (stopId loadAddr : Nat) : Option Address × SectionLoadHistory :=
  let (key, history) := history.getSectionLoadListForStopID stopId true
  ((history.listAt key).resolveLoadAddress loadAddr false, history)

def setSectionLoadAddress (history : SectionLoadHistory) (stopId : Nat) (sect : Section) (loadAddr : Nat) :
    Bool × SectionLoadHistory :=
  let (key, history) := history.getSectionLoadListForStopID stopId false
  let (changed, list) := (history.listAt key).setSectionLoadAddress sect loadAddr
  (changed, ⟨history.lists.insert key list⟩)

def setSectionUnloaded (history : SectionLoadHistory) (stopId : Nat) (sect : Section) : Nat × SectionLoadHistory :=
  let (key, history) := history.getSectionLoadListForStopID stopId false
  let (count, list) := (history.listAt key).setSectionUnloaded sect
  (count, ⟨history.lists.insert key list⟩)

/-- `SetSectionUnloaded` with a load address. -/
def setSectionUnloadedAt (history : SectionLoadHistory) (stopId : Nat) (sect : Section) (loadAddr : Nat) :
    Bool × SectionLoadHistory :=
  let (key, history) := history.getSectionLoadListForStopID stopId false
  let (erased, list) := (history.listAt key).setSectionUnloadedAt sect loadAddr
  (erased, ⟨history.lists.insert key list⟩)

inductive Read where
  | getCurrentSectionLoadList
  | getSectionLoadAddress (stopId : Nat) (sect : Section)
  | resolveLoadAddress (stopId loadAddr : Nat)

inductive Call where
  | read (read : Read)
  | write (stopId : Nat) (call : SectionLoadList.Call)

inductive Result where
  | list (list : SectionLoadList)
  | address (loadAddr : Nat)
  | resolved (address : Option Address)
  | changed (changed : Bool)
  | unloadCount (count : Nat)

def perform (history : SectionLoadHistory) : Call → Result × SectionLoadHistory
  | .read .getCurrentSectionLoadList =>
      let (list, history) := history.getCurrentSectionLoadList
      (.list list, history)
  | .read (.getSectionLoadAddress stopId sect) =>
      let (loadAddr, history) := history.getSectionLoadAddress stopId sect
      (.address loadAddr, history)
  | .read (.resolveLoadAddress stopId loadAddr) =>
      let (address, history) := history.resolveLoadAddress stopId loadAddr
      (.resolved address, history)
  | .write stopId (.setSectionLoadAddress sect loadAddr) =>
      let (changed, history) := history.setSectionLoadAddress stopId sect loadAddr
      (.changed changed, history)
  | .write stopId (.setSectionUnloaded sect) =>
      let (count, history) := history.setSectionUnloaded stopId sect
      (.unloadCount count, history)
  | .write stopId (.setSectionUnloadedAt sect loadAddr) =>
      let (erased, history) := history.setSectionUnloadedAt stopId sect loadAddr
      (.changed erased, history)

def results (history : SectionLoadHistory) : List Call → List Result
  | [] => []
  | call :: rest => (history.perform call).1 :: results (history.perform call).2 rest

/-! ## The plain log of writes -/

abbrev Log := List (Nat × SectionLoadList.Call)

def view (log : Log) (stopId : Nat) : SectionLoadList :=
  SectionLoadList.empty.afterAll ((log.filter fun write => write.1 ≤ stopId).map Prod.snd)

def Read.stopId : Read → Nat
  | getCurrentSectionLoadList => eStopIDNow
  | getSectionLoadAddress stopId _ => stopId
  | resolveLoadAddress stopId _ => stopId

def Read.result (list : SectionLoadList) : Read → Result
  | getCurrentSectionLoadList => .list list
  | getSectionLoadAddress _ sect => .address (list.getSectionLoadAddress sect)
  | resolveLoadAddress _ loadAddr => .resolved (list.resolveLoadAddress loadAddr false)

def writeResult (list : SectionLoadList) : SectionLoadList.Call → Result
  | .setSectionLoadAddress sect loadAddr => .changed (list.setSectionLoadAddress sect loadAddr).1
  | .setSectionUnloaded sect => .unloadCount (list.setSectionUnloaded sect).1
  | .setSectionUnloadedAt sect loadAddr => .changed (list.setSectionUnloadedAt sect loadAddr).1

def logged (log : Log) : List Call → List Result
  | [] => []
  | .read read :: rest => read.result (view log read.stopId) :: logged log rest
  | .write stopId call :: rest => writeResult (view log stopId) call :: logged (log ++ [(stopId, call)]) rest

def writes (calls : List Call) : Log := calls.filterMap fun
  | .read _ => none
  | .write stopId call => some (stopId, call)

theorem view_congr {log : Log} {stopId other : Nat} (same : ∀ write ∈ log, write.1 ≤ stopId ↔ write.1 ≤ other) :
    view log stopId = view log other := by
  unfold view
  rw [filter_congr fun write member => decide_eq_decide.mpr (same write member)]

theorem view_none {log : Log} {stopId : Nat} (later : ∀ write ∈ log, stopId < write.1) : view log stopId = .empty := by
  unfold view
  rw [filter_eq_nil_iff.mpr fun write member => by simpa using later write member]
  rfl

theorem view_append (log : Log) (key stopId : Nat) (call : SectionLoadList.Call) :
    view (log ++ [(key, call)]) stopId = if key ≤ stopId then (view log stopId).after call else view log stopId := by
  unfold view
  by_cases reached : key ≤ stopId
  · simp [reached, SectionLoadList.afterAll]
  · simp [reached]

variable (history : SectionLoadHistory)
include history

theorem perform_read (read : Read) : history.perform (.read read) =
      (read.result ((history.getSectionLoadListForStopID read.stopId true).2.listAt
          (history.getSectionLoadListForStopID read.stopId true).1),
        (history.getSectionLoadListForStopID read.stopId true).2) := by
  cases read <;> rfl

theorem perform_write (stopId : Nat) (call : SectionLoadList.Call) : history.perform (.write stopId call) =
      (writeResult ((history.getSectionLoadListForStopID stopId false).2.listAt
          (history.getSectionLoadListForStopID stopId false).1) call,
        ⟨(history.getSectionLoadListForStopID stopId false).2.lists.insert
          (history.getSectionLoadListForStopID stopId false).1
          (((history.getSectionLoadListForStopID stopId false).2.listAt
            (history.getSectionLoadListForStopID stopId false).1).after call)⟩) := by
  cases call <;> rfl

/-- The list that a read finds: of the last stop up to the one asked for, or of the last one at all;
where there is none, an empty list is put there. -/
theorem read_cases (stopId : Nat) : (∃ key list, history.lists.find? key = some list ∧
      history.getSectionLoadListForStopID stopId true = (key, history) ∧ (key ≤ stopId ∨ stopId = eStopIDNow) ∧
      ∀ entry ∈ history.lists.entries, entry.1 ≤ stopId ∨ stopId = eStopIDNow → entry.1 ≤ key) ∨
    history.getSectionLoadListForStopID stopId true = history.insertEmpty stopId ∧
      ∀ entry ∈ history.lists.entries, stopId < entry.1 ∧ stopId ≠ eStopIDNow := by
  cases final : history.lists.entries.getLast? with
  | none =>
    have none_ := getLast?_eq_none_iff.mp final
    right
    unfold getSectionLoadListForStopID
    rw [none_]
    exact ⟨rfl, nofun⟩
  | some last =>
    have member := mem_of_getLast? final
    by_cases now : stopId = eStopIDNow
    · left
      refine ⟨last.1, last.2, (history.lists.find?_eq_some_iff _ _).mpr member, ?_, .inr now, fun entry listed _ =>
        OrderedMap.le_last_of_sorted history.lists.sorted final entry listed⟩
      unfold getSectionLoadListForStopID
      simp [final, now]
    · have lookup : history.getSectionLoadListForStopID stopId true = match history.lists.atOrBefore stopId with
          | some entry => (entry.1, history)
          | none => history.insertEmpty stopId := by
        unfold getSectionLoadListForStopID
        rw [OrderedMap.atOrBefore_eq]
        simp only [final, if_neg now, history.lists.any_lowerBound]
        cases here : history.lists.find? stopId with
        | some list => rfl
        | none =>
          by_cases first : history.lists.lowerBound stopId = 0
          · simp [first]
          · have inside : history.lists.lowerBound stopId - 1 < history.lists.entries.length := by
              have most : history.lists.lowerBound stopId ≤ history.lists.entries.length :=
                (takeWhile_sublist _).length_le
              omega
            simp [first, getElem?_eq_getElem inside]
      have spec := history.lists.atOrBefore_spec stopId
      cases found : history.lists.atOrBefore stopId with
      | some entry =>
        rw [found] at spec lookup
        obtain ⟨listed, reached, largest⟩ := spec
        exact .inl ⟨entry.1, entry.2, (history.lists.find?_eq_some_iff _ _).mpr listed, lookup, .inl reached,
          fun other there le => largest other there (le.resolve_right now)⟩
      | none =>
        rw [found] at spec lookup
        exact .inr ⟨lookup, fun entry listed => ⟨spec entry listed, now⟩⟩

theorem write_cases {stopId : Nat} (asserted : stopId ≠ eStopIDNow) :
    ∃ list, (history.getSectionLoadListForStopID stopId false).1 = stopId ∧
      (history.getSectionLoadListForStopID stopId false).2.lists.find? stopId = some list ∧
      (∀ other ≠ stopId, (history.getSectionLoadListForStopID stopId false).2.lists.find? other =
        history.lists.find? other) ∧
      (history.lists.find? stopId = some list ∨ history.lists.find? stopId = none ∧
        (list = .empty ∧ history.lists.entries = [] ∨
          ∃ key, history.lists.find? key = some list ∧ ∀ entry ∈ history.lists.entries, entry.1 ≤ key)) := by
  unfold getSectionLoadListForStopID
  simp only [history.lists.any_lowerBound]
  cases final : history.lists.entries.getLast? with
  | none =>
    have none_ := getLast?_eq_none_iff.mp final
    have absent : history.lists.find? stopId = none := by simp [OrderedMap.find?, none_]
    simp only [insertEmpty, if_neg asserted]
    exact ⟨.empty, trivial, history.lists.find?_insert_self _ _,
      fun other ne => history.lists.find?_insert_of_ne _ ne, .inr ⟨absent, .inl ⟨rfl, none_⟩⟩⟩
  | some last =>
    cases found : history.lists.find? stopId with
    | some list => exact ⟨list, rfl, found, fun _ _ => rfl, .inl rfl⟩
    | none =>
      have member := mem_of_getLast? final
      exact ⟨last.2, rfl, history.lists.find?_insert_self _ _, fun other ne => history.lists.find?_insert_of_ne _ ne,
        .inr ⟨rfl, .inr ⟨last.1, (history.lists.find?_eq_some_iff _ _).mpr member,
          OrderedMap.le_last_of_sorted history.lists.sorted final⟩⟩⟩

omit history

/-- Every list is the view of the log at its stop, each write has a list at its stop, and no list is of a
stop beyond one that is still to be written at. -/
structure Simulates (history : SectionLoadHistory) (log rest : Log) : Prop where
  kept : ∀ key list, history.lists.find? key = some list → list = view log key
  keyed : ∀ write ∈ log, ∃ list, history.lists.find? write.1 = some list
  below : ∀ key list, history.lists.find? key = some list → ∀ write ∈ rest, key ≤ write.1

theorem Simulates.read {history : SectionLoadHistory} {log rest : Log} (simulates : Simulates history log rest)
    {stopId : Nat} (asserted : ∀ write ∈ log, write.1 < eStopIDNow)
    (timely : log = [] → stopId = eStopIDNow ∨ ∀ write ∈ rest, stopId ≤ write.1) :
    (history.getSectionLoadListForStopID stopId true).2.listAt
        (history.getSectionLoadListForStopID stopId true).1 = view log stopId ∧
      Simulates (history.getSectionLoadListForStopID stopId true).2 log rest := by
  rcases history.read_cases stopId with ⟨key, list, found, same, reached, largest⟩ | ⟨same, later⟩
  · rw [same, listAt, found, simulates.kept key list found]
    refine ⟨view_congr fun write member => ?_, simulates⟩
    have small := asserted write member
    obtain ⟨held, there⟩ := simulates.keyed write member
    have most := largest _ ((history.lists.find?_eq_some_iff _ _).mp there)
    rcases reached with reached | rfl
    · exact ⟨fun le => le.trans reached, fun le => most (.inl le)⟩
    · exact ⟨fun _ => small.le, fun _ => most (.inr rfl)⟩
  · have after (write : Nat × SectionLoadList.Call) (member : write ∈ log) : stopId < write.1 ∧ stopId ≠ eStopIDNow := by
      obtain ⟨held, there⟩ := simulates.keyed write member
      exact later _ ((history.lists.find?_eq_some_iff _ _).mp there)
    have early : ∀ write ∈ log, (if stopId = eStopIDNow then 0 else stopId) < write.1 := by
      intro write member
      rw [if_neg (after write member).2]
      exact (after write member).1
    rw [same, insertEmpty, listAt, history.lists.find?_insert_self]
    refine ⟨(view_none fun write member => (after write member).1).symm, ?_⟩
    refine ⟨fun key list found => ?_, fun write member => ?_, fun key list found write member => ?_⟩
    · by_cases here : key = if stopId = eStopIDNow then 0 else stopId
      · rw [here, history.lists.find?_insert_self] at found
        rw [here, view_none early]
        exact (Option.some.inj found).symm
      · rw [history.lists.find?_insert_of_ne _ here] at found
        exact simulates.kept key list found
    · rw [history.lists.find?_insert_of_ne _ (early write member).ne']
      exact simulates.keyed write member
    · by_cases here : key = if stopId = eStopIDNow then 0 else stopId
      · rw [here]
        split_ifs with now
        · exact Nat.zero_le _
        · cases log with
          | nil => exact (timely rfl).resolve_left now write member
          | cons first others =>
            obtain ⟨held, there⟩ := simulates.keyed first mem_cons_self
            exact (after first mem_cons_self).1.le.trans (simulates.below _ held there write member)
      · rw [history.lists.find?_insert_of_ne _ here] at found
        exact simulates.below key list found write member

theorem Simulates.write {history : SectionLoadHistory} {log rest : Log} {stopId : Nat} {call : SectionLoadList.Call}
    (simulates : Simulates history log ((stopId, call) :: rest)) (asserted : stopId ≠ eStopIDNow)
    (before : ∀ write ∈ log, write.1 ≤ stopId) (later : ∀ write ∈ rest, stopId ≤ write.1) :
    (history.getSectionLoadListForStopID stopId false).2.listAt
        (history.getSectionLoadListForStopID stopId false).1 = view log stopId ∧
      Simulates ⟨(history.getSectionLoadListForStopID stopId false).2.lists.insert
        (history.getSectionLoadListForStopID stopId false).1 ((view log stopId).after call)⟩
        (log ++ [(stopId, call)]) rest := by
  obtain ⟨list, key, found, frame, source⟩ := history.write_cases asserted
  generalize history.getSectionLoadListForStopID stopId false = result at key found frame ⊢
  obtain ⟨result, next⟩ := result
  subst key
  have current : list = view log result := by
    rcases source with held | ⟨-, ⟨rfl, none_⟩ | ⟨last, held, largest⟩⟩
    · exact simulates.kept result list held
    · refine (view_none fun write member => ?_).symm
      obtain ⟨value, there⟩ := simulates.keyed write member
      rw [OrderedMap.find?_eq_some_iff, none_] at there
      cases there
    · rw [simulates.kept last list held]
      refine view_congr fun write member => ?_
      obtain ⟨value, there⟩ := simulates.keyed write member
      have most := largest _ ((history.lists.find?_eq_some_iff _ _).mp there)
      exact iff_of_true most (before write member)
  have old (key : Nat) (value : SectionLoadList) (other : key ≠ result)
      (there : (next.lists.insert result ((view log result).after call)).find? key = some value) :
      history.lists.find? key = some value := by
    rwa [next.lists.find?_insert_of_ne _ other, frame key other] at there
  rw [listAt, found]
  refine ⟨current, fun key value there => ?_, fun write member => ?_, fun key value there write member => ?_⟩
  · by_cases here : key = result
    · subst here
      rw [next.lists.find?_insert_self] at there
      rw [view_append, if_pos le_rfl]
      exact (Option.some.inj there).symm
    · have held := old key value here there
      have early := simulates.below key value held _ mem_cons_self
      rw [view_append, if_neg fun reached => here (le_antisymm early reached)]
      exact simulates.kept key value held
  · by_cases here : write.1 = result
    · exact ⟨_, by rw [here, next.lists.find?_insert_self]⟩
    · have earlier : write ∈ log := by
        rcases mem_append.mp member with earlier | same
        · exact earlier
        · cases mem_singleton.mp same
          exact absurd rfl here
      obtain ⟨value, there⟩ := simulates.keyed write earlier
      exact ⟨value, by rw [next.lists.find?_insert_of_ne _ here, frame _ here, there]⟩
  · by_cases here : key = result
    · exact here ▸ later write member
    · exact simulates.below key value (old key value here there) write (.tail _ member)

/-- Every read in front of the first write is of the present, or of a stop up to those of the writes. -/
def Timely : List Call → Prop
  | [] => True
  | .read read :: rest => (read.stopId = eStopIDNow ∨ ∀ write ∈ writes rest, read.stopId ≤ write.1) ∧ Timely rest
  | .write _ _ :: _ => True

theorem Simulates.results_eq {history : SectionLoadHistory} {log : Log} {calls : List Call}
    (simulates : Simulates history log (writes calls))
    (ordered : (log ++ writes calls).Pairwise fun first second => first.1 ≤ second.1)
    (asserted : ∀ write ∈ log ++ writes calls, write.1 < eStopIDNow) (timely : log = [] → Timely calls) :
    history.results calls = logged log calls := by
  induction calls generalizing history log with
  | nil => rfl
  | cons call rest ih =>
    cases call with
    | read read =>
      obtain ⟨found, next⟩ := simulates.read (fun write member => asserted write (mem_append_left _ member))
        fun none_ => (timely none_).1
      rw [results, perform_read, found]
      exact congrArg _ (ih next ordered asserted fun none_ => (timely none_).2)
    | write stopId call =>
      have tail : writes (.write stopId call :: rest) = (stopId, call) :: writes rest := rfl
      rw [tail] at simulates ordered asserted
      have middle := pairwise_append.mp ordered
      have small := asserted (stopId, call) (mem_append_right _ mem_cons_self)
      obtain ⟨found, next⟩ := simulates.write small.ne
        (fun write member => middle.2.2 write member _ mem_cons_self) (pairwise_cons.mp middle.2.1).1
      rw [results, perform_write, found]
      rw [append_cons] at ordered asserted
      have some_ : log ++ [(stopId, call)] ≠ [] := append_ne_nil_of_right_ne_nil _ (cons_ne_nil _ _)
      exact congrArg _ (ih next ordered asserted fun none_ => absurd none_ some_)

theorem empty_simulates (rest : Log) : Simulates empty [] rest := ⟨nofun, nofun, nofun⟩

theorem logged_eraseIdx (log : Log) (front back : List Call) (read : Read) :
    logged log (front ++ back) = (logged log (front ++ .read read :: back)).eraseIdx front.length := by
  induction front generalizing log with
  | nil => rfl
  | cons call front ih =>
    cases call with
    | read other => exact congrArg _ (ih log)
    | write stopId call => exact congrArg _ (ih _)

theorem writes_append (front back : List Call) : writes (front ++ back) = writes front ++ writes back :=
  filterMap_append

theorem Timely.erase {front back : List Call} {read : Read} (timely : Timely (front ++ .read read :: back)) :
    Timely (front ++ back) := by
  induction front with
  | nil => exact timely.2
  | cons call front ih =>
    cases call with
    | read other =>
      rw [cons_append, Timely, writes_append] at timely
      rw [cons_append, Timely, writes_append]
      exact ⟨timely.1, ih timely.2⟩
    | write stopId call => trivial

/-- The history answers as the log of its writes does, and as it would without any of its reads. -/
structure Versioned (calls : List Call) : Prop where
  logged : empty.results calls = logged [] calls
  unread : ∀ front read back, calls = front ++ .read read :: back →
    empty.results (front ++ back) = (empty.results calls).eraseIdx front.length

/-- With writes at stops that never go back, and no read of a stop beyond the first write before it is
made, the history is a store of versions. -/
theorem versioned_of_timely (calls : List Call)
    (ordered : (writes calls).Pairwise fun first second => first.1 ≤ second.1)
    (asserted : ∀ write ∈ writes calls, write.1 < eStopIDNow) (timely : Timely calls) : Versioned calls := by
  have all : empty.results calls = SectionLoadHistory.logged [] calls :=
    (empty_simulates (writes calls)).results_eq ordered asserted fun _ => timely
  refine ⟨all, ?_⟩
  rintro front read back rfl
  have same : writes (front ++ .read read :: back) = writes (front ++ back) := by
    rw [writes_append, writes_append]
    rfl
  rw [same] at ordered asserted
  rw [all, ← logged_eraseIdx]
  exact (empty_simulates (writes (front ++ back))).results_eq ordered asserted fun _ => timely.erase

theorem versioned_of_timely_reload : Versioned [.read (.getSectionLoadAddress 2 (SectionLoadList.page 1)),
      .write 3 (.setSectionLoadAddress (SectionLoadList.page 1) 0x4000), .read .getCurrentSectionLoadList] :=
  versioned_of_timely _ (by decide) (by decide) ⟨.inr (by decide), trivial⟩

/-- A read of the fifth stop hides the write at the third one. -/
theorem early_read_not_versioned : ¬ Versioned
    [.read (.resolveLoadAddress 5 0x4000), .write 3 (.setSectionLoadAddress (SectionLoadList.page 1) 0x4000),
      .read (.getSectionLoadAddress eStopIDNow (SectionLoadList.page 1))] := by
  intro versioned
  have last := congrArg (fun results => results[2]?) versioned.logged
  cases last

end SectionLoadHistory

end Lldb
