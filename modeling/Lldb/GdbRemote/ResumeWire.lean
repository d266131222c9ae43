import Lldb.GdbRemote.Resume

/-! Resume requests across the wire: what the server makes of the packet for a server that
knows every `vCont` action, and which requests get a packet where it knows none.
-/

set_option autoImplicit false

namespace Lldb.Resume

open GdbRemote Request List

/-- The state and the signal that a request asks for; a suspended thread gets no action. -/
def Request.action : Request → Option (StateType × Int)
  | .suspend => none
  | .continue => some (.running, 0)
  | .continueWithSignal signo => some (.running, signo)
  | .step => some (.stepping, 0)
  | .stepWithSignal signo => some (.stepping, signo)

def Request.Bounded : Request → Prop
  | .continueWithSignal signo | .stepWithSignal signo => 0 < signo ∧ signo < 2 ^ 8
  | _ => True

abbrev Printed := Bytes × ResumeAction

def ContinueLists.printed (lists : ContinueLists) : List Printed :=
  lists.cTids.map (fun tid => (threadAction 0x63 tid, ⟨tid, .running, 0⟩)) ++
  lists.CTids.map (fun thread => (threadSignalAction 0x43 thread, ⟨thread.1, .running, thread.2⟩)) ++
  lists.sTids.map (fun tid => (threadAction 0x73 tid, ⟨tid, .stepping, 0⟩)) ++
  lists.STids.map (fun thread => (threadSignalAction 0x53 thread, ⟨thread.1, .stepping, thread.2⟩))

def allVCont : VContSupport := ⟨true, true, true, true⟩
def noVCont : VContSupport := ⟨false, false, false, false⟩

theorem vContActions_supported {packet : ContinuePacket} (made : packet.error = false) (actions : List Bytes) :
    vContActions true actions packet = { packet with text := packet.text ++ actions.flatten } := by
  unfold vContActions
  cases actions with
  | nil => simp
  | cons action actions => simp [made]

theorem vContPacket_all (lists : ContinueLists) :
    vContPacket allVCont lists = ⟨ascii "vCont" ++ lists.printed.flatMap (·.1), false, none⟩ := by
  simp [vContPacket, allVCont, vContActions_supported, ContinueLists.printed, flatMap_def, Function.comp_def]

/-! Parsing what was printed. -/

/-- The server takes the action from the text, whatever follows that is no hex digit. -/
def Parses (item : Printed) : Prop :=
  ∃ fields, item.1 = semicolon :: fields ∧ ∀ rest, NoDigitFirst rest →
    parseAction (some (fields ++ rest)) = .ok (item.2, some rest)

variable {tid : Nat} {items : List Printed} {threads : List Nat} {request : Nat → Request} {common : Request}

theorem parses_threadAction {letter : UInt8} {state : StateType}
    (kind : letter = 0x63 ∧ state = .running ∨ letter = 0x73 ∧ state = .stepping)
    (known : 0 < tid) (bounded : tid < 2 ^ 32) : Parses (threadAction letter tid, ⟨tid, state, 0⟩) := by
  refine ⟨letter :: colon :: hexText 4 tid, rfl, fun rest stop => ?_⟩
  have readTid := StringExtractor.getHexMaxU32_hexText 0 (show 0 < 4 by decide) (by decide) bounded stop
  have kindRead : parseKind (some (letter :: colon :: (hexText 4 tid ++ rest))) =
      .ok (state, 0, some (colon :: (hexText 4 tid ++ rest))) := by
    rcases kind with ⟨rfl, rfl⟩ | ⟨rfl, rfl⟩ <;> simp [parseKind, StringExtractor.getChar]
  rw [cons_append, cons_append, parseAction, kindRead]
  simp [bind, Except.bind, readTid, pos_iff_ne_zero.mp known]

theorem parses_threadSignalAction {letter : UInt8} {state : StateType}
    (kind : letter = 0x43 ∧ state = .running ∨ letter = 0x53 ∧ state = .stepping) {signo : Nat}
    (known : 0 < tid) (bounded : tid < 2 ^ 32) (signal : 0 < signo ∧ signo < 2 ^ 8) :
    Parses (threadSignalAction letter (tid, signo), ⟨tid, state, signo⟩) := by
  refine ⟨letter :: (hexText 2 signo ++ colon :: hexText 4 tid), rfl, fun rest stop => ?_⟩
  have readTid := StringExtractor.getHexMaxU32_hexText 0 (show 0 < 4 by decide) (by decide) bounded stop
  have colonStops : NoDigitFirst (colon :: (hexText 4 tid ++ rest)) := by
    rintro c ⟨⟩
    decide
  have readSigno := StringExtractor.getHexMaxU32_hexText 0 (show 0 < 2 by decide) (by decide)
    (show signo < 2 ^ 32 by omega) colonStops
  have kindRead : parseKind (some (letter :: (hexText 2 signo ++ colon :: (hexText 4 tid ++ rest)))) =
      .ok (state, (signo : Int), some (colon :: (hexText 4 tid ++ rest))) := by
    have signed : toInt32 signo = signo := if_pos (by omega)
    have nonzero : signo ≠ 0 := by omega
    rcases kind with ⟨rfl, rfl⟩ | ⟨rfl, rfl⟩ <;>
      simp [parseKind, StringExtractor.getChar, readSigno, signed, nonzero]
  rw [cons_append, append_assoc, cons_append, parseAction, kindRead]
  simp [bind, Except.bind, readTid, pos_iff_ne_zero.mp known]

theorem noDigitFirst_printed (parses : ∀ item ∈ items, Parses item) : NoDigitFirst (items.flatMap (·.1)) := by
  cases items with
  | nil => nofun
  | cons item items =>
    obtain ⟨fields, text, -⟩ := parses item mem_cons_self
    rw [flatMap_cons, text]
    rintro c ⟨⟩
    decide

theorem parseActions_printed (parses : ∀ item ∈ items, Parses item) {fuel : Nat}
    (enough : items.length ≤ fuel) (actions : ResumeActionList) :
    parseActions fuel actions (some (items.flatMap (·.1))) = .ok (actions ++ items.map (·.2)) := by
  induction items generalizing fuel actions with
  | nil => cases fuel <;> simp [parseActions]
  | cons item items ih =>
    obtain ⟨fuel, rfl⟩ : ∃ less, fuel = less + 1 := ⟨fuel - 1, by rw [length_cons] at enough; omega⟩
    have others : ∀ other ∈ items, Parses other := fun other member => parses other (mem_cons_of_mem item member)
    obtain ⟨fields, text, parsed⟩ := parses item mem_cons_self
    have next := ih others (Nat.le_of_succ_le_succ enough) (actions ++ [item.2])
    rw [flatMap_cons, text, cons_append, parseActions, parsed _ (noDigitFirst_printed others)]
    simpa [bind, Except.bind] using next

theorem length_le_printed (parses : ∀ item ∈ items, Parses item) : items.length ≤ (items.flatMap (·.1)).length := by
  induction items with
  | nil => exact Nat.zero_le _
  | cons item items ih =>
    have others := ih fun other member => parses other (mem_cons_of_mem item member)
    obtain ⟨fields, text, -⟩ := parses item mem_cons_self
    rw [flatMap_cons, text, length_cons, length_append, length_cons]
    omega

/-! The lists, and the actions they ask for. -/

def Request.printed (tid : Nat) : Request → Option Printed
  | .suspend => none
  | .continue => some (threadAction 0x63 tid, ⟨tid, .running, 0⟩)
  | .continueWithSignal signo => some (threadSignalAction 0x43 (tid, signo), ⟨tid, .running, signo⟩)
  | .step => some (threadAction 0x73 tid, ⟨tid, .stepping, 0⟩)
  | .stepWithSignal signo => some (threadSignalAction 0x53 (tid, signo), ⟨tid, .stepping, signo⟩)

theorem Request.printed_action (tid : Nat) (request : Request) :
    (request.printed tid).map (·.2) = request.action.map fun action => ⟨tid, action.1, action.2⟩ := by
  cases request <;> rfl

theorem Request.parses (known : 0 < tid) (bounded : tid < 2 ^ 32) {request : Request}
    (signal : request.Bounded) {item : Printed} (printed : request.printed tid = some item) : Parses item := by
  cases request with
  | suspend => cases printed
  | «continue» => cases printed; exact parses_threadAction (.inl ⟨rfl, rfl⟩) known bounded
  | continueWithSignal signo =>
      cases printed; exact parses_threadSignalAction (.inl ⟨rfl, rfl⟩) known bounded signal
  | step => cases printed; exact parses_threadAction (.inr ⟨rfl, rfl⟩) known bounded
  | stepWithSignal signo =>
      cases printed; exact parses_threadSignalAction (.inr ⟨rfl, rfl⟩) known bounded signal

/-- No text for an action is one of the two that `Handle_vCont` takes for a whole packet. -/
theorem Request.printed_not_short {request : Request} {item : Printed}
    (printed : request.printed tid = some item) (rest : Bytes) :
    cString (item.1 ++ rest) ≠ ascii ";c" ∧ cString (item.1 ++ rest) ≠ ascii ";s" := by
  cases request <;> cases printed <;>
    simp [cString, ascii, threadAction, threadSignalAction, semicolon, colon]

theorem mem_printed_willResume (lists : ContinueLists) (tid : Nat) (request : Request) (item : Printed) :
    item ∈ (lists.willResume tid request).printed ↔ item ∈ lists.printed ∨ request.printed tid = some item := by
  cases request <;> simp [ContinueLists.willResume, ContinueLists.printed, printed] <;> grind

theorem mem_printed (threads : List Nat) (request : Nat → Request) (item : Printed) :
    item ∈ (continueLists threads request).printed ↔ ∃ tid ∈ threads, (request tid).printed tid = some item := by
  have run : ∀ lists : ContinueLists, item ∈ (threads.foldl (fun lists tid =>
      lists.willResume tid (request tid)) lists).printed ↔
        item ∈ lists.printed ∨ ∃ tid ∈ threads, (request tid).printed tid = some item := by
    induction threads with
    | nil => simp
    | cons tid threads ih =>
      intro lists
      rw [foldl_cons, ih, mem_printed_willResume, or_assoc]
      simp
  rw [continueLists, run]
  simp [ContinueLists.printed]

def Assigns (threads : List Nat) (request : Nat → Request) (actions : ResumeActionList) : Prop :=
  ∀ tid ∈ threads, (actions.getActionForThread tid true).map (fun action => (action.state, action.signal)) =
    (request tid).action

theorem assigns_printed (known : ∀ tid ∈ threads, 0 < tid) (request : Nat → Request) :
    Assigns threads request ((continueLists threads request).printed.map (·.2)) := by
  intro tid member
  -- An action on the list is for a thread of the process and asks for what was requested.
  have asked : ∀ action ∈ (continueLists threads request).printed.map (·.2), action.tid ∈ threads ∧
      (request action.tid).action = some (action.state, action.signal) := by
    intro action listed
    obtain ⟨item, itemListed, rfl⟩ := mem_map.mp listed
    obtain ⟨owner, inside, printed⟩ := (mem_printed threads request item).mp itemListed
    have same := (request owner).printed_action owner
    rw [printed, Option.map_some] at same
    obtain ⟨action, found, made⟩ := Option.map_eq_some_iff.mp same.symm
    rw [← made]
    exact ⟨inside, found⟩
  unfold ResumeActionList.getActionForThread
  split
  · next action found =>
    have owner : action.tid = tid := by simpa using find?_some found
    simp [← owner, (asked action (mem_of_find?_eq_some found)).2]
  · next missing =>
    have noDefault : ((continueLists threads request).printed.map (·.2)).find?
        (fun action => action.tid = 0) = none := by
      rw [find?_eq_none]
      intro action listed unnamed
      have positive := known action.tid (asked action listed).1
      rw [decide_eq_true_eq] at unnamed
      omega
    rw [noDefault, ite_self]
    cases wanted : (request tid).action with
    | none => rfl
    | some action =>
      have same := (request tid).printed_action tid
      rw [wanted] at same
      obtain ⟨item, printed, made⟩ := Option.map_eq_some_iff.mp same
      have listed := mem_map_of_mem (f := (·.2)) ((mem_printed threads request item).mpr ⟨tid, member, printed⟩)
      rw [find?_eq_none] at missing
      exact absurd (by rw [made]; simp) (missing _ listed)

/-! With every `vCont` action supported. -/

/-- Threads and requests as the protocol can carry them, with a thread to resume. -/
structure Resumable (threads : List Nat) (request : Nat → Request) : Prop where
  ids : ∀ tid ∈ threads, 0 < tid ∧ tid < 2 ^ 31
  signals : ∀ tid ∈ threads, (request tid).Bounded
  some : ∃ tid ∈ threads, request tid ≠ .suspend

def RunsAsRequested (threads : List Nat) (request : Nat → Request) : Prop :=
  ∀ server, ∃ resume actions, doResume allVCont false threads request = .ok resume ∧
    handleResume (some server) resume.packet = .ok actions ∧ Assigns threads request actions

theorem cTids_eq (threads : List Nat) (request : Nat → Request) :
    (continueLists threads request).cTids = threads.filter fun tid => request tid = .continue := by
  have run : ∀ lists : ContinueLists, (threads.foldl (fun lists tid =>
      lists.willResume tid (request tid)) lists).cTids =
        lists.cTids ++ threads.filter fun tid => request tid = .continue := by
    induction threads with
    | nil => simp
    | cons tid threads ih =>
      intro lists
      rw [foldl_cons, ih]
      cases asked : request tid <;> simp [ContinueLists.willResume, asked]
  rw [continueLists, run, nil_append]

theorem runs_as_requested (resumable : Resumable threads request) : RunsAsRequested threads request := by
  intro server
  have known : ∀ tid ∈ threads, 0 < tid := fun tid member => (resumable.ids tid member).1
  obtain ⟨resumed, inside, asked⟩ := resumable.some
  have printed : (continueLists threads request).printed ≠ [] := by
    obtain ⟨item, found⟩ : ∃ item, (request resumed).printed resumed = some item := by
      cases wanted : request resumed <;> simp [printed, wanted] at asked ⊢
    exact ne_nil_of_mem ((mem_printed threads request item).mpr ⟨resumed, inside, found⟩)
  by_cases all : (continueLists threads request).cTids.length = threads.length
  · refine ⟨⟨ascii "c", none⟩, [⟨0, .running, 0⟩], ?_, rfl, ?_⟩
    · simp [doResume, continuePacket, packetWithVCont, allVCont, VContSupport.any, all]
    · rw [cTids_eq, length_filter_eq_length_iff] at all
      intro tid member
      have continues : request tid = .continue := by simpa using all tid member
      have positive : 0 ≠ tid := (known tid member).ne
      simp [ResumeActionList.getActionForThread, positive, positive.symm, continues, action]
  · have packet : doResume allVCont false threads request =
        .ok ⟨ascii "vCont" ++ (continueLists threads request).printed.flatMap (·.1), none⟩ := by
      have supported : allVCont.any = true := rfl
      have someListed : ¬ ((continueLists threads request).cTids = [] ∧ (continueLists threads request).CTids = [] ∧
          (continueLists threads request).sTids = [] ∧ (continueLists threads request).STids = []) := by
        rintro ⟨c, C, s, S⟩
        exact printed (by simp [ContinueLists.printed, c, C, s, S])
      simp [doResume, continuePacket, packetWithVCont, supported, all, someListed, vContPacket_all]
    have parses : ∀ item ∈ (continueLists threads request).printed, Parses item := by
      intro item listed
      obtain ⟨tid, member, made⟩ := (mem_printed threads request item).mp listed
      have bounds := resumable.ids tid member
      exact parses bounds.1 (by omega) (resumable.signals tid member) made
    obtain ⟨first, others, split⟩ := exists_cons_of_ne_nil printed
    have short : ∀ rest, cString (first.1 ++ rest) ≠ ascii ";c" ∧ cString (first.1 ++ rest) ≠ ascii ";s" := by
      obtain ⟨tid, -, made⟩ := (mem_printed threads request first).mp (by rw [split]; exact mem_cons_self)
      exact printed_not_short made
    have someText : (continueLists threads request).printed.flatMap (·.1) ≠ [] := by
      have longer := length_le_printed parses
      intro empty
      rw [empty, length_nil, split, length_cons] at longer
      omega
    refine ⟨_, _, packet, ?_, assigns_printed known request⟩
    have parsed := parseActions_printed parses (length_le_printed parses) []
    have text : (ascii "vCont" ++ (continueLists threads request).printed.flatMap (·.1)).drop 5 =
        (continueLists threads request).printed.flatMap (·.1) := rfl
    have noDot : (ascii "vCont" ++ (continueLists threads request).printed.flatMap (·.1)).head? ≠ some 0x63 := by
      simp [ascii]
    have notC := (short (others.flatMap (·.1))).1
    have notS := (short (others.flatMap (·.1))).2
    rw [← flatMap_cons, ← split] at notC notS
    rw [handleResume, if_neg noDot, handleVCont, text]
    simp only [someText, notC, notS, if_false]
    rw [parsed, nil_append]

/-! Without any `vCont` support. -/

/-- The lists when the threads `tids` are all asked the same. -/
def uniformLists (tids : List Nat) : Request → ContinueLists
  | .suspend => ⟨[], [], [], []⟩
  | .continue => ⟨tids, [], [], []⟩
  | .continueWithSignal signo => ⟨[], tids.map fun tid => (tid, signo), [], []⟩
  | .step => ⟨[], [], tids, []⟩
  | .stepWithSignal signo => ⟨[], [], [], tids.map fun tid => (tid, signo)⟩

def resumedThreads (threads : List Nat) (request : Nat → Request) : List Nat :=
  threads.filter fun tid => request tid ≠ .suspend

theorem continueLists_resumed (threads : List Nat) (request : Nat → Request) :
    continueLists threads request = continueLists (resumedThreads threads request) request := by
  have run : ∀ lists : ContinueLists,
      threads.foldl (fun lists tid => lists.willResume tid (request tid)) lists =
        (resumedThreads threads request).foldl (fun lists tid => lists.willResume tid (request tid)) lists := by
    induction threads with
    | nil => intro lists; rfl
    | cons tid threads ih =>
      intro lists
      rw [foldl_cons, ih]
      cases asked : request tid <;> simp [resumedThreads, asked, ContinueLists.willResume]
  exact run _

theorem continueLists_uniform {tids : List Nat}
    (same : ∀ tid ∈ tids, request tid = common) : continueLists tids request = uniformLists tids common := by
  induction tids using reverseRecOn with
  | nil => cases common <;> rfl
  | append_singleton tids tid ih =>
    have front := ih fun other member => same other (mem_append_left [tid] member)
    have last := same tid (mem_append_right tids (mem_singleton_self tid))
    rw [continueLists, foldl_append, foldl_cons, last, ← continueLists, front]
    cases common <;> simp [ContinueLists.willResume, uniformLists]

def Request.simpleText : Request → Bytes
  | .suspend => []
  | .continue => ascii "c"
  | .continueWithSignal signo => ascii "C" ++ hexText 2 signo
  | .step => ascii "s"
  | .stepWithSignal signo => ascii "S" ++ hexText 2 signo

theorem doResume_noVCont {tids : List Nat}
    (resumed : resumedThreads threads request = tids) (same : ∀ tid ∈ tids, request tid = common) :
    doResume noVCont false threads request =
      let packet := simplePacket noVCont false threads.length (uniformLists tids common) ⟨[], true, none⟩
      if packet.error then .error (ascii "can't make continue packet for this resume")
      else .ok ⟨packet.text, packet.selected⟩ := by
  have unsupported : noVCont.any = false := rfl
  rw [doResume, continueLists_resumed, resumed, continueLists_uniform same]
  simp [continuePacket, packetWithVCont, unsupported]

/-- The packet for a server without `vCont` where only `first :: others` resume, all alike, and are
one thread or all: a step with a signal gets none, nor does one of several threads with a signal. -/
theorem simplePacket_uniform {numThreads first : Nat} {others : List Nat} (common : Request)
    (simple : others = [] ∨ others.length + 1 = numThreads) :
    simplePacket noVCont false numThreads (uniformLists (first :: others) common) ⟨[], true, none⟩ = match common with
      | .continue | .step => ⟨common.simpleText, false,
          some (if others.length + 1 = numThreads then .all else .thread first)⟩
      | .continueWithSignal _ =>
          if others.length + 1 = numThreads then
            ⟨common.simpleText, false, some (if others = [] then .thread first else .all)⟩
          else ⟨[], true, none⟩
      | _ => ⟨[], true, none⟩ := by
  cases common with
  | suspend => rfl
  | «continue» =>
    by_cases whole : others.length + 1 = numThreads
    · simp [uniformLists, simplePacket, simpleContinue, simpleContinueWithSignal, simpleStep,
        simpleStepWithSignal, whole, simpleText]
    · rw [simple.resolve_right whole, length_nil] at *
      simp [uniformLists, simplePacket, simpleContinue, simpleContinueWithSignal, simpleStep,
        simpleStepWithSignal, whole, simpleText]
  | continueWithSignal signo =>
    by_cases whole : others.length + 1 = numThreads
    · by_cases single : others = []
      · rw [single] at *
        simp [uniformLists, simplePacket, simpleContinue, simpleContinueWithSignal, simpleStep,
          simpleStepWithSignal, simpleText]
      · simp [uniformLists, simplePacket, simpleContinue, simpleContinueWithSignal, simpleStep,
          simpleStepWithSignal, single, simpleText]
    · simp [uniformLists, simplePacket, simpleContinue, simpleContinueWithSignal, simpleStep,
        simpleStepWithSignal, whole]
  | step =>
    by_cases whole : others.length + 1 = numThreads
    · simp [uniformLists, simplePacket, simpleContinue, simpleContinueWithSignal, simpleStep,
        simpleStepWithSignal, whole, simpleText]
    · rw [simple.resolve_right whole, length_nil] at *
      simp [uniformLists, simplePacket, simpleContinue, simpleContinueWithSignal, simpleStep,
        simpleStepWithSignal, whole, simpleText]
  | stepWithSignal signo =>
    simp [uniformLists, simplePacket, simpleContinue, simpleContinueWithSignal, simpleStep, simpleStepWithSignal]

def Selects (threads : List Nat) (request : Nat → Request) (common : Request) : RunThread → Prop
  | .all => ∀ tid ∈ threads, request tid = common
  | .thread tid => resumedThreads threads request = [tid]

/-- Where one thread resumes, or all alike, the packet that says so is made for the right threads. -/
def ResumesSimply (threads : List Nat) (request : Nat → Request) : Prop :=
  ∀ common ≠ .suspend, ((∃ tid, resumedThreads threads request = [tid] ∧ request tid = common) ∨
      ∀ tid ∈ threads, request tid = common) →
    ∃ selected, doResume noVCont false threads request = .ok ⟨common.simpleText, some selected⟩ ∧
      Selects threads request common selected

/-- No thread steps with a signal alone, or all with the same one, and none of several threads
continues with a signal alone. -/
def SimplyMade (threads : List Nat) (request : Nat → Request) : Prop :=
  (∀ tid signo, resumedThreads threads request = [tid] → request tid ≠ .stepWithSignal signo) ∧
  (∀ signo, ¬ ∀ tid ∈ threads, request tid = .stepWithSignal signo) ∧
  ∀ tid signo, resumedThreads threads request = [tid] → request tid = .continueWithSignal signo → threads = [tid]

theorem resumed_eq_of_length (whole : (resumedThreads threads request).length = threads.length) :
    resumedThreads threads request = threads := filter_sublist.eq_of_length whole

theorem resumed_eq_of_same (resumes : common ≠ .suspend) (same : ∀ tid ∈ threads, request tid = common) :
    resumedThreads threads request = threads := by
  rw [resumedThreads, filter_eq_self]
  intro tid member
  simp [same tid member, resumes]

theorem simple_cases (resumable : Resumable threads request) (resumes : common ≠ .suspend)
    (simple : (∃ tid, resumedThreads threads request = [tid] ∧ request tid = common) ∨
      ∀ tid ∈ threads, request tid = common) :
    ∃ first others, resumedThreads threads request = first :: others ∧ (∀ tid ∈ first :: others, request tid = common) ∧
      (others = [] ∨ others.length + 1 = threads.length) := by
  rcases simple with ⟨tid, resumed, asked⟩ | same
  · exact ⟨tid, [], resumed, by simpa using asked, .inl rfl⟩
  · obtain ⟨tid, member, -⟩ := resumable.some
    obtain ⟨first, others, split⟩ := exists_cons_of_ne_nil (ne_nil_of_mem member)
    have resumed := resumed_eq_of_same resumes same
    rw [split] at resumed same
    exact ⟨first, others, split ▸ resumed, same, .inr (by rw [split, length_cons])⟩

theorem resumes_simply_iff (resumable : Resumable threads request) :
    ResumesSimply threads request ↔ SimplyMade threads request := by
  constructor
  · intro resumes
    have notSuspend : ∀ signo, stepWithSignal signo ≠ .suspend := fun _ => by simp
    have noStep : ∀ signo, ¬ ((∃ tid, resumedThreads threads request = [tid] ∧
        request tid = .stepWithSignal signo) ∨ ∀ tid ∈ threads, request tid = .stepWithSignal signo) := by
      intro signo simple
      obtain ⟨selected, made, -⟩ := resumes (.stepWithSignal signo) (notSuspend signo) simple
      obtain ⟨first, others, resumed, same, few⟩ := simple_cases resumable (notSuspend signo) simple
      rw [doResume_noVCont resumed same] at made
      cases made
    refine ⟨fun tid signo resumed asked => noStep signo (.inl ⟨tid, resumed, asked⟩),
      fun signo same => noStep signo (.inr same), fun tid signo resumed asked => ?_⟩
    obtain ⟨selected, made, -⟩ := resumes (.continueWithSignal signo) nofun (.inl ⟨tid, resumed, asked⟩)
    rw [doResume_noVCont resumed (by simpa using asked), simplePacket_uniform _ (.inl rfl)] at made
    by_cases whole : ([] : List Nat).length + 1 = threads.length
    · rw [← resumed]
      exact (resumed_eq_of_length (by rw [resumed]; exact whole)).symm
    · simp only [whole] at made
      cases made
  · rintro ⟨noStepAlone, noStepAll, noSignalAlone⟩ common resumes simple
    obtain ⟨first, others, resumed, same, few⟩ := simple_cases resumable resumes simple
    rw [doResume_noVCont resumed same, simplePacket_uniform _ few]
    -- As many threads resume as there are: all of them do.
    have all : others.length + 1 = threads.length → ∀ tid ∈ threads, request tid = common := by
      intro whole
      have everyone : resumedThreads threads request = threads :=
        resumed_eq_of_length (by rw [resumed]; exact whole)
      rw [← everyone, resumed]
      exact same
    have selects : Selects threads request common
        (if others.length + 1 = threads.length then .all else .thread first) := by
      split
      · next whole => exact all whole
      · next part => rw [few.resolve_right part] at resumed; exact resumed
    cases common with
    | suspend => exact absurd rfl resumes
    | «continue» => exact ⟨_, rfl, selects⟩
    | step => exact ⟨_, rfl, selects⟩
    | stepWithSignal signo =>
      rcases simple with ⟨tid, alone, asked⟩ | everyone
      · exact absurd asked (noStepAlone tid signo alone)
      · exact absurd everyone (noStepAll signo)
    | continueWithSignal signo =>
      have whole : others.length + 1 = threads.length := by
        rcases few with rfl | whole
        · simp [noSignalAlone first signo resumed (same first mem_cons_self)]
        · exact whole
      refine ⟨_, by simp only [whole]; rfl, ?_⟩
      split
      · next single => rw [single] at resumed; exact resumed
      · exact all whole

/-- Requests arrive where every action is supported, and the simple ones get a packet where none is. -/
def SurvivesWire (threads : List Nat) (request : Nat → Request) : Prop :=
  RunsAsRequested threads request ∧ ResumesSimply threads request

theorem survives_wire_iff {threads : List Nat} {request : Nat → Request} (resumable : Resumable threads request) :
    SurvivesWire threads request ↔ SimplyMade threads request := by
  rw [SurvivesWire, and_iff_right (runs_as_requested resumable)]
  exact resumes_simply_iff resumable

def stepsAlone (tid : Nat) : Request := if tid = 1 then .stepWithSignal 5 else .suspend

theorem stepsAlone_resumable : Resumable [1, 2] stepsAlone where
  ids := by decide
  signals := by
    intro tid member
    rcases mem_pair.mp member with rfl | rfl
    · exact (by decide : 0 < 5 ∧ 5 < 2 ^ 8)
    · trivial
  some := ⟨1, by decide, by decide⟩

theorem survives_wire_iff_stepsAlone : SurvivesWire [1, 2] stepsAlone ↔ SimplyMade [1, 2] stepsAlone :=
  survives_wire_iff stepsAlone_resumable

theorem not_always_survives_wire : Resumable [1, 2] stepsAlone ∧ ¬ SurvivesWire [1, 2] stepsAlone := by
  refine ⟨stepsAlone_resumable, ?_⟩
  rintro ⟨-, simply⟩
  obtain ⟨selected, made, -⟩ := simply (.stepWithSignal 5) (by decide) (.inl ⟨1, by decide, by decide⟩)
  cases made

end Lldb.Resume
