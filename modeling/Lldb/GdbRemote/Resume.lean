import Lldb.GdbRemote.MemoryPackets

/-! Resuming threads over the protocol: the packet that `DoResume` of the client makes from
the lists the threads were put on, and the `ResumeActionList` that the server takes from it.

A request with a signal is one whose signal the client's table knows. The event that
carries the packet to the async thread is not modelled.
-/

set_option autoImplicit false

namespace Lldb.Resume

open GdbRemote

inductive StateType where
  | invalid
  | stopped
  | running
  | stepping
  deriving DecidableEq, Repr

/-- An action for one thread; the thread 0 (`LLDB_INVALID_THREAD_ID`) makes it the default. -/
structure ResumeAction where
  tid : Nat
  state : StateType
  signal : Int
  deriving DecidableEq, Repr

abbrev ResumeActionList := List ResumeAction

namespace ResumeActionList

def getActionForThread (actions : ResumeActionList) (tid : Nat) (defaultOk : Bool) : Option ResumeAction :=
  match actions.find? fun action => action.tid = tid with
  | some action => some action
  | none => if defaultOk ∧ tid ≠ 0 then actions.find? fun action => action.tid = 0 else none

def setDefaultThreadActionIfNeeded (actions : ResumeActionList) (action : StateType) (signal : Int) :
    ResumeActionList :=
  match actions.getActionForThread 0 true with
  | some _ => actions
  | none => actions ++ [⟨0, action, signal⟩]

end ResumeActionList

/-! The server. -/

/-- The threads of the debugged process, and those that `Hc` and `Hg` selected. -/
structure ServerThreads where
  threads : List Nat
  continueThreadID : Nat
  currentThreadID : Nat
  deriving DecidableEq, Repr

def sendUnimplementedResponse : Bytes := []

variable (server : Option ServerThreads)

/-- `Handle_c` behind its letter: the actions given to `Resume`, or the answer that refuses. -/
def handleC (rest : Bytes) : Except Bytes ResumeActionList :=
  if rest ≠ [] then .error sendUnimplementedResponse
  else
    match server with
    | none => .error (sendErrorResponse 0x36)
    | some _ => .ok (ResumeActionList.setDefaultThreadActionIfNeeded [] .running 0)

def handleS : Except Bytes ResumeActionList :=
  match server with
  | none => .error (sendErrorResponse 0x32)
  | some server =>
      let tid := if server.continueThreadID = 0 then server.currentThreadID else server.continueThreadID
      if tid = 0 then .error (sendErrorResponse 0x33)
      else if tid ∉ server.threads then .error (sendErrorResponse 0x33)
      -- All other threads stop while one is single stepping.
      else .ok (ResumeActionList.setDefaultThreadActionIfNeeded [⟨tid, .stepping, 0⟩] .stopped 0)

/-- The conversion of a 32-bit number to `int`. -/
def toInt32 (value : Nat) : Int := if value < 2 ^ 31 then value else value - 2 ^ 32

def parseKind (fields : StringExtractor) : Except Bytes (StateType × Int × StringExtractor) :=
  let (action, fields) := fields.getChar 0
  if action = 0x43 ∨ action = 0x53 then
    let (signal, fields) := fields.getHexMaxU32 0
    if signal = 0 then .error sendIllFormedResponse
    else .ok (if action = 0x43 then .running else .stepping, toInt32 signal, fields)
  else if action = 0x63 then .ok (.running, 0, fields)
  else if action = 0x73 then .ok (.stepping, 0, fields)
  else .error sendIllFormedResponse

/-- One action of a `vCont` packet, behind its semicolon. -/
def parseAction (fields : StringExtractor) : Except Bytes (ResumeAction × StringExtractor) := do
  let (state, signal, fields) ← parseKind fields
  match fields with
  | some (separator :: rest) =>
      if separator = colon then
        let (tid, fields) := StringExtractor.getHexMaxU32 0 (some rest)
        if tid = 0 then .error sendIllFormedResponse
        else .ok (⟨tid, state, signal⟩, fields)
      else .ok (⟨0, state, signal⟩, fields)
  | _ => .ok (⟨0, state, signal⟩, fields)

/-- The actions of a `vCont` packet. Each takes at least its semicolon, so as much fuel as
there are bytes is enough. -/
def parseActions : Nat → ResumeActionList → StringExtractor → Except Bytes ResumeActionList
  | fuel + 1, actions, some (c :: rest) =>
      if c = semicolon then do
        let (action, fields) ← parseAction (some rest)
        parseActions fuel (actions ++ [action]) fields
      else .ok actions
  | _, actions, _ => .ok actions

def handleVCont (packet : Bytes) : Except Bytes ResumeActionList :=
  let rest := packet.drop 5
  if rest = [] then .error sendIllFormedResponse
  else if cString rest = ascii ";c" then handleC server (rest.drop 2)
  else if cString rest = ascii ";s" then handleS server
  else
    match server with
    | none => .error (sendErrorResponse 0x36)
    | some _ => parseActions rest.length [] (some rest)

/-- `c` and `vCont` packets. -/
def handleResume (packet : Bytes) : Except Bytes ResumeActionList :=
  if packet.head? = some 0x63 then handleC server (packet.drop 1) else handleVCont server packet

/-! The client. -/

inductive Request where
  | suspend
  | continue
  | continueWithSignal (signo : Nat)
  | step
  | stepWithSignal (signo : Nat)
  deriving DecidableEq, Repr

/-- The threads to resume, by what they are to do, in the order of the thread list. -/
structure ContinueLists where
  cTids : List Nat
  CTids : List (Nat × Nat)
  sTids : List Nat
  STids : List (Nat × Nat)
  deriving DecidableEq, Repr

def ContinueLists.willResume (lists : ContinueLists) (tid : Nat) : Request → ContinueLists
  -- Don't append anything for threads that should stay stopped.
  | .suspend => lists
  | .continue => { lists with cTids := lists.cTids ++ [tid] }
  | .continueWithSignal signo => { lists with CTids := lists.CTids ++ [(tid, signo)] }
  | .step => { lists with sTids := lists.sTids ++ [tid] }
  | .stepWithSignal signo => { lists with STids := lists.STids ++ [(tid, signo)] }

def continueLists (threads : List Nat) (request : Nat → Request) : ContinueLists :=
  threads.foldl (fun lists tid => lists.willResume tid (request tid)) ⟨[], [], [], []⟩

/-- The actions that the server's `vCont` understands. -/
structure VContSupport where
  c : Bool
  C : Bool
  s : Bool
  S : Bool
  deriving DecidableEq, Repr

variable (support : VContSupport)

def VContSupport.any : Bool := support.c || support.C || support.s || support.S

/-- The threads that `SetCurrentThreadForRun` selects. -/
inductive RunThread where
  | all
  | thread (tid : Nat)
  deriving DecidableEq, Repr

/-- `continue_packet`, `continue_packet_error`, and the threads selected for it last. -/
structure ContinuePacket where
  text : Bytes
  error : Bool
  selected : Option RunThread
  deriving DecidableEq, Repr

def threadAction (letter : UInt8) (tid : Nat) : Bytes := [semicolon, letter, colon] ++ hexText 4 tid

def threadSignalAction (letter : UInt8) (thread : Nat × Nat) : Bytes :=
  [semicolon, letter] ++ hexText 2 thread.2 ++ colon :: hexText 4 thread.1

/-- The actions of one list; an error where there are some and the server does not know their kind. -/
def vContActions (supported : Bool) (actions : List Bytes) (packet : ContinuePacket) : ContinuePacket :=
  if packet.error ∨ actions = [] then packet
  else if supported then { packet with text := packet.text ++ actions.flatten }
  else { packet with error := true }

def vContPacket (lists : ContinueLists) : ContinuePacket :=
  let packet : ContinuePacket := ⟨ascii "vCont", false, none⟩
  let packet := vContActions support.c (lists.cTids.map (threadAction 0x63)) packet
  let packet := vContActions support.C (lists.CTids.map (threadSignalAction 0x43)) packet
  let packet := vContActions support.s (lists.sTids.map (threadAction 0x73)) packet
  let packet := vContActions support.S (lists.STids.map (threadSignalAction 0x53)) packet
  if packet.error then { packet with text := [] } else packet

def packetWithVCont (nonStop : Bool) (numThreads : Nat) (lists : ContinueLists) :
    ContinuePacket :=
  if support.any then
    if !nonStop ∧ (lists.cTids.length = numThreads ∨
        lists.cTids = [] ∧ lists.CTids = [] ∧ lists.sTids = [] ∧ lists.STids = []) then
      ⟨ascii "c", false, none⟩
    else vContPacket support lists
  else ⟨[], true, none⟩

def simpleContinue (numThreads : Nat) (lists : ContinueLists) (packet : ContinuePacket) : ContinuePacket :=
  match lists.cTids with
  | [] => packet
  | first :: _ =>
      if lists.cTids.length = numThreads then
        ⟨packet.text ++ ascii "c", false, some .all⟩
      else if lists.cTids.length = 1 ∧ lists.CTids = [] ∧ lists.sTids = [] ∧ lists.STids = [] then
        ⟨packet.text ++ ascii "c", false, some (.thread first)⟩
      else packet

def simpleContinueWithSignal (numThreads : Nat) (lists : ContinueLists) (packet : ContinuePacket) : ContinuePacket :=
  match lists.CTids with
  | [] => packet
  | (tid, continueSigno) :: others =>
      if packet.error ∧ lists.CTids.length + lists.cTids.length = numThreads ∧ lists.sTids = [] ∧ lists.STids = [] then
        if others ≠ [] then
          if others.all fun other => other.2 = continueSigno then
            ⟨packet.text ++ ascii "C" ++ hexText 2 continueSigno, false, some .all⟩
          else packet
        else ⟨packet.text ++ ascii "C" ++ hexText 2 continueSigno, false, some (.thread tid)⟩
      else packet

def simpleStep (nonStop : Bool) (numThreads : Nat) (lists : ContinueLists)
    (packet : ContinuePacket) : ContinuePacket :=
  match lists.sTids with
  | [] => packet
  | first :: _ =>
      if packet.error then
        if lists.sTids.length = numThreads then
          -- In non-stop mode vCont is used when stepping.
          ⟨packet.text ++ ascii (if nonStop ∧ support.s then "vCont;s" else "s"), false, some .all⟩
        else if lists.cTids = [] ∧ lists.CTids = [] ∧ lists.sTids.length = 1 ∧ lists.STids = [] then
          ⟨packet.text ++ ascii "s", false, some (.thread first)⟩
        else packet
      else packet

def simpleStepWithSignal (numThreads : Nat) (lists : ContinueLists) (packet : ContinuePacket) : ContinuePacket :=
  match lists.STids with
  | [] => packet
  | (tid, stepSigno) :: others =>
      if !packet.error then
        if lists.STids.length = numThreads then
          if others.all fun other => other.2 = stepSigno then
            ⟨packet.text ++ ascii "S" ++ hexText 2 stepSigno, false, some .all⟩
          else { packet with error := true }
        else if lists.cTids = [] ∧ lists.CTids = [] ∧ lists.sTids = [] ∧ others = [] then
          ⟨packet.text ++ ascii "S" ++ hexText 2 stepSigno, false, some (.thread tid)⟩
        else packet
      else packet

/-- The packet for servers without the `vCont` actions that the lists need. -/
def simplePacket (nonStop : Bool) (numThreads : Nat) (lists : ContinueLists)
    (packet : ContinuePacket) : ContinuePacket :=
  let packet := simpleContinue numThreads lists packet
  let packet := simpleContinueWithSignal numThreads lists packet
  let packet := simpleStep support nonStop numThreads lists packet
  simpleStepWithSignal numThreads lists packet

def continuePacket (nonStop : Bool) (numThreads : Nat) (lists : ContinueLists) :
    ContinuePacket :=
  let packet := packetWithVCont support nonStop numThreads lists
  if packet.error then simplePacket support nonStop numThreads lists packet else packet

structure ResumePacket where
  packet : Bytes
  selected : Option RunThread
  deriving DecidableEq, Repr

/-- The packet that `DoResume` hands to the async thread, and the threads it selected for it. -/
def doResume (nonStop : Bool) (threads : List Nat) (request : Nat → Request) :
    Except Bytes ResumePacket :=
  let packet := continuePacket support nonStop threads.length (continueLists threads request)
  if packet.error then .error (ascii "can't make continue packet for this resume")
  else .ok ⟨packet.text, packet.selected⟩

end Lldb.Resume
