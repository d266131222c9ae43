import Lldb.GdbRemote.Checksum

/-! Waiting for a reply, and getting back in step with the server after a timeout.

The server answers each request once and in order, with the delays that the outcomes of
the reads describe: bytes that were sent stay on the wire until a read takes them. The
probe is `qEcho:N`, or `qC` when the server is not known to support the former.
-/

set_option autoImplicit false

namespace Lldb.GdbRemote

open List Option

/-- A reply as the server puts it on the wire, and the packet it expands to. -/
structure Reply where
  payload : Bytes
  packet : Bytes
  closed : hash ∉ payload
  expands : expand [] payload = some packet

inductive PacketResult where
  | success
  | errorSendFailed
  | errorSendAck
  | errorReplyFailed
  | errorReplyTimeout
  | errorDisconnected
  deriving DecidableEq, Repr

/-- The client's end of the connection: `m_bytes`, and the bytes sent to it that it has
not read. -/
structure Link where
  bytes : Bytes
  wire : Bytes
  connected : Bool
  deriving DecidableEq, Repr

/-- How one `Read` into the buffer of 8192 bytes ends. -/
inductive ReadOutcome where
  | bytes (count : Nat)
  | timedOut
  | interrupted
  | lost
  deriving DecidableEq, Repr

structure Waited where
  result : PacketResult
  packet : Bytes
  link : Link
  schedule : List ReadOutcome
  deriving DecidableEq, Repr

abbrev OnTimeout := Link → List ReadOutcome → Option Waited

/-- The loop of `WaitForPacketNoLock`; it has no result while the reads run out. -/
def readLoop (sendAcks : Bool) (onTimeout : OnTimeout) (link : Link) : List ReadOutcome → Option Waited
  | [] => none
  | .bytes count :: later =>
      let chunk := link.wire.take (min count 8192)
      -- A read of no bytes goes round again without a look at the buffer.
      if chunk = [] then readLoop sendAcks onTimeout link later
      else (checkForPacket sendAcks link.bytes chunk).bind fun checked =>
        let link := { link with bytes := checked.bytes, wire := link.wire.drop (min count 8192) }
        if checked.packetType = .invalid then readLoop sendAcks onTimeout link later
        else some ⟨.success, checked.packet, link, later⟩
  | .timedOut :: later => onTimeout link later
  | .interrupted :: later => onTimeout link later
  | .lost :: later => some ⟨.errorDisconnected, [], { link with connected := false }, later⟩

def waitForPacket (sendAcks : Bool) (onTimeout : OnTimeout) (link : Link)
    (schedule : List ReadOutcome) : Option Waited :=
  (checkForPacket sendAcks link.bytes []).bind fun checked =>
    let link := { link with bytes := checked.bytes }
    if checked.packetType ≠ .invalid then some ⟨.success, checked.packet, link, schedule⟩
    else if link.connected then readLoop sendAcks onTimeout link schedule
    else some ⟨.errorReplyFailed, [], link, schedule⟩

/-- `WaitForPacketNoLock` with `sync_on_timeout` false. -/
def waitWithoutSync (sendAcks : Bool) : OnTimeout :=
  waitForPacket sendAcks fun link schedule => some ⟨.errorReplyTimeout, [], link, schedule⟩

def getAck (sendAcks : Bool) (link : Link) (schedule : List ReadOutcome) : Option Waited :=
  (waitWithoutSync sendAcks link schedule).map fun waited =>
    -- Whatever packet comes in place of the ack is gone.
    if waited.result = .success ∧ waited.packet ≠ [plus] then { waited with result := .errorSendAck }
    else waited

/-- `SendPacketNoLock` of a request that the server answers with the given bytes. -/
def sendPacketNoLock (sendAcks written : Bool) (answer : Bytes) (link : Link)
    (schedule : List ReadOutcome) : Option Waited :=
  if link.connected ∧ written then
    let link := { link with wire := link.wire ++ answer }
    if sendAcks then getAck sendAcks link schedule else some ⟨.success, [], link, schedule⟩
  else some ⟨.errorSendFailed, [], link, schedule⟩

/-- The probe of a resynchronisation; `echoNumber` counts it already. -/
structure Probe where
  supportsQEcho : Bool
  echoNumber : Nat
  deriving DecidableEq, Repr

def Probe.echoPacket (probe : Probe) : Bytes :=
  if probe.supportsQEcho then
    [0x71, 0x45, 0x63, 0x68, 0x6f, 0x3a] ++ (Nat.toDigits 10 probe.echoNumber).map Char.toUInt8
  else [0x71, 0x43]

/-- `response_regex.Execute`: the text of the probe itself, or `^QC[0-9A-Fa-f]+$`. -/
def Probe.matches (probe : Probe) (response : Bytes) : Bool :=
  let text := cString response
  if probe.supportsQEcho then text = probe.echoPacket
  else match text with
    | q :: c :: digits => q = 0x51 && c = 0x43 && !digits.isEmpty && digits.all isxdigit
    | _ => false

structure Synced where
  syncSuccess : Bool
  actualResponse : Option Bytes
  link : Link
  schedule : List ReadOutcome

/-- The retries that wait for the response to the probe. The first response that is not
it counts as the response to the request. -/
def awaitProbe (sendAcks : Bool) (probe : Probe) : (retries successfulResponses : Nat) →
    (actualResponse : Option Bytes) → Link → List ReadOutcome → Option Synced
  | 0, _, actual, link, schedule => some ⟨false, actual, link, schedule⟩
  | retries + 1, successes, actual, link, schedule =>
      (waitWithoutSync sendAcks link schedule).bind fun waited =>
        if waited.result = .success then
          if probe.matches waited.packet then some ⟨true, actual, waited.link, waited.schedule⟩
          else awaitProbe sendAcks probe retries (successes + 1)
            (if successes = 0 then some waited.packet else actual) waited.link waited.schedule
        else if waited.result = .errorReplyTimeout then
          -- A timeout uses up a retry like a wrong response.
          awaitProbe sendAcks probe retries successes actual waited.link waited.schedule
        else some ⟨false, actual, waited.link, waited.schedule⟩

def disconnect (link : Link) (schedule : List ReadOutcome) : Waited :=
  ⟨.errorDisconnected, [], { link with connected := false }, schedule⟩

/-- What `WaitForPacketNoLock` returns once the retries are over. -/
def Synced.waited (synced : Synced) : Waited :=
  if synced.syncSuccess then
    match synced.actualResponse with
    | some packet => ⟨.success, packet, synced.link, synced.schedule⟩
    | none => ⟨.errorReplyTimeout, [], synced.link, synced.schedule⟩
  else disconnect synced.link synced.schedule

def Reply.answer (reply : Reply) (sendAcks : Bool) : Bytes :=
  (if sendAcks then [plus] else []) ++ sentBytes reply.payload

def syncOnTimeout (sendAcks : Bool) (probe : Probe) (probeReply : Reply) (written : Bool) : OnTimeout :=
  fun link schedule =>
    (sendPacketNoLock sendAcks written (probeReply.answer sendAcks) link schedule).bind fun sent =>
      if sent.result = .success then
        (awaitProbe sendAcks probe 3 0 none sent.link sent.schedule).map Synced.waited
      else some (disconnect sent.link sent.schedule)

/-- `WaitForPacketNoLock` with `sync_on_timeout` true, against a server that answers the
probe with `probeReply`; `written` tells whether the probe can be written. -/
def waitForPacketNoLock (sendAcks : Bool) (probe : Probe) (probeReply : Reply) (written : Bool) : OnTimeout :=
  waitForPacket sendAcks (syncOnTimeout sendAcks probe probeReply written)

/-- What the server has sent and the client has not taken: acks and replies, in order. -/
inductive Item where
  | ack
  | replied (reply : Reply)

def Item.bytes : Item → Bytes
  | .ack => [plus]
  | .replied reply => sentBytes reply.payload

def Item.packet : Item → Bytes
  | .ack => [plus]
  | .replied reply => reply.packet

def Link.Outstanding (link : Link) (items : List Item) : Prop :=
  link.connected = true ∧ link.bytes ++ link.wire = (items.map Item.bytes).flatten

theorem checkForPacket_item (sendAcks : Bool) (item : Item) (behind : Bytes) :
    ∃ sent, checkForPacket sendAcks [] (item.bytes ++ behind) = some ⟨.standard, item.packet, behind, sent⟩ := by
  cases item with
  | ack => exact ⟨none, rfl⟩
  | replied reply =>
    have found := checkForPacket_sentBytes sendAcks reply.closed behind
    rw [reply.expands] at found
    exact ⟨_, found⟩

theorem packetSize_item (item : Item) (behind : Bytes) :
    packetSize (item.bytes ++ behind) = some item.bytes.length := by
  cases item with
  | ack => rfl
  | replied reply =>
    have header : headOf dollar = .header := rfl
    have shape : sentBytes reply.payload ++ behind = dollar :: (reply.payload ++ hash ::
        nibbleChar ((calculcateChecksum reply.payload).toNat / 16) ::
        nibbleChar ((calculcateChecksum reply.payload).toNat % 16) :: behind) := by
      simp [sentBytes, putHex8]
    rw [Item.bytes, shape, packetSize, scan_complete header reply.closed]
    simp [sentBytes, putHex8]

variable {items : List Item} {sendAcks : Bool} {schedule : List ReadOutcome} {link : Link} {probe : Probe}
    {retries successes : Nat} {actual : Option Bytes} {synced : Synced} {probeReply reply : Reply}

/-- A buffer that holds the front of what is outstanding either has its first item, or
has no packet yet. -/
theorem front_of_items {bytes wire : Bytes} (outstanding : bytes ++ wire = (items.map Item.bytes).flatten) :
    scan bytes = .incomplete ∨ ∃ item others left, items = item :: others ∧ bytes = item.bytes ++ left ∧
        left ++ wire = (others.map Item.bytes).flatten := by
  cases items with
  | nil =>
    left
    have empty : bytes = [] := (append_eq_nil_iff.mp outstanding).1
    rw [empty]
    rfl
  | cons item others =>
    cases found : scan bytes with
    | incomplete => exact .inl rfl
    | junk =>
      obtain ⟨first, tail, rfl, junk⟩ := scan_junk_iff.mp found
      cases item with
      | ack =>
        obtain rfl : first = plus := (List.cons.inj outstanding).1
        cases junk
      | replied reply =>
        obtain rfl : first = dollar := (List.cons.inj outstanding).1
        cases junk
    | packet start length total =>
      right
      have size : packetFramer.size bytes = some total := by simp [packetFramer, packetSize, found]
      have whole := packetFramer.stable size wire
      rw [outstanding] at whole
      -- The buffer is a prefix of what is outstanding, so the packet in front of both is the first item.
      have exact : item.bytes.length = total := Option.some.inj ((packetSize_item item _).symm.trans whole)
      have within := packetFramer.within size
      obtain ⟨left, rfl, same⟩ : ∃ left, bytes = item.bytes ++ left ∧
          (others.map Item.bytes).flatten = left ++ wire := by
        rcases append_eq_append_iff.mp outstanding with ⟨more, same, _⟩ | ⟨left, same, behind⟩
        · have lengths := congrArg List.length same
          rw [length_append] at lengths
          have none : more = [] := eq_nil_of_length_eq_zero (by omega)
          subst none
          refine ⟨[], by simpa using same.symm, by simp_all⟩
        · exact ⟨left, same, behind⟩
      exact ⟨item, others, left, rfl, rfl, same.symm⟩

/-- `CheckForPacket` on bytes that are outstanding takes the first item or nothing. -/
theorem checkForPacket_outstanding (sendAcks : Bool) {bytes chunk wire : Bytes}
    (outstanding : (bytes ++ chunk) ++ wire = (items.map Item.bytes).flatten) :
    checkForPacket sendAcks bytes chunk = some ⟨.invalid, [], bytes ++ chunk, none⟩ ∨
      ∃ item others left sent, items = item :: others ∧
        checkForPacket sendAcks bytes chunk = some ⟨.standard, item.packet, left, sent⟩ ∧
        left ++ wire = (others.map Item.bytes).flatten := by
  have whole : checkForPacket sendAcks bytes chunk = checkForPacket sendAcks [] (bytes ++ chunk) := rfl
  rcases front_of_items outstanding with waiting | ⟨item, others, left, rfl, same, behind⟩
  · left
    simp [checkForPacket, waiting]
  · right
    obtain ⟨sent, found⟩ := checkForPacket_item sendAcks item left
    exact ⟨item, others, left, sent, rfl, by rw [whole, same, found], behind⟩

/-- The call has returned the first item, and the others are still outstanding. -/
def Waited.Takes (waited : Waited) (items : List Item) : Prop :=
  ∃ item others, items = item :: others ∧ waited.result = .success ∧
    waited.packet = item.packet ∧ waited.link.Outstanding others

def Waited.Lost (waited : Waited) : Prop :=
  waited.result = .errorDisconnected ∧ waited.link.connected = false

variable (outstanding : link.Outstanding items)
include outstanding

theorem readLoop_spec {onTimeout : OnTimeout} {waited : Waited}
    (returned : readLoop sendAcks onTimeout link schedule = some waited) :
    waited.Takes items ∨ (∃ link later, link.Outstanding items ∧ onTimeout link later = some waited) ∨ waited.Lost := by
  -- One round of the loop for each read; between rounds the same items stay outstanding.
  induction schedule generalizing link with
  | nil => cases returned
  | cons outcome later ih =>
    cases outcome with
    | timedOut => exact .inr (.inl ⟨link, later, outstanding, returned⟩)
    | interrupted => exact .inr (.inl ⟨link, later, outstanding, returned⟩)
    | lost =>
      simp only [readLoop, Option.some.injEq] at returned
      subst returned
      exact .inr (.inr ⟨rfl, rfl⟩)
    | bytes count =>
      simp only [readLoop] at returned
      split at returned
      · exact ih outstanding returned
      · obtain ⟨connected, bytes⟩ := outstanding
        -- The chunk moves from the wire to the buffer: together they stay the same.
        have moved : (link.bytes ++ link.wire.take (min count 8192)) ++
            link.wire.drop (min count 8192) = (items.map Item.bytes).flatten := by
          simp [bytes]
        rcases checkForPacket_outstanding sendAcks moved with
          waiting | ⟨item, others, left, sent, rfl, found, behind⟩
        · rw [waiting] at returned
          have still : Link.Outstanding { link with
              bytes := link.bytes ++ link.wire.take (min count 8192)
              wire := link.wire.drop (min count 8192) } items := ⟨connected, moved⟩
          exact ih still returned
        · rw [found, bind_some] at returned
          simp only [reduceCtorEq, if_false, Option.some.injEq] at returned
          subst returned
          exact .inl ⟨item, others, rfl, rfl, rfl, connected, behind⟩

theorem waitForPacket_spec {onTimeout : OnTimeout} {waited : Waited}
    (returned : waitForPacket sendAcks onTimeout link schedule = some waited) :
    waited.Takes items ∨ (∃ link later, link.Outstanding items ∧ onTimeout link later = some waited) ∨ waited.Lost := by
  obtain ⟨connected, bytes⟩ := outstanding
  have whole : (link.bytes ++ []) ++ link.wire = (items.map Item.bytes).flatten := by
    rw [append_nil, bytes]
  unfold waitForPacket at returned
  rcases checkForPacket_outstanding sendAcks whole with
    waiting | ⟨item, others, left, sent, rfl, found, behind⟩
  · have still : Link.Outstanding { link with bytes := link.bytes ++ [] } items := ⟨connected, whole⟩
    rw [waiting, bind_some] at returned
    simp only [ne_eq] at returned
    rw [if_pos connected] at returned
    exact readLoop_spec still returned
  · rw [found, bind_some] at returned
    simp only [ne_eq, reduceCtorEq, not_false_eq_true, if_true, Option.some.injEq] at returned
    subst returned
    exact .inl ⟨item, others, rfl, rfl, rfl, connected, behind⟩

/-- A wait without resynchronisation takes the first item, times out with everything
still outstanding, or loses the connection. -/
theorem waitWithoutSync_spec {waited : Waited} (returned : waitWithoutSync sendAcks link schedule = some waited) :
    waited.Takes items ∨ (waited.result = .errorReplyTimeout ∧ waited.link.Outstanding items) ∨ waited.Lost := by
  rcases waitForPacket_spec outstanding returned with takes | ⟨link, later, still, timedOut⟩ | lost
  · exact .inl takes
  · cases timedOut
    exact .inr (.inl ⟨rfl, still⟩)
  · exact .inr (.inr lost)

theorem awaitProbe_succ
    (returned : awaitProbe sendAcks probe (retries + 1) successes actual link schedule = some synced)
    (synchronised : synced.syncSuccess = true) :
    (∃ link later, link.Outstanding items ∧
        awaitProbe sendAcks probe retries successes actual link later = some synced) ∨
      ∃ item others, items = item :: others ∧
        if probe.matches item.packet then synced.actualResponse = actual ∧ synced.link.Outstanding others
        else ∃ link later, link.Outstanding others ∧ awaitProbe sendAcks probe retries (successes + 1)
          (if successes = 0 then some item.packet else actual) link later = some synced := by
  rw [awaitProbe, bind_eq_some_iff] at returned
  obtain ⟨waited, received, continued⟩ := returned
  rcases waitWithoutSync_spec outstanding received with
    ⟨item, others, rfl, success, packet, behind⟩ | ⟨timeout, still⟩ | ⟨lost, -⟩
  · right
    refine ⟨item, others, rfl, ?_⟩
    rw [if_pos success, packet] at continued
    split at continued
    · next hit =>
      cases continued
      rw [if_pos hit]
      exact ⟨rfl, behind⟩
    · next miss =>
      rw [if_neg miss]
      exact ⟨waited.link, waited.schedule, behind, continued⟩
  · left
    rw [if_neg (by simp [timeout]), if_pos timeout] at continued
    exact ⟨waited.link, waited.schedule, still, continued⟩
  · rw [if_neg (by simp [lost]), if_neg (by simp [lost]), Option.some.injEq] at continued
    subst continued
    cases synchronised

omit outstanding

theorem awaitProbe_nothing (outstanding : link.Outstanding [])
    (returned : awaitProbe sendAcks probe retries successes actual link schedule = some synced) :
    synced.syncSuccess = false := by
  induction retries generalizing link schedule with
  | zero => cases returned; rfl
  | succ retries ih =>
    by_contra synchronised
    rcases awaitProbe_succ outstanding returned (Bool.not_eq_false _ ▸ synchronised) with
      ⟨link, later, still, continued⟩ | ⟨_, _, same, _⟩
    · exact synchronised (ih still continued)
    · cases same

theorem awaitProbe_probe (outstanding : link.Outstanding [.replied probeReply])
    (returned : awaitProbe sendAcks probe retries successes actual link schedule = some synced)
    (synchronised : synced.syncSuccess = true) :
    synced.actualResponse = actual ∧ synced.link.Outstanding [] := by
  induction retries generalizing link schedule with
  | zero => cases returned; cases synchronised
  | succ retries ih =>
    rcases awaitProbe_succ outstanding returned synchronised with
      ⟨link, later, still, continued⟩ | ⟨item, others, same, taken⟩
    · exact ih still continued
    · cases same
      split at taken
      · exact taken
      · obtain ⟨link, later, nothing, continued⟩ := taken
        rw [awaitProbe_nothing nothing continued] at synchronised
        cases synchronised

/-- An item that does not look like the response to the probe comes first and counts as
the response to the request. -/
theorem awaitProbe_actual {first : Item} (outstanding : link.Outstanding [first, .replied probeReply])
    (other : probe.matches first.packet = false)
    (returned : awaitProbe sendAcks probe retries 0 none link schedule = some synced)
    (synchronised : synced.syncSuccess = true) :
    synced.actualResponse = some first.packet ∧ synced.link.Outstanding [] := by
  induction retries generalizing link schedule with
  | zero => cases returned; cases synchronised
  | succ retries ih =>
    rcases awaitProbe_succ outstanding returned synchronised with
      ⟨link, later, still, continued⟩ | ⟨item, others, same, taken⟩
    · exact ih still continued
    · cases same
      rw [if_neg (by simp [other])] at taken
      obtain ⟨link, later, behind, continued⟩ := taken
      exact awaitProbe_probe behind continued synchronised

theorem cString_plus : cString [plus] = [plus] := by decide

theorem Probe.not_matches_plus (probe : Probe) : probe.matches [plus] = false := by
  cases kind : probe.supportsQEcho with
  | true => simp [Probe.matches, Probe.echoPacket, kind, cString_plus]
  | false => simp [Probe.matches, kind, cString_plus]

theorem Synced.success_of_connected (connected : synced.waited.link.connected = true) : synced.syncSuccess = true := by
  unfold Synced.waited at connected
  cases kept : synced.syncSuccess with
  | true => rfl
  | false => simp [kept, disconnect] at connected

theorem Synced.waited_actual (synchronised : synced.syncSuccess = true)
    {packet : Bytes} (actual : synced.actualResponse = some packet) :
    synced.waited = ⟨.success, packet, synced.link, synced.schedule⟩ := by
  simp [Synced.waited, synchronised, actual]

/-- The outcome of writing the probe while the reply to the request is outstanding: what
comes first is not the response to the probe, or the connection will be given up. -/
theorem sendProbe_spec {written : Bool} {sent : Waited} (outstanding : link.Outstanding [.replied reply])
    (returned : sendPacketNoLock sendAcks written (probeReply.answer sendAcks) link schedule = some sent)
    (success : sent.result = .success) :
    ∃ first : Item, first.packet = reply.packet ∧ sent.link.Outstanding [first, .replied probeReply] ∧
      (sendAcks = true → first.packet = [plus]) := by
  unfold sendPacketNoLock at returned
  split at returned
  · obtain ⟨connected, bytes⟩ := outstanding
    cases sendAcks with
    | false =>
      simp only [Bool.false_eq_true, if_false, Option.some.injEq] at returned
      subst returned
      refine ⟨.replied reply, rfl, ⟨connected, ?_⟩, fun impossible => by cases impossible⟩
      simp only [← append_assoc, bytes]
      simp [Item.bytes, Reply.answer]
    | true =>
      obtain ⟨waited, received, ended⟩ := map_eq_some_iff.mp returned
      have three : Link.Outstanding { link with wire := link.wire ++ probeReply.answer true }
          [.replied reply, .ack, .replied probeReply] := by
        refine ⟨connected, ?_⟩
        simp only [← append_assoc, bytes]
        simp [Item.bytes, Reply.answer]
      -- The reply comes before the ack; only a reply that is itself a `+` passes for one.
      rcases waitWithoutSync_spec three received with
        ⟨item, others, same, -, packet, behind⟩ | ⟨timeout, -⟩ | ⟨lost, -⟩
      · cases same
        split at ended
        · subst ended; cases success
        · next passes =>
          subst ended
          have ack : waited.packet = [plus] := by
            by_contra other
            exact passes ⟨success, other⟩
          exact ⟨.ack, ack.symm.trans packet, behind, fun _ => rfl⟩
      · rw [if_neg (by simp [timeout])] at ended
        subst ended
        rw [timeout] at success
        cases success
      · rw [if_neg (by simp [lost])] at ended
        subst ended
        rw [lost] at success
        cases success
  · simp only [Option.some.injEq] at returned
    subst returned
    cases success

/-- What a wait after one request promises: unless it disconnects nothing is outstanding,
and a packet that it returns is the reply to the request. -/
def Resynchronises (sendAcks : Bool) (probe : Probe) (reply probeReply : Reply) : Prop :=
  ∀ link schedule written waited, link.Outstanding [.replied reply] →
    waitForPacketNoLock sendAcks probe probeReply written link schedule = some waited → waited.link.connected = true →
        waited.link.Outstanding [] ∧ (waited.result = .success → waited.packet = reply.packet)

theorem resynchronises (probeReply : Reply) (distinct : sendAcks = true ∨ probe.matches reply.packet = false) :
    Resynchronises sendAcks probe reply probeReply := by
  intro link schedule written waited outstanding returned connected
  rcases waitForPacket_spec outstanding returned with
    ⟨item, others, same, -, packet, behind⟩ | ⟨link, later, still, timedOut⟩ | ⟨-, lost⟩
  · cases same
    exact ⟨behind, fun _ => packet⟩
  · obtain ⟨sent, written, continued⟩ := bind_eq_some_iff.mp timedOut
    split at continued
    · next success =>
      obtain ⟨synced, awaited, rfl⟩ := map_eq_some_iff.mp continued
      obtain ⟨first, packet, two, acked⟩ := sendProbe_spec still written success
      have other : probe.matches first.packet = false := by
        -- With acks on, the reply was taken for the ack of the probe: it is a `+`, and so is the ack.
        rcases distinct with acks | other
        · rw [acked acks, probe.not_matches_plus]
        · rw [packet, other]
      have synchronised := Synced.success_of_connected connected
      obtain ⟨actual, nothing⟩ := awaitProbe_actual two other awaited synchronised
      rw [Synced.waited_actual synchronised actual]
      exact ⟨nothing, fun _ => packet⟩
    · cases continued
      cases connected
  · rw [lost] at connected
    cases connected

theorem readLoop_bytewise (sendAcks : Bool) (onTimeout : OnTimeout) (item : Item) (behind : Bytes)
    {front back : Bytes} (whole : front ++ back = item.bytes) (missing : back ≠ []) :
    readLoop sendAcks onTimeout ⟨front, back ++ behind, true⟩ (replicate back.length (.bytes 1)) =
      some ⟨.success, item.packet, ⟨[], behind, true⟩, []⟩ := by
  -- The buffer waits until `back` is down to its last byte.
  induction back generalizing front with
  | nil => exact absurd rfl missing
  | cons byte back ih =>
    rw [length_cons, replicate_succ, readLoop]
    simp only [cons_append, show min 1 8192 = 1 from rfl, take_succ_cons, take_zero]
    have outstanding : (front ++ [byte]) ++ back = ([item].map Item.bytes).flatten := by
      simpa using whole
    rcases checkForPacket_outstanding sendAcks outstanding with
      waiting | ⟨first, others, left, sent, same, found, rest⟩
    · rw [waiting]
      apply ih
      · simpa using whole
      · rintro rfl
        obtain ⟨sent, found⟩ := checkForPacket_item sendAcks item []
        rw [append_nil, ← whole] at found
        have complete : checkForPacket sendAcks front [byte] = _ := found
        rw [waiting] at complete
        cases complete
    · cases same
      obtain ⟨rfl, rfl⟩ := append_eq_nil_iff.mp rest
      rw [found]
      rfl

theorem item_bytes_ne_nil (item : Item) : item.bytes ≠ [] := by
  cases item with
  | ack => exact cons_ne_nil _ _
  | replied reply => exact cons_ne_nil _ _

/-- The reply to the request comes after the timeout and looks like the response to the
probe: it is dropped, and the response to the probe stays behind. -/
theorem waitForPacketNoLock_confused (probeReply : Reply) (confused : probe.matches reply.packet = true) :
    waitForPacketNoLock false probe probeReply true ⟨[], sentBytes reply.payload, true⟩
        (.timedOut :: replicate (sentBytes reply.payload).length (.bytes 1)) =
      some ⟨.errorReplyTimeout, [], ⟨[], sentBytes probeReply.payload, true⟩, []⟩ := by
  have nothing : checkForPacket false [] [] = some ⟨.invalid, [], [], none⟩ := by decide
  have received := readLoop_bytewise false
    (fun link schedule => some ⟨.errorReplyTimeout, [], link, schedule⟩) (.replied reply)
    (probeReply.answer false) (nil_append _) (item_bytes_ne_nil _)
  have awaited : awaitProbe false probe 3 0 none
      ⟨[], sentBytes reply.payload ++ probeReply.answer false, true⟩
      (replicate (sentBytes reply.payload).length (.bytes 1)) =
        some ⟨true, none, ⟨[], probeReply.answer false, true⟩, []⟩ := by
    rw [awaitProbe, waitWithoutSync, waitForPacket, nothing, bind_some, if_neg (by simp), if_pos rfl]
    simp only [Item.bytes, Item.packet] at received
    simp [received, if_pos confused]
  rw [waitForPacketNoLock, waitForPacket, nothing, bind_some, if_neg (by simp), if_pos rfl, readLoop,
    syncOnTimeout, sendPacketNoLock, if_pos (by simp)]
  simp only [Bool.false_eq_true, if_false, bind_some, awaited]
  rfl

theorem resynchronises_iff (sendAcks : Bool) (probe : Probe) (reply probeReply : Reply) :
    Resynchronises sendAcks probe reply probeReply ↔ sendAcks = true ∨ probe.matches reply.packet = false := by
  constructor
  · intro promised
    by_contra confused
    rw [not_or, Bool.not_eq_true, Bool.not_eq_false] at confused
    obtain ⟨rfl, confused⟩ := confused
    obtain ⟨⟨-, left⟩, -⟩ := promised _ _ true _ ⟨rfl, by simp [Item.bytes]⟩
      (waitForPacketNoLock_confused probeReply confused) rfl
    exact absurd left (by simp [sentBytes])
  · exact resynchronises probeReply

/-- The answer `QC1` to a request `qC`, and to the probe. -/
def currentThread : Reply where
  payload := [0x51, 0x43, 0x31]
  packet := [0x51, 0x43, 0x31]
  closed := by decide
  expands := by decide

theorem not_always_resynchronised : ¬ Resynchronises false ⟨false, 0⟩ currentThread currentThread := by
  intro promised
  obtain ⟨⟨-, left⟩, -⟩ := promised ⟨[], sentBytes currentThread.payload, true⟩
    [.timedOut, .bytes 8192] true
    ⟨.errorReplyTimeout, [], ⟨sentBytes currentThread.payload, [], true⟩, []⟩
    ⟨rfl, by decide⟩ (by decide) rfl
  exact absurd left (by decide)

end Lldb.GdbRemote
