import Lldb.Library.Framing

/-! Packets of the gdb-remote protocol as `GDBRemoteCommunication` cuts them out of the
bytes it receives: `$content#cc` and notifications `%content#cc`, where `cc` is a
checksum in hex, and the one-byte packets `+`, `-` and `^C`.

Characters are signed. What the code leaves undefined is `none`: a repeat marker with
nothing to repeat, and a marker whose operand would stand behind the content. The
history of packets, the log and the decompression of packets are not modelled, and
the buffer is shorter than the range of the 32-bit index of the scan over junk.
-/

set_option autoImplicit false

namespace Lldb.GdbRemote

abbrev Bytes := List UInt8

def plus : UInt8 := 0x2b
def minus : UInt8 := 0x2d
def interruptByte : UInt8 := 0x03
def dollar : UInt8 := 0x24
def percent : UInt8 := 0x25
def hash : UInt8 := 0x23
def star : UInt8 := 0x2a
def escape : UInt8 := 0x7d

def signedChar (c : UInt8) : Int := if c.toNat < 128 then c.toNat else c.toNat - 256

/-- The low byte of an integer, as in a conversion to `char`. -/
def lowByte (value : Int) : UInt8 := UInt8.ofNat (value % 256).toNat

def calculcateChecksum (payload : Bytes) : UInt8 :=
  lowByte (payload.foldl (fun checksum c => checksum + signedChar c) 0)

/-- `isspace` in the C locale. -/
def isspace (c : UInt8) : Bool := c = 0x20 || (0x09 ≤ c && c ≤ 0x0d)

def hexDigit? (c : UInt8) : Option Nat :=
  if 0x30 ≤ c ∧ c ≤ 0x39 then some (c.toNat - 0x30)
  else if 0x41 ≤ c ∧ c ≤ 0x46 then some (c.toNat - 0x37)
  else if 0x61 ≤ c ∧ c ≤ 0x66 then some (c.toNat - 0x57)
  else none

def isxdigit (c : UInt8) : Bool := (hexDigit? c).isSome

/-- The number that the hex digits at the front of a text spell, after `value`. -/
def hexRun (value : Nat) : Bytes → Nat
  | [] => value
  | c :: rest =>
      match hexDigit? c with
      | some digit => hexRun (16 * value + digit) rest
      | none => value

def longMax : Int := 2 ^ 63 - 1

/-- `strtol` in base 16: blanks, a sign, `0x`, then digits for as long as they last. -/
def strtol (text : Bytes) : Int :=
  let text := text.dropWhile isspace
  let unsigned := match text with
    | c :: rest => if c = plus ∨ c = minus then rest else text
    | [] => text
  let digits := match unsigned with
    | zero :: x :: rest => if zero = 0x30 ∧ (x = 0x78 ∨ x = 0x58) then rest else unsigned
    | _ => unsigned
  let value := hexRun 0 digits
  if text.head? = some minus then max (-longMax - 1) (-value) else min longMax value

inductive Head where
  | command
  | header
  | junk
  deriving DecidableEq, Repr

def headOf (byte : UInt8) : Head :=
  if byte = plus ∨ byte = minus ∨ byte = interruptByte then .command
  else if byte = percent ∨ byte = dollar then .header
  else .junk

/-- What the switch on the first byte finds: where a packet's content lies and how many
bytes the packet takes, or that bytes are missing, or that the bytes are junk. -/
inductive Scan where
  | packet (contentStart contentLength totalLength : Nat)
  | incomplete
  | junk
  deriving DecidableEq, Repr

def hashPosition (bytes : Bytes) : Option Nat := bytes.findIdx? fun byte => byte = hash

def scan (bytes : Bytes) : Scan :=
  match bytes with
  | [] => .incomplete
  | first :: _ =>
      match headOf first with
      | .command => .packet 0 1 1
      | .header =>
          match hashPosition bytes with
          | none => .incomplete
          | some hashPos =>
              if hashPos + 2 < bytes.length then .packet 1 (hashPos - 1) (hashPos + 3)
              else .incomplete -- checksum bytes aren't all here yet
      | .junk => .junk

/-- Drop junk up to the next byte that a packet can start with; when there is none,
the last byte stays. -/
def tossJunk (bytes : Bytes) : Bytes :=
  match bytes with
  | [] => []
  | _ :: rest =>
      -- The search starts at the second byte; the byte it ends on stays, junk or not.
      match rest.dropWhile fun byte => headOf byte = .junk with
      | [] => bytes.drop (bytes.length - 1)
      | kept => kept

/-- Copy the content, behind what `packetStr` has already, expanding the run-length
encoding and the escapes. -/
def expand (packetStr : Bytes) : Bytes → Option Bytes
  | [] => some packetStr
  | c :: rest =>
      if c = star then
        match packetStr.getLast?, rest with
        | some charToRepeat, count :: rest =>
            -- A count below the blank by three or more repeats nothing.
            expand (packetStr ++ List.replicate (signedChar count + 3 - 32).toNat charToRepeat) rest
        | _, _ => none
      else if c = escape then
        match rest with
        | escapee :: rest => expand (packetStr ++ [escapee ^^^ 0x20]) rest
        | [] => none
      else expand (packetStr ++ [c]) rest

theorem expand_escape (packetStr rest : Bytes) (escapee : UInt8) :
    expand packetStr (escape :: escapee :: rest) = expand (packetStr ++ [escapee ^^^ 0x20]) rest := by
  rw [expand.eq_def]
  rfl

theorem expand_plain (packetStr rest : Bytes) {c : UInt8} (notRepeat : c ≠ star)
    (notEscape : c ≠ escape) : expand packetStr (c :: rest) = expand (packetStr ++ [c]) rest := by
  rw [expand.eq_def]
  simp [notRepeat, notEscape]

inductive PacketType where
  | invalid
  | standard
  | notify
  deriving DecidableEq, Repr

inductive Ack where
  | ack
  | nack
  deriving DecidableEq, Repr

/-- The answer sent for a packet whose checksum stands at `checksumIdx`. -/
def checksumReply (sendAcks : Bool) (bytes content : Bytes) (checksumIdx : Nat) : Option Ack :=
  let digits := bytes.drop checksumIdx
  if (digits.take 2).any isxdigit then
    if sendAcks then
      some (if lowByte (strtol digits) = calculcateChecksum content then .ack else .nack)
    else none
  else none

/-- What `CheckForPacket` leaves behind: its result, the packet, `m_bytes`, and the
answer it sent. -/
structure Checked where
  packetType : PacketType
  packet : Bytes
  bytes : Bytes
  sent : Option Ack
  deriving DecidableEq, Repr

/-- Take a complete packet off the front of the buffer. The outcome of the checksum
test decides the answer only. -/
def takePacket (sendAcks : Bool) (bytes : Bytes) (contentStart contentLength totalLength : Nat) : Option Checked :=
  let content := (bytes.drop contentStart).take contentLength
  (expand [] content).map fun packet =>
    { packetType := if bytes.head? = some percent then .notify else .standard
      packet
      bytes := bytes.drop totalLength
      -- The one-byte packets have no checksum and get no answer.
      sent :=
        if bytes.head? = some dollar ∨ bytes.head? = some percent then
          checksumReply sendAcks bytes content (totalLength - 2)
        else none }

def checkForPacket (sendAcks : Bool) (buffered src : Bytes) : Option Checked :=
  let bytes := buffered ++ src
  match scan bytes with
  | .incomplete => some ⟨.invalid, [], bytes, none⟩
  -- Dropping junk ends the call, even if a whole packet is in front now.
  | .junk => some ⟨.invalid, [], tossJunk bytes, none⟩
  | .packet contentStart contentLength totalLength =>
      takePacket sendAcks bytes contentStart contentLength totalLength

/-- A packet put in the queue, or the C string in the event a notification is put in. -/
inductive Delivery where
  | queued (packet : Bytes)
  | gotNotify (data : Bytes)
  deriving DecidableEq, Repr

def cString (bytes : Bytes) : Bytes := bytes.takeWhile (· ≠ 0)

def Checked.deliveries (checked : Checked) : List Delivery :=
  match checked.packetType with
  | .invalid => []
  | .standard => [.queued checked.packet]
  | .notify => [.gotNotify (cString checked.packet)]

structure Appended where
  delivered : List Delivery
  sent : List Ack
  bytes : Bytes
  deriving DecidableEq, Repr

def Appended.after (appended : Appended) (checked : Checked) : Appended :=
  { appended with
    delivered := checked.deliveries ++ appended.delivered
    sent := checked.sent.toList ++ appended.sent }

variable {bytes : Bytes} {start length total : Nat}

theorem takePacket_eq_some {sendAcks : Bool}
    {checked : Checked} (taken : takePacket sendAcks bytes start length total = some checked) :
    expand [] ((bytes.drop start).take length) = some checked.packet ∧ checked.bytes = bytes.drop total ∧
      checked.packetType = (if bytes.head? = some percent then .notify else .standard) ∧
      checked.sent = (if bytes.head? = some dollar ∨ bytes.head? = some percent then
        checksumReply sendAcks bytes ((bytes.drop start).take length) (total - 2) else none) := by
  obtain ⟨packet, expanded, rfl⟩ := Option.map_eq_some_iff.mp taken
  exact ⟨expanded, rfl, rfl, rfl⟩

theorem scan_cases (found : scan bytes = .packet start length total) : ∃ first tail, bytes = first :: tail ∧
      (headOf first = .command ∧ start = 0 ∧ length = 1 ∧ total = 1 ∨
        headOf first = .header ∧ ∃ hashPos, hashPosition bytes = some hashPos ∧
          hashPos + 2 < bytes.length ∧ start = 1 ∧ length = hashPos - 1 ∧ total = hashPos + 3) := by
  cases bytes with
  | nil => cases found
  | cons first tail =>
    refine ⟨first, tail, rfl, ?_⟩
    simp only [scan] at found
    cases kind : headOf first with
    | command =>
      simp only [kind, Scan.packet.injEq] at found
      exact .inl ⟨rfl, found.1.symm, found.2.1.symm, found.2.2.symm⟩
    | junk => simp [kind] at found
    | header =>
      simp only [kind] at found
      split at found
      · cases found
      · next hashPos position =>
        split at found
        · next inside =>
          cases found
          exact .inr ⟨rfl, hashPos, position, inside, rfl, rfl, rfl⟩
        · cases found

theorem scan_packet (found : scan bytes = .packet start length total) :
    0 < total ∧ total ≤ bytes.length ∧ start + length ≤ total := by
  obtain ⟨first, tail, rfl, ⟨-, rfl, rfl, rfl⟩ | ⟨-, hashPos, -, inside, rfl, rfl, rfl⟩⟩ := scan_cases found
  · simp
  · omega

theorem checkForPacket_shortens {sendAcks : Bool} {buffered src : Bytes} {checked : Checked}
    (found : checkForPacket sendAcks buffered src = some checked)
    (taken : checked.packetType ≠ .invalid) :
    checked.bytes.length < buffered.length + src.length := by
  simp only [checkForPacket] at found
  split at found
  · cases found; exact absurd rfl taken
  · cases found; exact absurd rfl taken
  · next packet =>
    obtain ⟨positive, within, -⟩ := scan_packet packet
    rw [(takePacket_eq_some found).2.1]
    simp only [List.length_drop, List.length_append] at within ⊢
    omega

def appendBytesToCache (sendAcks : Bool) (buffered src : Bytes) : Option Appended :=
  match found : checkForPacket sendAcks buffered src with
  | none => none
  | some checked =>
      if taken : checked.packetType = .invalid then some ⟨[], checked.sent.toList, checked.bytes⟩
      else
        have _shorter := checkForPacket_shortens found taken
        (appendBytesToCache sendAcks checked.bytes []).map (·.after checked)
termination_by buffered.length + src.length

variable {sendAcks : Bool} {buffered src : Bytes} {checked : Checked}

theorem appendBytesToCache_of_none (undefined : checkForPacket sendAcks buffered src = none) :
    appendBytesToCache sendAcks buffered src = none := by
  unfold appendBytesToCache
  split
  · rfl
  · next found => rw [undefined] at found; cases found

theorem appendBytesToCache_of_invalid (found : checkForPacket sendAcks buffered src = some checked)
    (invalid : checked.packetType = .invalid) :
    appendBytesToCache sendAcks buffered src = some ⟨[], checked.sent.toList, checked.bytes⟩ := by
  unfold appendBytesToCache
  split
  · next undefined => rw [found] at undefined; cases undefined
  · next same =>
    rw [found] at same
    cases same
    rw [dif_pos invalid]

theorem appendBytesToCache_of_packet (found : checkForPacket sendAcks buffered src = some checked)
    (taken : checked.packetType ≠ .invalid) :
    appendBytesToCache sendAcks buffered src =
      (appendBytesToCache sendAcks checked.bytes []).map (·.after checked) := by
  rw [appendBytesToCache]
  split
  · next undefined => rw [found] at undefined; cases undefined
  · next same =>
    rw [found] at same
    cases same
    rw [dif_neg taken]

end Lldb.GdbRemote
