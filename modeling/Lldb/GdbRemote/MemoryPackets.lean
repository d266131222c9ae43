import Lldb.GdbRemote.StringExtractor
import Lldb.Target.MemoryCacheRead

/-! Reading and writing memory over the protocol: `DoReadMemory` and `DoWriteMemory` of the
client against `Handle_memory_read` and `Handle_M` of the server.

The process answers reads without its traps, up to the first byte it cannot read, and it
may write a part of what it is asked to. The memory written is not flash memory.
-/

set_option autoImplicit false

namespace Lldb

open List

namespace GdbRemote

def comma : UInt8 := 0x2c
def colon : UInt8 := 0x3a
def semicolon : UInt8 := 0x3b

inductive ResponseType where
  | unsupported
  | ack
  | nack
  | error
  | ok
  | response
  deriving DecidableEq, Repr

/-- Whether a reply that starts with `E` is an error: two digits, and after them nothing or a
semicolon with hex digits only. -/
def isErrorText : Bytes → Bool
  | first :: second :: tail =>
      isxdigit first && isxdigit second &&
        match tail with
        | [] => true
        | c :: errString => c = semicolon && errString.all isxdigit
  | _ => false

def getResponseType (packet : Bytes) : ResponseType :=
  match packet with
  | [] => .unsupported
  | first :: rest =>
      if first = 0x45 ∧ isErrorText rest then .error
      else if packet = ascii "OK" then .ok
      else if packet = [plus] then .ack
      else if packet = [minus] then .nack
      else .response

/-! The server. -/

def sendErrorResponse (err : Nat) : Bytes := ascii "E" ++ hexText 2 err
def sendIllFormedResponse : Bytes := sendErrorResponse 0x03
def sendOKResponse : Bytes := ascii "OK"

/-- The address and the number of bytes that an `m`, `x` or `M` packet asks for, and what
follows them; `none` where a part of the packet is missing. -/
def getAddressAndCount (packet : Bytes) : Option (Nat × Nat × StringExtractor) :=
  let fields : StringExtractor := some (packet.drop 1)
  if fields.getBytesLeft < 1 then none
  else
    let (address, fields) := fields.getHexMaxU64 0
    if fields.getBytesLeft < 1 then none
    else
      let (separator, fields) := fields.getChar 0
      if separator ≠ comma then none
      else if fields.getBytesLeft < 1 then none
      else
        let (byteCount, fields) := fields.getHexMaxU64 0
        some (address, byteCount, fields)

/-- The answer to an `m` or `x` packet. -/
def handleMemoryRead (process : Option Inferior) (packet : Bytes) : Bytes :=
  match process with
  | none => sendErrorResponse 0x15
  | some inferior =>
      match getAddressAndCount packet with
      | none => sendIllFormedResponse
      | some (readAddr, byteCount, _) =>
          if byteCount = 0 then sendOKResponse
          else
            let bytesRead := inferior.readMemoryFromInferior readAddr byteCount
            if bytesRead = [] then sendErrorResponse 0x08
            -- The buffer is zeroed, and `x` sends all of it; `m` sends what was read.
            else if packet.head? = some 0x78 then
              putEscapedBytes (bytesRead ++ replicate (byteCount - bytesRead.length) 0)
            else bytesRead.flatMap putHex8

/-- What `WriteMemory` of the process reports: whether it failed, and how many bytes from the
front of the request it has written. -/
structure Written where
  failed : Bool
  bytesWritten : Nat
  deriving DecidableEq, Repr

structure NativeProcess where
  memory : Inferior
  writeMemory : Nat → Bytes → Written

/-- The answer to an `M` packet, if there is one, and the process it leaves. -/
def handleM (process : Option NativeProcess) (packet : Bytes) : Option Bytes × Option NativeProcess :=
  match process with
  | none => (some (sendErrorResponse 0x15), none)
  | some native =>
      match getAddressAndCount packet with
      | none => (some sendIllFormedResponse, process)
      | some (writeAddr, byteCount, fields) =>
          -- A request for no bytes is a success, but nothing is sent.
          if byteCount = 0 then (none, process)
          else if fields.getBytesLeft < 1 then (some sendIllFormedResponse, process)
          else
            let (separator, fields) := fields.getChar 0
            if separator ≠ colon then (some sendIllFormedResponse, process)
            else
              let buf := (fields.getHexBytes 0 byteCount).1
              if buf.length ≠ byteCount then (some sendIllFormedResponse, process)
              else
                let written := native.writeMemory writeAddr buf
                let memory := native.memory.write writeAddr (buf.take written.bytesWritten)
                (some (if written.failed ∨ written.bytesWritten = 0 then sendErrorResponse 0x09
                  else sendOKResponse), some { native with memory })

/-! The client. -/

structure MemorySettings where
  maxMemorySize : Nat
  remoteMaxPacketSize : Nat
  xPacketSupported : Bool
  deriving DecidableEq, Repr

/-- `m_max_memory_size` after `GetMaxMemorySize`. -/
def getMaxMemorySize (settings : MemorySettings) : Nat :=
  if settings.maxMemorySize ≠ 0 then settings.maxMemorySize
  else if settings.remoteMaxPacketSize ≠ 2 ^ 64 - 1 ∧ settings.remoteMaxPacketSize ≠ 0 then
    let stubMaxSize := min settings.remoteMaxPacketSize (128 * 1024)
    if 70 < stubMaxSize then stubMaxSize - (32 + 32 + 6) else stubMaxSize
  else 512

def readLimit (settings : MemorySettings) : Nat :=
  if settings.xPacketSupported then getMaxMemorySize settings else getMaxMemorySize settings / 2

def writeLimit (settings : MemorySettings) : Nat := getMaxMemorySize settings / 2

/-- The front of a memory packet: its kind, the address and the number of bytes. -/
def memoryRequest (kind : UInt8) (address size : Nat) (rest : Bytes) : Bytes :=
  kind :: (hexText 1 address ++ comma :: (hexText 1 size ++ rest))

def quoted (text : Bytes) : Bytes := ascii "'" ++ cString text ++ ascii "'"

/-- What a failed request reports, from the reply to it: none, an error or one that makes no sense. -/
def memoryError (operation : String) (packet : Bytes) (address : Nat) (reply : Option Bytes) : Bytes :=
  match reply with
  | none => ascii "failed to send packet: " ++ quoted packet
  | some response =>
      match getResponseType response with
      | .error => ascii s!"memory {operation} failed for 0x" ++ hexText 1 address
      | .unsupported => ascii "GDB server does not support " ++
          ascii (if operation = "read" then "reading memory" else "writing memory")
      | _ => ascii s!"unexpected response to GDB server memory {operation} packet " ++
          quoted packet ++ ascii ": " ++ quoted response

/-- The bytes that `DoReadMemory` puts into its buffer and counts, or its error. -/
def doReadMemory (settings : MemorySettings) (sendPacketAndWaitForResponse : Bytes → Option Bytes)
    (address size : Nat) : Except Bytes Bytes :=
  let size := min size (readLimit settings)
  let packet := memoryRequest (if settings.xPacketSupported then 0x78 else 0x6d) address size []
  let reply := sendPacketAndWaitForResponse packet
  match reply with
  | none => .error (memoryError "read" packet address reply)
  | some response =>
      if getResponseType response = .response then
        .ok (if settings.xPacketSupported then response.take size
          else (StringExtractor.getHexBytes 0xdd size (some response)).1)
      else .error (memoryError "read" packet address reply)

/-- How many bytes of `buf` are written, or the error, and what the exchange leaves. -/
def doWriteMemory {σ : Type} (settings : MemorySettings)
    (sendPacketAndWaitForResponse : Bytes → Option Bytes × σ) (address : Nat) (buf : Bytes) :
    Except Bytes Nat × σ :=
  let size := min buf.length (writeLimit settings)
  let packet := memoryRequest 0x4d address size (colon :: (buf.take size).flatMap putHex8)
  let (reply, after) := sendPacketAndWaitForResponse packet
  (match reply with
    | none => .error (memoryError "write" packet address reply)
    | some response =>
        if getResponseType response = .ok then .ok size
        else .error (memoryError "write" packet address reply), after)

def exchange {σ : Type} (handle : Bytes → Option Bytes × σ) (unchanged : σ) (payload : Bytes) : Option Bytes × σ :=
  match expand [] payload with
  | none => (none, unchanged)
  | some packet => ((handle packet).1.bind (expand []), (handle packet).2)

/-- `DoReadMemory` against a server whose process is stopped. -/
def readMemory (settings : MemorySettings) (inferior : Inferior) (address size : Nat) : Except Bytes Bytes :=
  doReadMemory settings
    (fun payload => (exchange (fun packet => (some (handleMemoryRead (some inferior) packet), ())) () payload).1)
    address size

/-- `DoWriteMemory` against a server whose process is stopped. -/
def writeMemory (settings : MemorySettings) (native : NativeProcess) (address : Nat) (buf : Bytes) :
    Except Bytes Nat × Option NativeProcess :=
  doWriteMemory settings (exchange (handleM (some native)) (some native)) address buf

def returnedBytes (outcome : Except Bytes Bytes) : Bytes := outcome.toOption.getD []

def returnedCount (outcome : Except Bytes Nat) : Nat := outcome.toOption.getD 0

/-! What the wire carries. -/

theorem expand_plainText {text : Bytes} (packetStr : Bytes)
    (plain : ∀ c ∈ text, c ≠ star ∧ c ≠ escape) : expand packetStr text = some (packetStr ++ text) := by
  induction text generalizing packetStr with
  | nil => rw [expand, append_nil]
  | cons c text ih =>
    obtain ⟨notStar, notEscape⟩ := plain c mem_cons_self
    simp [expand_plain packetStr text notStar notEscape, ih (packetStr ++ [c]) fun other member => plain other (mem_cons_of_mem c member)]

theorem nibbleChar_plain : ∀ nibble < 16, nibbleChar nibble ≠ star ∧ nibbleChar nibble ≠ escape := by decide

theorem hexText_plain {precision value : Nat} : ∀ c ∈ hexText precision value, c ≠ star ∧ c ≠ escape := by
  intro c member
  obtain ⟨nibble, inside, rfl⟩ := mem_map.mp member
  exact nibbleChar_plain nibble (hexNibbles_small inside)

variable {data : Bytes} {address size : Nat}

theorem putHex8_plain : ∀ c ∈ data.flatMap putHex8, c ≠ star ∧ c ≠ escape := by
  intro c member
  obtain ⟨byte, -, digit⟩ := mem_flatMap.mp member
  have bounded := byte.toNat_lt
  rcases mem_pair.mp digit with rfl | rfl <;> exact nibbleChar_plain _ (by omega)

theorem memoryRequest_plain {kind : UInt8} (letter : kind ≠ star ∧ kind ≠ escape)
    {rest : Bytes} (plain : ∀ c ∈ rest, c ≠ star ∧ c ≠ escape) :
    ∀ c ∈ memoryRequest kind address size rest, c ≠ star ∧ c ≠ escape := by
  intro c member
  rcases mem_cons.mp member with rfl | member
  · exact letter
  rcases mem_append.mp member with digit | member
  · exact hexText_plain c digit
  rcases mem_cons.mp member with rfl | member
  · decide
  rcases mem_append.mp member with digit | member
  · exact hexText_plain c digit
  · exact plain c member

theorem getAddressAndCount_memoryRequest (kind : UInt8) {rest : Bytes}
    (addressBounded : address < 2 ^ 64) (sizeBounded : size < 2 ^ 64) (stop : NoDigitFirst rest) :
    getAddressAndCount (memoryRequest kind address size rest) = some (address, size, some rest) := by
  have some : ∀ value : Nat, hexText 1 value ≠ [] := by
    intro value empty
    have length := length_hexNibbles 1 value
    rw [map_eq_nil_iff.mp empty, length_nil] at length
    omega
  have commaStops : NoDigitFirst (comma :: (hexText 1 size ++ rest)) := by
    rintro c ⟨⟩
    decide
  have readAddress := StringExtractor.getHexMaxU64_hexText 0 one_pos (by decide) addressBounded commaStops
  have readSize := StringExtractor.getHexMaxU64_hexText 0 one_pos (by decide) sizeBounded stop
  simp only [getAddressAndCount, memoryRequest, drop_succ_cons, drop_zero, readAddress,
    StringExtractor.getChar, readSize, StringExtractor.getBytesLeft]
  simp [some]

/-! Reading. -/

theorem getResponseType_putHex8 (some : data ≠ []) : getResponseType (data.flatMap putHex8) = .response := by
  have letters : ∀ nibble < 16, nibbleChar nibble ≠ 0x45 ∧ nibbleChar nibble ≠ 0x4f := by decide
  cases data with
  | nil => exact absurd rfl some
  | cons byte data =>
    have bounded := byte.toNat_lt
    have first := letters (byte.toNat / 16) (by omega)
    simp [getResponseType, putHex8, first.1, first.2, ascii]

def readReply (binary : Bool) (inferior : Inferior) (address size : Nat) : Bytes :=
  let bytesRead := inferior.readMemoryFromInferior address size
  if size = 0 then sendOKResponse
  else if bytesRead = [] then sendErrorResponse 0x08
  else if binary then bytesRead ++ replicate (size - bytesRead.length) 0
  else bytesRead.flatMap putHex8

theorem exchange_read (binary : Bool) (inferior : Inferior)
    (addressBounded : address < 2 ^ 64) (sizeBounded : size < 2 ^ 64) :
    (exchange (fun packet => (some (handleMemoryRead (some inferior) packet), ())) ()
      (memoryRequest (if binary then 0x78 else 0x6d) address size [])).1 =
      some (readReply binary inferior address size) := by
  have letter : (if binary then 0x78 else 0x6d) ≠ star ∧ (if binary then 0x78 else 0x6d) ≠ escape := by
    cases binary <;> decide
  have sent := expand_plainText [] (memoryRequest_plain letter nofun : ∀ c ∈ memoryRequest
    (if binary then 0x78 else 0x6d) address size [], c ≠ star ∧ c ≠ escape)
  rw [nil_append] at sent
  simp only [exchange, sent, handleMemoryRead,
    getAddressAndCount_memoryRequest _ addressBounded sizeBounded (show NoDigitFirst [] from nofun)]
  by_cases nothing : size = 0
  · rw [readReply, if_pos nothing, if_pos nothing]
    decide
  by_cases empty : inferior.readMemoryFromInferior address size = []
  · rw [readReply, if_neg nothing, if_neg nothing, if_pos empty, if_pos empty]
    decide
  · rw [readReply, if_neg nothing, if_neg nothing, if_neg empty, if_neg empty]
    cases binary with
    | true => simp [memoryRequest, expand_putEscapedBytes]
    | false => simp [memoryRequest, expand_plainText [] putHex8_plain]

variable (settings : MemorySettings)

/-- Reading a range of which nothing is readable, or with nothing to ask for, returns nothing;
the rest is decided by the bytes there. -/
theorem returnedBytes_readMemory (inferior : Inferior)
    (addressBounded : address < 2 ^ 64) (sizeBounded : size < 2 ^ 64) :
    returnedBytes (readMemory settings inferior address size) = let size := min size (readLimit settings)
      let bytesRead := inferior.readMemoryFromInferior address size
      if bytesRead = [] then []
      else if settings.xPacketSupported then
        let padded := bytesRead ++ replicate (size - bytesRead.length) 0
        if getResponseType padded = .response then padded else []
      else bytesRead := by
  have short := inferior.length_readMemoryFromInferior_le address (min size (readLimit settings))
  have reply := exchange_read settings.xPacketSupported inferior addressBounded
    (show min size (readLimit settings) < 2 ^ 64 by omega)
  simp only [readMemory, doReadMemory, reply]
  generalize min size (readLimit settings) = size at short ⊢
  by_cases empty : inferior.readMemoryFromInferior address size = []
  · have refused : getResponseType (readReply settings.xPacketSupported inferior address size) ≠ .response := by
      unfold readReply
      simp only [if_true]
      split <;> decide
    simp [refused, empty, returnedBytes, Except.toOption]
  · have positive : size ≠ 0 := by
      rintro rfl
      exact empty rfl
    simp only [readReply, positive, empty, if_false]
    cases settings.xPacketSupported with
    | true =>
      have whole : (inferior.readMemoryFromInferior address size ++
          replicate (size - (inferior.readMemoryFromInferior address size).length) 0).take size =
          inferior.readMemoryFromInferior address size ++
            replicate (size - (inferior.readMemoryFromInferior address size).length) 0 := by
        apply take_of_length_le
        rw [length_append, length_replicate]
        omega
      simp only [if_true, whole]
      split <;> rfl
    | false =>
      simp [getResponseType_putHex8 empty, StringExtractor.getHexBytes_putHex8 _ short, returnedBytes, Except.toOption]

/-- What a read is to return: bytes of the readable front of the range, and some if it has any. -/
def ReadAgrees (inferior : Inferior) (address size : Nat) (returned : Bytes) : Prop :=
  returned <+: inferior.readMemoryFromInferior address size ∧
    (inferior.readMemoryFromInferior address size ≠ [] → returned ≠ [])

/-- Nothing is readable; or a packet can ask for something, and if it asks in binary, no byte it asks
for is missing and the bytes do not look like an error, an `OK` or an acknowledgement. -/
def ReadHandled (settings : MemorySettings) (inferior : Inferior) (address size : Nat) : Prop :=
  let count := min size (readLimit settings)
  let bytesRead := inferior.readMemoryFromInferior address count
  inferior.readMemoryFromInferior address size = [] ∨ 0 < count ∧ (settings.xPacketSupported →
      bytesRead.length = count ∧ getResponseType bytesRead = .response)

theorem readMemory_agrees_iff (inferior : Inferior)
    (addressBounded : address < 2 ^ 64) (sizeBounded : size < 2 ^ 64) :
    ReadAgrees inferior address size (returnedBytes (readMemory settings inferior address size)) ↔
      ReadHandled settings inferior address size := by
  have short := inferior.length_readMemoryFromInferior_le address size
  rw [returnedBytes_readMemory settings inferior addressBounded sizeBounded]
  simp only [ReadAgrees, ReadHandled, ← inferior.take_readMemoryFromInferior address _ size]
  generalize readLimit settings = limit at *
  generalize inferior.readMemoryFromInferior address size = readable at *
  by_cases unreadable : readable = []
  · simp [unreadable]
  have someReadable := length_pos_iff.mpr unreadable
  by_cases asked : 0 < min size limit
  · have some : readable.take limit ≠ [] := by
      rw [← length_pos_iff, length_take]
      omega
    simp only [unreadable, some, asked, if_false, false_or, true_and]
    cases settings.xPacketSupported with
    | false => simp [some, take_prefix]
    | true =>
      simp only [if_true, forall_const]
      by_cases whole : (readable.take limit).length = min size limit
      · simp only [whole, Nat.sub_self, replicate_zero, append_nil]
        split
        · next response => simp [response, some, take_prefix]
        · next refused => simp [refused, unreadable]
      -- A hole in the range: what was not read is sent as zeros, or nothing is returned.
      · have padded : ¬ readable.take limit ++
            replicate (min size limit - (readable.take limit).length) 0 <+: readable := by
          intro front
          have longer := List.IsPrefix.length_le front
          rw [length_append, length_replicate] at longer
          rw [length_take] at whole longer
          omega
        split
        · exact iff_of_false (fun agrees => padded agrees.1) fun handled => whole handled.1
        · exact iff_of_false (fun agrees => agrees.2 unreadable rfl) fun handled => whole handled.1
  · have none : limit = 0 := by omega
    simp [none]

/-! Writing. -/

theorem exchange_write (native : NativeProcess)
    (addressBounded : address < 2 ^ 64) (lengthBounded : data.length < 2 ^ 64) :
    exchange (handleM (some native)) (some native)
      (memoryRequest 0x4d address data.length (colon :: data.flatMap putHex8)) =
      if data = [] then (none, some native)
      else
        let written := native.writeMemory address data
        (some (if written.failed ∨ written.bytesWritten = 0 then sendErrorResponse 0x09 else sendOKResponse),
          some { native with memory := native.memory.write address (data.take written.bytesWritten) }) := by
  have plain : ∀ c ∈ memoryRequest 0x4d address data.length (colon :: data.flatMap putHex8),
      c ≠ star ∧ c ≠ escape := by
    apply memoryRequest_plain (by decide)
    intro c member
    rcases mem_cons.mp member with rfl | digit
    · decide
    · exact putHex8_plain c digit
  have colonStops : NoDigitFirst (colon :: data.flatMap putHex8) := by
    rintro c ⟨⟩
    decide
  have sent := expand_plainText [] plain
  rw [nil_append] at sent
  have decoded := StringExtractor.getHexBytes_putHex8 0 (le_refl data.length)
  simp only [exchange, sent, handleM,
    getAddressAndCount_memoryRequest _ addressBounded lengthBounded colonStops, length_eq_zero_iff]
  by_cases empty : data = []
  · simp [empty]
  · simp only [empty, StringExtractor.getBytesLeft, StringExtractor.getChar, decoded]
    have refused : expand [] (sendErrorResponse 0x09) = some (sendErrorResponse 0x09) := by decide
    have confirmed : expand [] sendOKResponse = some sendOKResponse := by decide
    by_cases nothing : (native.writeMemory address data).failed ∨ (native.writeMemory address data).bytesWritten = 0
    · simp [nothing, refused]
    · simp [nothing, confirmed]

/-- What a write is to leave: the bytes it counts, in the memory of the process. -/
def WriteAgrees (address : Nat) (buf : Bytes) (outcome : Except Bytes Nat × Option NativeProcess) : Prop :=
  ∃ after, outcome.2 = some after ∧ ∀ index < returnedCount outcome.1, ∃ byte, buf[index]? = some byte ∧
    after.memory ((address + index) % 2 ^ 64) = some byte

/-- The process refuses the write, or the bytes it was sent and has not written are there already. -/
def WriteHandled (settings : MemorySettings) (native : NativeProcess) (address : Nat) (buf : Bytes) : Prop :=
  let count := min buf.length (writeLimit settings)
  let written := native.writeMemory address (buf.take count)
  written.failed ∨ written.bytesWritten = 0 ∨ ∀ index, written.bytesWritten ≤ index → index < count →
      native.memory ((address + index) % 2 ^ 64) = buf[index]?

theorem writeMemory_agrees_iff (native : NativeProcess)
    {buf : Bytes} (addressBounded : address < 2 ^ 64) (lengthBounded : buf.length < 2 ^ 64) :
    WriteAgrees address buf (writeMemory settings native address buf) ↔ WriteHandled settings native address buf := by
  simp only [writeMemory, doWriteMemory, WriteHandled]
  generalize writeLimit settings = limit
  have length : (buf.take (min buf.length limit)).length = min buf.length limit := by
    rw [length_take]
    omega
  have sent := exchange_write native addressBounded
    (show (buf.take (min buf.length limit)).length < 2 ^ 64 by omega)
  rw [length] at sent
  rw [sent]
  by_cases empty : buf.take (min buf.length limit) = []
  · have none : min buf.length limit = 0 := by rw [← length, empty, length_nil]
    simp [none, WriteAgrees, returnedCount, Except.toOption]
  simp only [empty]
  generalize written : native.writeMemory address (buf.take (min buf.length limit)) = outcome
  by_cases refused : outcome.failed ∨ outcome.bytesWritten = 0
  · have error : getResponseType (sendErrorResponse 0x09) ≠ .ok := by decide
    rcases refused with failed | nothing
    · simp [failed, error, WriteAgrees, returnedCount, Except.toOption]
    · simp [nothing, error, WriteAgrees, returnedCount, Except.toOption]
  have confirmed : getResponseType sendOKResponse = .ok := by decide
  rw [← or_assoc, or_iff_right refused]
  simp only [refused, if_false, confirmed, if_true, WriteAgrees, returnedCount, Except.toOption,
    Option.getD_some, Option.some.injEq, exists_eq_left']
  -- What memory holds then: the new byte where one was written, the old one elsewhere.
  have held : ∀ index < min buf.length limit,
      native.memory.write address ((buf.take (min buf.length limit)).take outcome.bytesWritten)
        ((address + index) % 2 ^ 64) =
      if index < outcome.bytesWritten then buf[index]?
      else native.memory ((address + index) % 2 ^ 64) := by
    intro index inside
    rw [Inferior.write_eq _ _ _ (by omega), take_take, getElem?_take,
      getElem?_eq_getElem (show index < buf.length by omega)]
    by_cases done : index < outcome.bytesWritten
    · rw [if_pos (by omega), if_pos done, Option.some_or]
    · rw [if_neg (by omega), if_neg done, Option.none_or]
  constructor
  · intro agrees index unwritten inside
    obtain ⟨byte, asked, same⟩ := agrees index inside
    rw [held index inside, if_neg (by omega)] at same
    rw [same, asked]
  · intro handled index inside
    have asked := getElem?_eq_getElem (show index < buf.length by omega)
    refine ⟨_, asked, ?_⟩
    rw [held index inside]
    split
    · exact asked
    · next unwritten => rw [handled index (by omega) inside, asked]

/-- A transfer agrees with memory unless a read meets one of the cases that the reply cannot tell,
or a write is cut short and confirmed. -/
theorem memory_transfers_agree_iff (settings : MemorySettings) (native : NativeProcess)
    {address size : Nat} {buf : Bytes} (addressBounded : address < 2 ^ 64) (sizeBounded : size < 2 ^ 64)
    (lengthBounded : buf.length < 2 ^ 64) :
    (ReadAgrees native.memory address size
        (returnedBytes (readMemory settings native.memory address size)) ↔
      ReadHandled settings native.memory address size) ∧
    (WriteAgrees address buf (writeMemory settings native address buf) ↔ WriteHandled settings native address buf) :=
  ⟨readMemory_agrees_iff settings native.memory addressBounded sizeBounded,
    writeMemory_agrees_iff settings native addressBounded lengthBounded⟩

/-- Two bytes at 0x1000, which spell `OK`, and a process that writes one byte at a time. -/
def okInMemory : NativeProcess :=
  ⟨fun address => if address = 0x1000 then some 0x4f else if address = 0x1001 then some 0x4b else none,
    fun _ _ => ⟨false, 1⟩⟩

theorem memory_transfers_agree_iff_okInMemory : (ReadAgrees okInMemory.memory 0x1000 2
        (returnedBytes (readMemory ⟨512, 0, true⟩ okInMemory.memory 0x1000 2)) ↔
      ReadHandled ⟨512, 0, true⟩ okInMemory.memory 0x1000 2) ∧
    (WriteAgrees 0x1000 [1, 2] (writeMemory ⟨512, 0, true⟩ okInMemory 0x1000 [1, 2]) ↔
      WriteHandled ⟨512, 0, true⟩ okInMemory 0x1000 [1, 2]) :=
  memory_transfers_agree_iff ⟨512, 0, true⟩ okInMemory (by decide) (by decide) (by decide)

/-- A binary read of the two bytes returns nothing, and a write of two bytes counts both and stores one. -/
theorem memory_transfers_not_always_agree : ¬ ReadAgrees okInMemory.memory 0x1000 2
        (returnedBytes (readMemory ⟨512, 0, true⟩ okInMemory.memory 0x1000 2)) ∧
    ¬ WriteAgrees 0x1000 [1, 2] (writeMemory ⟨512, 0, true⟩ okInMemory 0x1000 [1, 2]) := by
  constructor
  · intro agrees
    exact agrees.2 (by decide) (by decide)
  · rintro ⟨after, left, agrees⟩
    obtain ⟨byte, asked, held⟩ := agrees 1 (by decide)
    have old : (writeMemory ⟨512, 0, true⟩ okInMemory 0x1000 [1, 2]).2.map
        (fun after => after.memory ((0x1000 + 1) % 2 ^ 64)) = some (some 0x4b) := by decide
    rw [left, Option.map_some, held, ← asked] at old
    exact absurd old (by decide)

end GdbRemote
end Lldb
