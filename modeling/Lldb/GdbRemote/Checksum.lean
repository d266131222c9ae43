import Lldb.GdbRemote.Framing
import Mathlib.Data.UInt

/-! Packets that are sent, packets that are received, and their checksums.

The receiver reads the checksum with `strtol`, which does not stop after two digits,
and the outcome of the comparison decides the answer it sends but not what it returns.
-/

set_option autoImplicit false

namespace Lldb.GdbRemote

open List

/-- The bytes that `PutEscapedBytes` appends to a stream. -/
def putEscapedBytes (src : Bytes) : Bytes :=
  src.flatMap fun byte =>
    if byte = hash ∨ byte = dollar ∨ byte = escape ∨ byte = star then [escape, byte ^^^ 0x20]
    else [byte]

def nibbleChar (nibble : Nat) : UInt8 :=
  UInt8.ofNat (if nibble < 10 then 0x30 + nibble else 0x57 + nibble)

def putHex8 (value : UInt8) : Bytes := [nibbleChar (value.toNat / 16), nibbleChar (value.toNat % 16)]

/-- What `SendPacketNoLock` writes for a payload. -/
def sentBytes (payload : Bytes) : Bytes :=
  dollar :: (payload ++ hash :: putHex8 (calculcateChecksum payload))

theorem expand_putEscapedBytes (src packetStr : Bytes) :
    expand packetStr (putEscapedBytes src) = some (packetStr ++ src) := by
  induction src generalizing packetStr with
  | nil => simp [putEscapedBytes, expand]
  | cons byte src ih =>
    have next := ih (packetStr ++ [byte])
    rw [append_assoc] at next
    unfold putEscapedBytes at next ⊢
    rw [flatMap_cons]
    by_cases special : byte = hash ∨ byte = dollar ∨ byte = escape ∨ byte = star
    -- An escaped byte comes back when the receiver flips the same bit.
    · have back : (byte ^^^ 0x20) ^^^ 0x20 = byte := by
        simp [UInt8.xor_assoc]
      rw [if_pos special, cons_append, cons_append, expand_escape, back]
      exact next
    · rw [not_or, not_or, not_or] at special
      rw [if_neg (by simp [special]), singleton_append, expand_plain packetStr _ special.2.2.2 special.2.2.1]
      exact next

theorem hash_not_mem_putEscapedBytes (src : Bytes) : hash ∉ putEscapedBytes src := by
  intro member
  obtain ⟨byte, -, member⟩ := mem_flatMap.mp member
  split at member
  · next special =>
    rcases special with rfl | rfl | rfl | rfl <;> exact absurd member (by decide)
  · next plain =>
    apply plain
    exact .inl (mem_singleton.mp member).symm

variable {first : UInt8} {content : Bytes}

theorem not_hash_of_header (header : headOf first = .header) : first ≠ hash := by
  rintro rfl
  exact absurd header (by decide)

theorem hashPosition_closed (header : headOf first = .header) (closed : hash ∉ content) (behind : Bytes) :
    hashPosition (first :: (content ++ hash :: behind)) = some (content.length + 1) := by
  have inside : content.findIdx? (fun byte => byte = hash) = none := by
    rw [findIdx?_eq_none_iff]
    intro byte member
    have : byte ≠ hash := fun same => closed (same ▸ member)
    simpa using this
  simp [hashPosition, findIdx?_cons, not_hash_of_header header, inside]

theorem content_unique {other behind behind' : Bytes} (closed : hash ∉ content)
    (closed' : hash ∉ other) (same : content ++ hash :: behind = other ++ hash :: behind') :
    content = other ∧ behind = behind' := by
  have position := hashPosition_closed (show headOf dollar = .header from rfl) closed behind
  rw [same, hashPosition_closed rfl closed'] at position
  have lengths : content.length = other.length := (Nat.succ.inj (Option.some.inj position)).symm
  obtain ⟨contents, tails⟩ := append_inj same lengths
  exact ⟨contents, (cons.inj tails).2⟩

theorem scan_complete (header : headOf first = .header) (closed : hash ∉ content) (c1 c2 : UInt8) (following : Bytes) :
    scan (first :: (content ++ hash :: c1 :: c2 :: following)) = .packet 1 content.length (content.length + 4) := by
  simp only [scan, header, hashPosition_closed header closed]
  rw [if_pos (by simp; omega)]
  rfl

theorem complete_of_scan {tail : Bytes} {start length total : Nat}
    (header : headOf first = .header) (found : scan (first :: tail) = .packet start length total) :
    ∃ content c1 c2 following,
      tail = content ++ hash :: c1 :: c2 :: following ∧ hash ∉ content := by
  obtain ⟨_, _, same, ⟨command, -⟩ | ⟨-, hashPos, position, inside, -⟩⟩ := scan_cases found
  · cases same
    cases header.symm.trans command
  have member : hash ∈ tail := by
    obtain ⟨within, atHash, -⟩ := findIdx?_eq_some_iff_getElem.mp position
    have present := getElem_mem within
    rw [of_decide_eq_true atHash] at present
    exact (mem_cons.mp present).resolve_left (not_hash_of_header header).symm
  obtain ⟨content, behind, rfl, closed⟩ := eq_append_cons_of_mem member
  rw [hashPosition_closed header closed] at position
  obtain rfl : content.length + 1 = hashPos := Option.some.inj position
  match behind with
  | [] => simp at inside
  | [_] => simp at inside
  | c1 :: c2 :: following => exact ⟨content, c1, c2, following, rfl, closed⟩

theorem header_iff : headOf first = .header ↔ first = dollar ∨ first = percent := by
  constructor
  · intro header
    unfold headOf at header
    split at header
    · cases header
    · split at header
      · next kind => exact kind.symm
      · cases header
  · rintro (rfl | rfl) <;> rfl

theorem checkForPacket_complete (sendAcks : Bool) (header : headOf first = .header)
    (closed : hash ∉ content) (c1 c2 : UInt8) (following : Bytes) :
    checkForPacket sendAcks [] (first :: (content ++ hash :: c1 :: c2 :: following)) =
      (expand [] content).map fun packet =>
        { packetType := if first = percent then .notify else .standard
          packet
          bytes := following
          sent := checksumReply sendAcks (c1 :: c2 :: following) content 0 } := by
  have marked := header_iff.mp header
  have behind : (first :: (content ++ hash :: c1 :: c2 :: following)).drop (content.length + 4) = following := by
    simp [drop_append]
  have digits : (first :: (content ++ hash :: c1 :: c2 :: following)).drop (content.length + 2) =
      c1 :: c2 :: following := by
    simp [drop_append]
  simp [checkForPacket, scan_complete header closed, takePacket, if_pos marked, checksumReply]

theorem hexDigit_range {c : UInt8} {digit : Nat} (found : hexDigit? c = some digit) :
    digit < 16 ∧ 0x30 ≤ c.toNat ∧ c.toNat < 0x67 ∧ c.toNat ≠ 0x58 := by
  unfold hexDigit? at found
  simp only [UInt8.le_iff_toNat_le, UInt8.reduceToNat] at found
  split at found
  · cases found; omega
  · split at found
    · cases found; omega
    · split at found
      · cases found; omega
      · cases found

/-- `strtol` on two hex digits: no blank, no sign and no `0x`, then every digit that follows. -/
theorem strtol_digits {c1 c2 : UInt8} {high low : Nat} (first : hexDigit? c1 = some high)
    (second : hexDigit? c2 = some low) (following : Bytes) :
    strtol (c1 :: c2 :: following) = min longMax (hexRun (16 * high + low) following) := by
  have range := hexDigit_range first
  have range2 := hexDigit_range second
  -- Nothing to skip in front of the number: a hex digit is no blank, no sign and no `x`.
  have noBlank : isspace c1 = false := by
    simp only [isspace, Bool.or_eq_false_iff, Bool.and_eq_false_iff, decide_eq_false_iff_not,
      UInt8.le_iff_toNat_le, ← UInt8.toNat_inj, UInt8.reduceToNat]
    omega
  have noSign : ¬ (c1 = plus ∨ c1 = minus) := by
    rintro (rfl | rfl)
    · exact absurd range.2.1 (by decide)
    · exact absurd range.2.1 (by decide)
  have noPrefix : ¬ (c1 = 0x30 ∧ (c2 = 0x78 ∨ c2 = 0x58)) := by
    rintro ⟨-, rfl | rfl⟩
    · exact absurd range2.2.2.1 (by decide)
    · exact absurd range2.2.2.2 (by decide)
  rw [not_or] at noSign
  simp [strtol, noBlank, noSign, noPrefix, hexRun, first, second]

theorem hexDigit_nibbleChar : ∀ nibble < 16, hexDigit? (nibbleChar nibble) = some nibble := by
  decide

/-- Hex digits that follow a checksum are read as part of it; they leave its low byte as
it is. -/
def ReadsOnUnchanged (checksum : UInt8) (following : Bytes) : Prop :=
  let value := hexRun checksum.toNat following
  if value ≤ longMax then value % 256 = checksum.toNat else checksum = 0xff

instance (checksum : UInt8) (following : Bytes) : Decidable (ReadsOnUnchanged checksum following) :=
  inferInstanceAs (Decidable (if (hexRun checksum.toNat following : Int) ≤ longMax
    then hexRun checksum.toNat following % 256 = checksum.toNat else checksum = 0xff))

theorem lowByte_eq_iff (checksum : UInt8) (following : Bytes) :
    lowByte (min longMax (hexRun checksum.toNat following)) = checksum ↔ ReadsOnUnchanged checksum following := by
  simp only [ReadsOnUnchanged]
  split
  · next small =>
    rw [lowByte, ← UInt8.toNat_inj, UInt8.toNat_ofNat']
    omega
  · next large =>
    -- Past the range of a `long` the value is its largest, whose low byte is `0xff`.
    rw [Int.min_eq_left (Int.le_of_lt (Int.not_le.mp large))]
    exact eq_comm

def Intact (content : Bytes) (c1 c2 : UInt8) : Prop :=
  ∃ high low, hexDigit? c1 = some high ∧ hexDigit? c2 = some low ∧ 16 * high + low = (calculcateChecksum content).toNat

theorem intact_putHex8 (content : Bytes) : Intact content (nibbleChar ((calculcateChecksum content).toNat / 16))
      (nibbleChar ((calculcateChecksum content).toNat % 16)) := by
  have range := (calculcateChecksum content).toNat_lt
  exact ⟨_, _, hexDigit_nibbleChar _ (by omega), hexDigit_nibbleChar _ (by omega), Nat.div_add_mod _ 16⟩

theorem checksumReply_intact {c1 c2 : UInt8} (intact : Intact content c1 c2) (following : Bytes) :
    checksumReply true (c1 :: c2 :: following) content 0 =
      some (if ReadsOnUnchanged (calculcateChecksum content) following then .ack else .nack) := by
  obtain ⟨high, low, first, second, spelled⟩ := intact
  have digits : (((c1 :: c2 :: following).drop 0).take 2).any isxdigit := by
    simp [isxdigit, first]
  rw [checksumReply, if_pos digits, if_pos rfl, drop_zero, strtol_digits first second, spelled]
  simp [lowByte_eq_iff]

theorem checksumReply_no_acks (bytes content : Bytes) (checksumIdx : Nat) :
    checksumReply false bytes content checksumIdx = none := by
  simp [checksumReply]

theorem checkForPacket_sentBytes (sendAcks : Bool) {payload : Bytes} (closed : hash ∉ payload) (following : Bytes) :
    checkForPacket sendAcks [] (sentBytes payload ++ following) = (expand [] payload).map fun packet =>
        ⟨.standard, packet, following, if sendAcks then
            some (if ReadsOnUnchanged (calculcateChecksum payload) following then .ack else .nack)
          else none⟩ := by
  have shape : sentBytes payload ++ following = dollar :: (payload ++ hash ::
      nibbleChar ((calculcateChecksum payload).toNat / 16) ::
      nibbleChar ((calculcateChecksum payload).toNat % 16) :: following) := by
    simp [sentBytes, putHex8]
  rw [shape, checkForPacket_complete sendAcks rfl closed]
  cases sendAcks with
  | true => simp only [checksumReply_intact (intact_putHex8 payload)]; rfl
  | false => simp only [checksumReply_no_acks]; rfl

theorem sent_packet_comes_back_iff (sendAcks : Bool) (src following : Bytes) :
    checkForPacket sendAcks [] (sentBytes (putEscapedBytes src) ++ following) =
        some ⟨.standard, src, following, if sendAcks then some .ack else none⟩ ↔
      (sendAcks = true → ReadsOnUnchanged (calculcateChecksum (putEscapedBytes src)) following) := by
  rw [checkForPacket_sentBytes sendAcks (hash_not_mem_putEscapedBytes src), expand_putEscapedBytes]
  cases sendAcks with
  | true => simp
  | false => simp

/-- `$OK#9a` and a `1` behind it: the answer is a nack. -/
theorem sent_packet_not_always_acked : checkForPacket true [] (sentBytes (putEscapedBytes [0x4f, 0x4b]) ++ [0x31]) ≠
      some ⟨.standard, [0x4f, 0x4b], [0x31], some .ack⟩ := by
  decide

/-- What `CheckForPacket` hands over with acks enabled, when the buffer starts with `$` or
`%`, is an intact packet that is not answered with a nack. -/
def HandsOverIntact (buffered src : Bytes) : Prop :=
  ∀ checked first tail, checkForPacket true buffered src = some checked →
    checked.packetType ≠ .invalid → buffered ++ src = first :: tail →
    first = dollar ∨ first = percent →
      ∃ content c1 c2 following, tail = content ++ hash :: c1 :: c2 :: following ∧ hash ∉ content ∧
        Intact content c1 c2 ∧ checked.sent ≠ some .nack

/-- A complete packet at the front whose content expands is intact, and the bytes behind
it do not change how its checksum reads. -/
def FrontIntact (bytes : Bytes) : Prop :=
  ∀ first content c1 c2 following, bytes = first :: (content ++ hash :: c1 :: c2 :: following) →
    first = dollar ∨ first = percent → hash ∉ content → (expand [] content).isSome →
      Intact content c1 c2 ∧ ReadsOnUnchanged (calculcateChecksum content) following

theorem hands_over_intact_iff (buffered src : Bytes) :
    HandsOverIntact buffered src ↔ FrontIntact (buffered ++ src) := by
  have whole : checkForPacket true buffered src = checkForPacket true [] (buffered ++ src) := rfl
  unfold HandsOverIntact
  rw [whole]
  generalize buffered ++ src = bytes
  constructor
  -- Hand over the packet at the front, and read off what is promised about it.
  · intro intact first content c1 c2 following shape marked closed expands
    subst shape
    obtain ⟨packet, expanded⟩ := Option.isSome_iff_exists.mp expands
    have found := checkForPacket_complete true (header_iff.mpr marked) closed c1 c2 following
    rw [expanded] at found
    obtain ⟨_, _, _, _, same, closed', spelled, notNack⟩ :=
      intact _ first _ found (by simp only; split <;> simp) rfl marked
    obtain ⟨rfl, tails⟩ := content_unique closed closed' same
    cases tails
    rw [checksumReply_intact spelled] at notNack
    refine ⟨spelled, ?_⟩
    by_contra changed
    simp [changed] at notNack
  -- Only a complete packet is handed over, and the condition speaks of its content.
  · intro front checked first tail found taken shape marked
    subst shape
    have header := header_iff.mpr marked
    cases complete : scan (first :: tail) with
    | incomplete =>
      simp only [checkForPacket, nil_append, complete, Option.some.injEq] at found
      subst found
      exact absurd rfl taken
    | junk =>
      simp only [checkForPacket, nil_append, complete, Option.some.injEq] at found
      subst found
      exact absurd rfl taken
    | packet start length total =>
      obtain ⟨content, c1, c2, following, rfl, closed⟩ := complete_of_scan header complete
      rw [checkForPacket_complete true header closed] at found
      obtain ⟨packet, expanded, rfl⟩ := Option.map_eq_some_iff.mp found
      obtain ⟨spelled, unchanged⟩ := front first content c1 c2 following rfl marked closed (by simp [expanded])
      refine ⟨content, c1, c2, following, rfl, closed, spelled, ?_⟩
      simp [checksumReply_intact spelled, unchanged]

/-- `$OK#00` is answered with a nack and handed over. -/
theorem not_always_intact : ¬ HandsOverIntact [] [0x24, 0x4f, 0x4b, 0x23, 0x30, 0x30] := by
  intro intact
  have found : checkForPacket true [] [0x24, 0x4f, 0x4b, 0x23, 0x30, 0x30] =
      some ⟨.standard, [0x4f, 0x4b], [], some .nack⟩ := by decide
  obtain ⟨_, _, _, _, -, -, -, notNack⟩ := intact _ dollar _ found (by decide) rfl (.inl rfl)
  exact notNack rfl

end Lldb.GdbRemote
