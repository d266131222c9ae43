import Lldb.GdbRemote.Packet
import Mathlib.Data.List.TakeDrop
import Mathlib.Data.List.TakeWhile

/-! Packets out of a stream that arrives in chunks.

`AppendBytesToCache` stops at the first result that is not a packet, and dropping junk
is such a result. Bytes that stand behind junk are therefore looked at again only when
the next chunk comes in.
-/

set_option autoImplicit false

namespace Lldb.GdbRemote

open List Option

/-- The bytes that the packet at the front of a buffer takes, once it is complete. -/
def packetSize (bytes : Bytes) : Option Nat :=
  match scan bytes with
  | .packet _ _ totalLength => some totalLength
  | .incomplete | .junk => none

variable {bytes : Bytes} {start length total : Nat}

theorem hashPosition_frame {hashPos : Nat} (found : hashPosition bytes = some hashPos)
    (more : Bytes) : hashPosition (bytes.take (hashPos + 3) ++ more) = some hashPos := by
  obtain ⟨inside, atHash, before⟩ := findIdx?_eq_some_iff_getElem.mp found
  apply findIdx?_eq_some_iff_getElem.mpr
  refine ⟨by simp only [length_append, length_take]; omega, ?_, ?_⟩
  · rw [getElem_append_left (by rw [length_take]; omega), getElem_take]
    exact atHash
  · intro index below
    rw [getElem_append_left (by rw [length_take]; omega), getElem_take]
    exact before index below

theorem scan_frame (found : scan bytes = .packet start length total) (more : Bytes) :
    scan (bytes.take total ++ more) = .packet start length total := by
  obtain ⟨first, tail, rfl, ⟨kind, rfl, rfl, rfl⟩ | ⟨kind, hashPos, position, inside, rfl, rfl, rfl⟩⟩ :=
    scan_cases found
  · simp [scan, kind]
  · have same := hashPosition_frame position more
    -- The first byte is inside the packet, so the switch on it takes the same branch.
    rw [take_succ_cons, cons_append] at same ⊢
    simp only [scan, kind, same]
    simp only [length_cons] at inside
    rw [if_pos (by simp only [length_cons, length_append, length_take]; omega)]

theorem packetSize_eq_some (found : packetSize bytes = some total) :
    ∃ start length, scan bytes = .packet start length total := by
  unfold packetSize at found
  split at found
  · next packet => cases found; exact ⟨_, _, packet⟩
  · cases found
  · cases found

def packetFramer : Library.Framer UInt8 where
  size := packetSize
  positive found := by
    obtain ⟨start, length, packet⟩ := packetSize_eq_some found
    exact (scan_packet packet).1
  within found := by
    obtain ⟨start, length, packet⟩ := packetSize_eq_some found
    exact (scan_packet packet).2.1
  framed more found := by
    obtain ⟨start, length, packet⟩ := packetSize_eq_some found
    rw [packetSize, scan_frame packet more]

/-- The packets at the front of a stream, each with its bytes, and what stands behind. -/
abbrev packets (stream : Bytes) : List Bytes := (packetFramer.split stream).1
abbrev behindPackets (stream : Bytes) : Bytes := packetFramer.rest stream

/-- What handing one complete packet to `AppendBytesToCache` delivers. -/
def packetDeliveries (packet : Bytes) : Option (List Delivery) :=
  (checkForPacket false packet []).map Checked.deliveries

def deliveries : List Bytes → Option (List Delivery)
  | [] => some []
  | packet :: packets =>
      (packetDeliveries packet).bind fun now => (deliveries packets).map (now ++ ·)

theorem deliveries_append (front more : List Bytes) : deliveries (front ++ more) =
      (deliveries front).bind fun now => (deliveries more).map (now ++ ·) := by
  induction front with
  | nil => simp [deliveries]
  | cons packet front ih =>
    simp only [cons_append, deliveries, ih]
    cases packetDeliveries packet with
    | none => rfl
    | some now =>
      cases deliveries front with
      | none => rfl
      | some later => simp [Function.comp_def]

theorem isSome_deliveries (packets : List Bytes) :
    (deliveries packets).isSome ↔ ∀ packet ∈ packets, (packetDeliveries packet).isSome := by
  induction packets with
  | nil => simp [deliveries]
  | cons packet packets ih =>
    rw [forall_mem_cons, ← ih, deliveries]
    cases packetDeliveries packet <;> simp

theorem packetDeliveries_take (found : scan bytes = .packet start length total) : packetDeliveries (bytes.take total) =
      (takePacket false bytes start length total).map Checked.deliveries := by
  have positive := (scan_packet found).1
  have content : ((bytes.take total).drop start).take length = (bytes.drop start).take length := by
    have bound := (scan_packet found).2.2
    rw [drop_take, take_take, min_eq_left (by omega)]
  have same := scan_frame found []
  rw [append_nil] at same
  simp only [packetDeliveries, checkForPacket, append_nil, same, takePacket, content,
    head?_take, if_neg (Nat.ne_of_gt positive), Option.map_map]
  rfl

theorem taken_valid {sendAcks : Bool} {checked : Checked}
    (taken : takePacket sendAcks bytes start length total = some checked) :
    checked.packetType ≠ .invalid := by
  rw [(takePacket_eq_some taken).2.2.1]
  split <;> simp

theorem takePacket_sent {checked : Checked}
    (taken : takePacket false bytes start length total = some checked) : checked.sent = none := by
  rw [(takePacket_eq_some taken).2.2.2]
  simp [checksumReply]

def leftover (bytes : Bytes) : Bytes :=
  let behind := behindPackets bytes
  if scan behind = .junk then tossJunk behind else behind

theorem appendBytesToCache_eq (buffered src : Bytes) : appendBytesToCache false buffered src =
      (deliveries (packets (buffered ++ src))).map fun delivered =>
        ⟨delivered, [], leftover (buffered ++ src)⟩ := by
  -- Along the split into packets: each one is a round of the loop, which starts again with what is behind it.
  induction whole : buffered ++ src using Library.Framer.split.induct packetFramer
    generalizing buffered src with
  | case1 bytes waiting =>
    subst whole
    have front : packets (buffered ++ src) = [] := by
      rw [packets, packetFramer.split_of_none waiting]
    have behind : behindPackets (buffered ++ src) = buffered ++ src :=
      packetFramer.rest_of_none waiting
    rw [front, leftover, behind]
    cases kind : scan (buffered ++ src) with
    | packet start length total => simp [packetFramer, packetSize, kind] at waiting
    | incomplete =>
      have found : checkForPacket false buffered src = some ⟨.invalid, [], buffered ++ src, none⟩ := by
        simp [checkForPacket, kind]
      exact appendBytesToCache_of_invalid found rfl
    | junk =>
      have found : checkForPacket false buffered src =
          some ⟨.invalid, [], tossJunk (buffered ++ src), none⟩ := by simp [checkForPacket, kind]
      exact appendBytesToCache_of_invalid found rfl
  | case2 bytes total found _ ih =>
    subst whole
    obtain ⟨start, length, packet⟩ := packetSize_eq_some found
    have front : packets (buffered ++ src) =
        (buffered ++ src).take total :: packets ((buffered ++ src).drop total) := by
      rw [packets, packetFramer.split_of_some found]
    have behind : behindPackets (buffered ++ src) = behindPackets ((buffered ++ src).drop total) := by
      simp [Library.Framer.rest, packetFramer.split_of_some found]
    rw [front, deliveries, packetDeliveries_take packet, leftover, behind]
    cases taken : takePacket false (buffered ++ src) start length total with
    | none =>
      rw [appendBytesToCache_of_none (by simpa [checkForPacket, packet] using taken)]
      rfl
    | some checked =>
      rw [appendBytesToCache_of_packet (by simpa [checkForPacket, packet] using taken)
        (taken_valid taken), (takePacket_eq_some taken).2.1, ih _ [] (append_nil _)]
      simp only [Option.map_some, Option.bind_some, Option.map_map]
      congr 1
      funext later
      simp [Appended.after, takePacket_sent taken, leftover]

/-- Chunks given to `AppendBytesToCache` one after another, acks being disabled: what is
delivered, and what is left in the buffer. -/
def feed (buffered : Bytes) : List Bytes → Option (List Delivery × Bytes)
  | [] => some ([], buffered)
  | chunk :: chunks =>
      (appendBytesToCache false buffered chunk).bind fun appended =>
        (feed appended.bytes chunks).map fun later => (appended.delivered ++ later.1, later.2)

theorem feed_cons (buffered chunk : Bytes) (chunks : List Bytes) : feed buffered (chunk :: chunks) =
      (deliveries (packets (buffered ++ chunk))).bind fun now =>
        (feed (leftover (buffered ++ chunk)) chunks).map fun later => (now ++ later.1, later.2) := by
  rw [feed, appendBytesToCache_eq]
  cases deliveries (packets (buffered ++ chunk)) <;> rfl

theorem scan_junk_iff : scan bytes = .junk ↔ ∃ first tail, bytes = first :: tail ∧ headOf first = .junk := by
  cases bytes with
  | nil => simp [scan]
  | cons first tail =>
    cases kind : headOf first with
    | command => simp [scan, kind]
    | junk => simp [scan, kind]
    | header =>
      simp only [scan, kind]
      split
      · simp [kind]
      · split <;> simp [kind]

theorem scan_junk_append (present : bytes ≠ []) (more : Bytes) : scan (bytes ++ more) = .junk ↔ scan bytes = .junk := by
  cases bytes with
  | nil => exact absurd rfl present
  | cons first tail =>
    rw [scan_junk_iff, scan_junk_iff]
    simp

theorem ne_nil_of_junk (junk : scan bytes = .junk) : bytes ≠ [] := by
  rintro rfl
  cases junk

theorem packetSize_of_junk (junk : scan bytes = .junk) : packetSize bytes = none := by
  simp [packetSize, junk]

/-- Junk with a possible start of a packet behind it is dropped up to there, and later
bytes follow; junk alone leaves a byte that counts as junk again. -/
theorem tossJunk_append (junk : scan bytes = .junk) : (scan (tossJunk bytes) ≠ .junk ∧ tossJunk bytes ≠ [] ∧
      ∀ more, tossJunk (bytes ++ more) = tossJunk bytes ++ more) ∨
    (scan (tossJunk bytes) = .junk ∧ (tossJunk bytes).length = 1 ∧
      ∀ more, tossJunk (bytes ++ more) = tossJunk (tossJunk bytes ++ more)) := by
  obtain ⟨first, tail, rfl, kind⟩ := scan_junk_iff.mp junk
  cases kept : tail.dropWhile fun byte => headOf byte = .junk with
  | cons start rest =>
    left
    have tossed : tossJunk (first :: tail) = start :: rest := by simp [tossJunk, kept]
    have starts : ¬ headOf start = .junk := by
      have := head?_dropWhile_not (fun byte => decide (headOf byte = .junk)) tail
      simpa [kept] using this
    rw [tossed]
    refine ⟨fun again => ?_, cons_ne_nil _ _, fun more => ?_⟩
    · obtain ⟨_, _, same, kind⟩ := scan_junk_iff.mp again
      cases same
      exact starts kind
    · simp only [cons_append, tossJunk, dropWhile_append, kept]
      rfl
  | nil =>
    right
    have tailJunk : ∀ byte ∈ tail, decide (headOf byte = .junk) = true := dropWhile_eq_nil_iff.mp kept
    have present : first :: tail ≠ [] := cons_ne_nil _ _
    have tossed : tossJunk (first :: tail) = [(first :: tail).getLast present] := by
      simp only [tossJunk, kept]
      exact drop_length_sub_one present
    have lastJunk : headOf ((first :: tail).getLast present) = .junk := by
      rcases mem_cons.mp (getLast_mem present) with same | member
      · rw [same, kind]
      · exact of_decide_eq_true (tailJunk _ member)
    rw [tossed]
    refine ⟨scan_junk_iff.mpr ⟨_, [], rfl, lastJunk⟩, rfl, fun more => ?_⟩
    -- Only what follows the junk can start a packet, so both sides scan `more`.
    rw [cons_append, cons_append, tossJunk, tossJunk, dropWhile_append_of_pos tailJunk, nil_append]
    cases more.dropWhile fun byte => decide (headOf byte = .junk) with
    | cons start rest => rfl
    | nil =>
      rw [drop_length_sub_one (cons_ne_nil _ _), drop_length_sub_one (cons_ne_nil _ _)]
      cases more with
      | nil => simp
      | cons byte more => simp [getLast_cons]

/-- A complete packet `$...#cc` stands at the front of the buffer. -/
def StartsWithPacket (bytes : Bytes) : Prop := bytes.head? = some dollar ∧ packetSize bytes ≠ none

instance (bytes : Bytes) : Decidable (StartsWithPacket bytes) :=
  inferInstanceAs (Decidable (_ ∧ _))

/-- The packets that a stream delivers are the same in whatever chunks it arrives, and
no packet that is there waits for more bytes. -/
def ChunksIrrelevant (stream : Bytes) : Prop :=
  ∃ delivered, ∀ chunks : List Bytes, (∀ chunk ∈ chunks, chunk ≠ []) → chunks.flatten = stream →
    ∃ left, feed [] chunks = some (delivered, left) ∧ ¬ StartsWithPacket left

/-- Behind the first junk of a stream no complete packet follows, unless it is one byte
that ends the stream. -/
def JunkHidesNothing (stream : Bytes) : Prop :=
  let behind := behindPackets stream
  scan behind = .junk → (tossJunk behind).length ≤ 1 ∨ packetSize (tossJunk behind) = none

instance (stream : Bytes) : Decidable (JunkHidesNothing stream) :=
  inferInstanceAs (Decidable (_ → _))

theorem behind_of_waiting (waiting : packetSize bytes = none) : packets bytes = [] ∧ behindPackets bytes = bytes := by
  have alone : packetFramer.split bytes = ([], bytes) := packetFramer.split_of_none waiting
  simp [packets, Library.Framer.rest, alone]

theorem packetSize_behind (bytes : Bytes) : packetSize (behindPackets bytes) = none :=
  packetFramer.size_rest bytes

theorem packets_append (front more : Bytes) :
    packets (front ++ more) = packets front ++ packets (behindPackets front ++ more) := by
  rw [packets, packetFramer.split_append]

theorem behind_append (front more : Bytes) :
    behindPackets (front ++ more) = behindPackets (behindPackets front ++ more) :=
  packetFramer.rest_append front more

theorem not_startsWithPacket_of_short (short : bytes.length ≤ 1) : ¬ StartsWithPacket bytes := by
  rintro ⟨first, complete⟩
  cases bytes with
  | nil => simp at first
  | cons byte rest =>
    obtain rfl : rest = [] := by simpa using short
    obtain rfl : byte = dollar := by simpa using first
    exact complete (by decide)

/-- The buffer between two chunks, while junk hides nothing: what it lacks of the
stream's packets is what it makes with the bytes still to come. -/
theorem leftover_carries {front more : Bytes} (hidden : JunkHidesNothing (front ++ more)) (later : more ≠ []) :
    packetSize (leftover front) = none ∧ JunkHidesNothing (leftover front ++ more) ∧
      packets (front ++ more) = packets front ++ packets (leftover front ++ more) := by
  have waiting := packetSize_behind front
  rw [packets_append]
  unfold JunkHidesNothing at hidden
  rw [behind_append] at hidden
  unfold leftover
  by_cases junk : scan (behindPackets front) = .junk
  · have stillJunk := (scan_junk_append (ne_nil_of_junk junk) more).mpr junk
    obtain ⟨nothing, same⟩ := behind_of_waiting (packetSize_of_junk stillJunk)
    rw [same] at hidden
    have quiet := hidden stillJunk
    simp only [junk, if_true, nothing]
    -- Either a packet may start behind the junk, and must not be complete yet, or all of it is junk still.
    rcases tossJunk_append junk with ⟨starts, present, tossed⟩ | ⟨again, -, tossed⟩
    · rw [tossed more] at quiet
      have longer : 1 < (tossJunk (behindPackets front) ++ more).length := by
        have := length_pos_of_ne_nil present
        have := length_pos_of_ne_nil later
        simp only [length_append]
        omega
      have incomplete := quiet.resolve_left (not_le.mpr longer)
      obtain ⟨empty, same⟩ := behind_of_waiting incomplete
      refine ⟨packetFramer.size_of_prefix incomplete, ?_, by rw [empty]⟩
      intro junkAgain
      rw [same, scan_junk_append present] at junkAgain
      exact absurd junkAgain starts
    · have junkMore := (scan_junk_append (ne_nil_of_junk again) more).mpr again
      obtain ⟨empty, same⟩ := behind_of_waiting (packetSize_of_junk junkMore)
      refine ⟨packetSize_of_junk again, ?_, by rw [empty]⟩
      unfold JunkHidesNothing
      simp only [same, ← tossed more]
      exact fun _ => quiet
  · simp only [junk, if_false]
    exact ⟨waiting, hidden, trivial⟩

/-- No junk hides a packet, so what is left does not start with one. -/
theorem leftover_without_packet (hidden : JunkHidesNothing bytes) : ¬ StartsWithPacket (leftover bytes) := by
  unfold leftover
  by_cases junk : scan (behindPackets bytes) = .junk
  · simp only [junk]
    rcases hidden junk with short | none
    · exact not_startsWithPacket_of_short short
    · exact fun starts => starts.2 none
  · simp only [junk]
    exact fun starts => starts.2 (packetSize_behind bytes)

theorem feed_eq {chunks : List Bytes} (nonempty : ∀ chunk ∈ chunks, chunk ≠ []) (buffered : Bytes)
    (waiting : packetSize buffered = none) (hidden : JunkHidesNothing (buffered ++ chunks.flatten)) :
    ∃ left, feed buffered chunks =
        (deliveries (packets (buffered ++ chunks.flatten))).map (fun delivered => (delivered, left)) ∧
      ¬ StartsWithPacket left := by
  induction chunks generalizing buffered with
  | nil =>
    refine ⟨buffered, ?_, fun starts => starts.2 waiting⟩
    simp [feed, (behind_of_waiting waiting).1, deliveries]
  | cons chunk chunks ih =>
    obtain ⟨_, others⟩ := forall_mem_cons.mp nonempty
    rw [flatten_cons, ← append_assoc] at hidden ⊢
    rw [feed_cons]
    cases chunks with
    | nil =>
      rw [flatten_nil, append_nil] at hidden ⊢
      refine ⟨leftover (buffered ++ chunk), ?_, leftover_without_packet hidden⟩
      cases deliveries (packets (buffered ++ chunk)) <;> simp [feed]
    | cons next chunks =>
      have later : (next :: chunks).flatten ≠ [] := by
        have := others next (mem_cons_self ..)
        simp [this]
      -- More is to come, so what stays in the buffer carries over what the rest of the stream needs.
      obtain ⟨waits, stillHidden, split⟩ := leftover_carries hidden later
      obtain ⟨left, fed, quiet⟩ := ih others (leftover (buffered ++ chunk)) waits stillHidden
      refine ⟨left, ?_, quiet⟩
      rw [fed, split, deliveries_append]
      cases deliveries (packets (buffered ++ chunk)) with
      | none => rfl
      | some now =>
        cases deliveries (packets (leftover (buffered ++ chunk) ++ (next :: chunks).flatten)) <;> rfl

theorem packetDeliveries_ne_nil {packet : Bytes} {delivered : List Delivery} (complete : packetSize packet = some total)
    (delivers : packetDeliveries (packet.take total) = some delivered) : delivered ≠ [] := by
  obtain ⟨start, length, found⟩ := packetSize_eq_some complete
  rw [packetDeliveries_take found] at delivers
  obtain ⟨checked, taken, rfl⟩ := map_eq_some_iff.mp delivers
  have valid := taken_valid taken
  unfold Checked.deliveries
  split
  · next invalid => exact absurd invalid valid
  · simp
  · simp

theorem length_tossJunk_pair (first last : UInt8) : (tossJunk [first, last]).length = 1 := by
  unfold tossJunk
  cases kind : decide (headOf last = .junk) <;> simp [kind]

theorem behind_dropLast (junk : scan bytes = .junk) (longer : 1 < (tossJunk bytes).length) :
    ∃ kept last, bytes = kept ++ [last] ∧ scan kept = .junk ∧ tossJunk bytes = tossJunk kept ++ [last] := by
  -- Off with the last byte; the junk stays in front and keeps hiding.
  rcases eq_nil_or_concat bytes with rfl | ⟨kept, last, rfl⟩
  · cases junk
  rw [concat_eq_append] at junk longer ⊢
  have present : kept ≠ [] := by
    rintro rfl
    simp [tossJunk] at longer
  have front := (scan_junk_append present [last]).mp junk
  refine ⟨kept, last, rfl, front, ?_⟩
  rcases tossJunk_append front with ⟨-, -, tossed⟩ | ⟨-, single, tossed⟩
  · exact tossed [last]
  · obtain ⟨byte, same⟩ := length_eq_one_iff.mp single
    rw [tossed, same, singleton_append, length_tossJunk_pair] at longer
    omega

theorem feed_last_alone {stream kept : Bytes} {last : UInt8} {now delivered : List Delivery}
    {left : Bytes} (before : deliveries (packets stream) = some now)
    (junk : scan kept = .junk) (complete : packetSize (tossJunk kept ++ [last]) = some total)
    (fed : feed [] [(packets stream).flatten ++ kept, [last]] = some (delivered, left)) :
    delivered ≠ now := by
  have waiting := packetSize_of_junk junk
  have split : packetFramer.split ((packets stream).flatten ++ kept) = (packets stream, kept) := by
    simp [packetFramer.split_frames_append, packetFramer.split_of_none waiting, packetFramer.rest_of_none waiting]
  have front : packets ((packets stream).flatten ++ kept) = packets stream := by rw [packets, split]
  have buffer : leftover ((packets stream).flatten ++ kept) = tossJunk kept := by
    simp [leftover, Library.Framer.rest, split, junk]
  have found := packetFramer.split_of_some complete
  rw [feed_cons, nil_append, front, before, buffer, feed_cons, packets, found, deliveries] at fed
  cases delivers : packetDeliveries ((tossJunk kept ++ [last]).take total) with
  | none => simp [delivers] at fed
  | some hidden =>
    have more := packetDeliveries_ne_nil complete delivers
    simp only [delivers, feed, bind_some, map_some, append_nil,
      map_eq_some_iff, bind_eq_some_iff, Option.some.injEq] at fed
    obtain ⟨_, ⟨_, ⟨later, -, rfl⟩, rfl⟩, same⟩ := fed
    obtain rfl : now ++ (hidden ++ later) = delivered := congrArg Prod.fst same
    simp [more]

theorem chunks_irrelevant_iff (stream : Bytes) : ChunksIrrelevant stream ↔
      (∀ packet ∈ packets stream, (packetDeliveries packet).isSome) ∧ JunkHidesNothing stream := by
  rw [← isSome_deliveries]
  constructor
  · rintro ⟨delivered, same⟩
    by_cases empty : stream = []
    · subst empty
      exact ⟨by decide +kernel, by decide +kernel⟩
    obtain ⟨left, atOnce, -⟩ := same [stream] (by simpa using empty) (by simp)
    rw [feed_cons, nil_append] at atOnce
    cases before : deliveries (packets stream) with
    | none => simp [before] at atOnce
    | some now =>
      obtain rfl : now = delivered := by
        simp only [before, bind_some, feed, map_some, append_nil,
          Option.some.injEq, Prod.mk.injEq] at atOnce
        exact atOnce.1
      refine ⟨rfl, fun junk => ?_⟩
      -- A packet behind junk is missed when the stream comes at once and found when its last byte comes alone.
      by_contra hides
      rw [not_or, not_le] at hides
      obtain ⟨longer, complete⟩ := hides
      obtain ⟨total, complete⟩ := ne_none_iff_exists'.mp complete
      obtain ⟨kept, last, ends, keptJunk, tossed⟩ := behind_dropLast junk longer
      have whole : (packets stream).flatten ++ (kept ++ [last]) = stream := by
        rw [← ends]
        exact packetFramer.flatten_split stream
      obtain ⟨left, inTwo, -⟩ := same [(packets stream).flatten ++ kept, [last]]
        (by simp [ne_nil_of_junk keptJunk]) (by simpa using whole)
      rw [tossed] at complete
      exact feed_last_alone before keptJunk complete inTwo rfl
  · rintro ⟨defined, hidden⟩
    obtain ⟨delivered, before⟩ := isSome_iff_exists.mp defined
    refine ⟨delivered, fun chunks nonempty whole => ?_⟩
    subst whole
    obtain ⟨left, fed, quiet⟩ := feed_eq nonempty [] (by decide) hidden
    rw [nil_append, before] at fed
    exact ⟨left, fed, quiet⟩

/-- Junk and a packet: at once, or with the packet's last byte on its own. -/
theorem chunks_not_irrelevant : ¬ ChunksIrrelevant [0x78, 0x24, 0x61, 0x23, 0x36, 0x31] := by
  rintro ⟨delivered, same⟩
  obtain ⟨left, atOnce, -⟩ := same [[0x78, 0x24, 0x61, 0x23, 0x36, 0x31]] (by decide) rfl
  obtain ⟨left, inTwo, -⟩ := same [[0x78, 0x24, 0x61, 0x23, 0x36], [0x31]] (by decide) rfl
  have first : feed [] [[0x78, 0x24, 0x61, 0x23, 0x36, 0x31]] =
      some ([], [0x24, 0x61, 0x23, 0x36, 0x31]) := by decide +kernel
  have second : feed [] [[0x78, 0x24, 0x61, 0x23, 0x36], [0x31]] = some ([.queued [0x61]], []) := by decide +kernel
  rw [first] at atOnce
  rw [second] at inTwo
  cases atOnce
  cases inTwo

end Lldb.GdbRemote
