import Lldb.GdbRemote.Resync

/-! Packets on their way: cut into chunks, or with a byte of the content changed. -/

set_option autoImplicit false

namespace Lldb.GdbRemote

open List

theorem packets_items (items : List Item) :
    packetFramer.split (items.map Item.bytes).flatten = (items.map Item.bytes, []) := by
  induction items with
  | nil => exact packetFramer.split_of_none rfl
  | cons item items ih =>
    have split := packetFramer.split_of_some (packetSize_item item (items.map Item.bytes).flatten)
    simp only [take_left, drop_left, ih] at split
    exact split

theorem deliveries_items (items : List Item) :
    deliveries (items.map Item.bytes) = some (items.map fun item => .queued item.packet) := by
  induction items with
  | nil => rfl
  | cons item items ih =>
    obtain ⟨sent, checked⟩ := checkForPacket_item false item []
    have queued : packetDeliveries item.bytes = some [.queued item.packet] :=
      congrArg (Option.map Checked.deliveries) checked
    simp [deliveries, queued, ih]

/-- However acks and replies are cut on the way, each is queued once and in order. -/
theorem sent_items_arrive (items : List Item) {chunks : List Bytes} (nonempty : ∀ chunk ∈ chunks, chunk ≠ [])
    (cut : chunks.flatten = (items.map Item.bytes).flatten) :
    ∃ left, feed [] chunks = some (items.map fun item => .queued item.packet, left) ∧ ¬ StartsWithPacket left := by
  have split := packets_items items
  -- Nothing stands behind the packets, so no junk does.
  have hidden : JunkHidesNothing ([] ++ chunks.flatten) := by
    simp only [nil_append, cut, JunkHidesNothing, behindPackets, Library.Framer.rest, split]
    exact fun junk => by cases junk
  obtain ⟨left, fed, quiet⟩ := feed_eq nonempty [] rfl hidden
  simp only [nil_append, cut, packets, split, deliveries_items] at fed
  exact ⟨left, fed, quiet⟩

/-- `+$#00` cut in two is an ack and an empty packet. -/
theorem sent_items_arrive_cut :
    ∃ left, feed [] [[0x2b, 0x24], [0x23, 0x30, 0x30]] = some ([.queued [0x2b], .queued []], left) ∧
      ¬ StartsWithPacket left :=
  sent_items_arrive [.ack, .replied ⟨[], [], by decide, rfl⟩] (by decide) (by decide)

theorem lowByte_eq_iff_emod (a b : Int) : lowByte a = lowByte b ↔ a % 256 = b % 256 := by
  simp only [lowByte, ← UInt8.toNat_inj, UInt8.toNat_ofNat']
  omega

theorem checksum_foldl (content : Bytes) (checksum : Int) :
    content.foldl (fun checksum c => checksum + signedChar c) checksum =
      checksum + (content.map signedChar).sum := by
  induction content generalizing checksum with
  | nil => simp
  | cons c content ih => simp [ih, Int.add_assoc]

/-- Two contents that differ in one byte have different checksums. -/
theorem checksum_changed (front back : Bytes) {sent received : UInt8} (changed : received ≠ sent) :
    calculcateChecksum (front ++ sent :: back) ≠ calculcateChecksum (front ++ received :: back) := by
  unfold calculcateChecksum
  simp only [ne_eq, lowByte_eq_iff_emod, checksum_foldl, map_append, map_cons, sum_append, sum_cons]
  have := mt UInt8.toNat_inj.mp changed
  have := sent.toNat_lt
  have := received.toNat_lt
  simp only [signedChar]
  omega

end Lldb.GdbRemote
