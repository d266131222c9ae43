import Lldb.SymbolFile.DWARFDebugArangeSet
import Lldb.Utility.CursorMoves

/-! What is extracted from a `.debug_aranges` section of well-formed sets. -/

set_option autoImplicit false

namespace Lldb.DWARFDebugAranges

open Library DataExtractor Cursor DWARFDebugArangeSet DebugLine ByteOrder List

structure EncodedSet where
  cuOffset : BitVec 32
  addrSize : Nat
  segSize : UInt8
  /-- What is between the header and the first tuple. -/
  headerPadding : List UInt8
  descriptors : List ArangeDescriptor
  /-- How many zeros are behind the terminator, up to the set's length. -/
  padding : Nat
  known : addrSize = 4 ∨ addrSize = 8
  aligned : (12 + headerPadding.length) % (2 * addrSize) = 0 ∧ headerPadding.length < 2 * addrSize
  fits : ∀ descriptor ∈ descriptors, descriptor.address < 256 ^ addrSize ∧ descriptor.length < 256 ^ addrSize
  nonzero : ∀ descriptor ∈ descriptors, descriptor.address ≠ 0 ∨ descriptor.length ≠ 0
  words : padding = 0 ∨ 4 ≤ padding

namespace EncodedSet

variable (encoded : EncodedSet) (order : ByteOrder)

def tuple (descriptor : ArangeDescriptor) : List UInt8 :=
  order.encode encoded.addrSize descriptor.address ++ order.encode encoded.addrSize descriptor.length

def tuples : List UInt8 :=
  encoded.descriptors.flatMap (encoded.tuple order) ++ (replicate encoded.addrSize 0 ++ replicate encoded.addrSize 0)

def length : Nat := 8 + encoded.headerPadding.length + (encoded.tuples order).length + encoded.padding

def headerBytes : List UInt8 :=
  order.encode 4 (encoded.length order) ++ (order.encode 2 2 ++ (order.encode 4 encoded.cuOffset.toNat ++
    ([UInt8.ofNat encoded.addrSize] ++ [encoded.segSize])))

def bytes : List UInt8 :=
  encoded.headerBytes order ++ (encoded.headerPadding ++ (encoded.tuples order ++ replicate encoded.padding 0))

def entries : List (RangeData Nat) :=
  encoded.descriptors.map fun descriptor => ⟨⟨descriptor.address, descriptor.length⟩, encoded.cuOffset.toNat⟩

def shortEntries : List (RangeData Nat) :=
  encoded.descriptors.map fun descriptor =>
    ⟨⟨descriptor.address, uint32 descriptor.length⟩, encoded.cuOffset.toNat⟩

theorem headerPadding_length : encoded.headerPadding.length = 4 := by
  obtain ⟨aligned, short⟩ := encoded.aligned
  rcases encoded.known with known | known <;> rw [known] at aligned short <;> omega

theorem length_headerBytes : (encoded.headerBytes order).length = 12 := by
  simp [headerBytes]

theorem length_bytes : (encoded.bytes order).length = 4 + encoded.length order := by
  rw [bytes, length_append, length_append, length_append, length_headerBytes, length_replicate, length]
  omega

end EncodedSet

variable {data : DataExtractor} {offset : Nat}

theorem encode_zero (order : ByteOrder) (size : Nat) : order.encode size 0 = replicate size 0 := by
  have little : littleBytes size 0 = replicate size 0 := by
    induction size with
    | zero => rfl
    | succ size ih => rw [littleBytes, ih]; rfl
  cases order with
  | little => exact little
  | big => simp [encode, little]

theorem validOffset_of_at {bytes : List UInt8} (at_ : data.At offset bytes) (nonempty : 0 < bytes.length) :
    data.validOffset offset = true := by
  have bound := at_.bound
  exact decide_eq_true (by omega)

variable {encoded : EncodedSet}

theorem readHeader_at (at_ : data.At offset (encoded.headerBytes data.byteOrder))
    (short : encoded.length data.byteOrder < 2 ^ 32 - 1) :
    readHeader data offset = some (⟨encoded.length data.byteOrder, 2, encoded.cuOffset.toNat, encoded.addrSize,
      encoded.segSize.toNat⟩, offset + 12) := by
  have length : data.getU32 offset = some (encoded.length data.byteOrder, offset + 4) :=
    getMaxU64_at (by omega) at_.left
  have behind := at_.right
  rw [length_encode] at behind
  have version : data.getU16 (offset + 4) = some (2, offset + 4 + 2) := getMaxU64_at (by decide) behind.left
  have behind := behind.right
  rw [length_encode] at behind
  have cuOffset : data.getMaxU64 4 (offset + 4 + 2) = some (encoded.cuOffset.toNat, offset + 4 + 2 + 4) :=
    getMaxU64_at encoded.cuOffset.isLt behind.left
  have behind := behind.right
  rw [length_encode] at behind
  have addrSize := getU8_at behind.left
  have segSize := getU8_at behind.right
  have small : (UInt8.ofNat encoded.addrSize).toNat = encoded.addrSize := by
    rcases encoded.known with known | known <;> rw [known] <;> rfl
  have initial : getDWARFInitialLength data offset = some ((encoded.length data.byteOrder, false), offset + 4) := by
    unfold getDWARFInitialLength
    rw [bind_read length, if_neg (by omega)]
    rfl
  have unit : getDWARFOffset data false (offset + 4 + 2) = some (encoded.cuOffset.toNat, offset + 4 + 2 + 4) := by
    change (data.getMaxU64 4 (offset + 4 + 2)).bind _ = _
    rw [cuOffset]
    exact congrArg (fun value => some (value, _)) (Nat.mod_eq_of_lt encoded.cuOffset.isLt)
  unfold readHeader
  rw [bind_read initial]
  dsimp only
  rw [bind_read version, bind_read unit, bind_read addrSize]
  rw [length_singleton] at segSize
  rw [bind_read segSize, small, uint32, Nat.mod_eq_of_lt (by omega)]
  rfl

variable {addrSize : Nat} {sets : List EncodedSet}

theorem readDescriptors_at (positive : 0 < addrSize) {descriptors : List ArangeDescriptor}
    (fits : ∀ descriptor ∈ descriptors, descriptor.address < 256 ^ addrSize ∧ descriptor.length < 256 ^ addrSize)
    (nonzero : ∀ descriptor ∈ descriptors, descriptor.address ≠ 0 ∨ descriptor.length ≠ 0)
    (at_ : data.At offset (descriptors.flatMap (fun descriptor => data.byteOrder.encode addrSize descriptor.address ++
      data.byteOrder.encode addrSize descriptor.length) ++ (replicate addrSize 0 ++ replicate addrSize 0)))
    {fuel : Nat} (enough : descriptors.length < fuel) :
    readDescriptors data addrSize fuel offset =
      some (descriptors, offset + 2 * addrSize * descriptors.length + 2 * addrSize) := by
  induction descriptors generalizing offset fuel with
  | nil =>
    obtain ⟨fuel, rfl⟩ := Nat.exists_eq_succ_of_ne_zero (Nat.ne_of_gt enough)
    have valid := validOffset_of_at at_ (by simp; omega)
    rw [flatMap_nil, nil_append, ← encode_zero data.byteOrder] at at_
    have address := getMaxU64_at (Nat.pow_pos (by decide)) at_.left
    have behind := at_.right
    rw [length_encode] at behind
    have length := getMaxU64_at (Nat.pow_pos (by decide)) behind
    rw [readDescriptors, bind_read (get_read offset), if_pos valid,
      bind_read address, bind_read length, add_assoc,
      two_mul]
    rfl
  | cons first rest ih =>
    obtain ⟨fuel, rfl⟩ := Nat.exists_eq_succ_of_ne_zero (Nat.ne_of_gt (Nat.zero_lt_of_lt enough))
    have valid := validOffset_of_at at_ (by simp; omega)
    rw [flatMap_cons, append_assoc, append_assoc] at at_
    obtain ⟨addressFits, lengthFits⟩ := fits first mem_cons_self
    have address := getMaxU64_at addressFits at_.left
    have behind := at_.right
    rw [length_encode] at behind
    have length := getMaxU64_at lengthFits behind.left
    have others := behind.right
    rw [length_encode] at others
    have later := ih (fun descriptor member => fits descriptor (mem_cons_of_mem _ member))
      (fun descriptor member => nonzero descriptor (mem_cons_of_mem _ member)) others
        (Nat.lt_of_succ_lt_succ enough)
    rw [readDescriptors, bind_read (get_read offset), if_pos valid,
      bind_read address, bind_read length, if_pos (nonzero first mem_cons_self), bind_read later, length_cons]
    refine congrArg (fun after => some (first :: rest, after)) ?_
    rw [Nat.mul_succ]
    omega

theorem firstTupleOffset_eq (known : addrSize = 4 ∨ addrSize = 8) : firstTupleOffset (2 * addrSize) 12 12 0 = 16 := by
  rcases known with rfl | rfl <;> rfl

theorem length_tuples (order : ByteOrder) :
    (encoded.tuples order).length = 2 * encoded.addrSize * encoded.descriptors.length + 2 * encoded.addrSize := by
  have each (descriptors : List ArangeDescriptor) :
      (descriptors.flatMap (encoded.tuple order)).length = 2 * encoded.addrSize * descriptors.length := by
    induction descriptors with
    | nil => rfl
    | cons first rest ih =>
      rw [flatMap_cons, length_append, EncodedSet.tuple, length_append, length_encode,
        length_encode, length_cons, Nat.mul_succ]
      omega
  rw [EncodedSet.tuples, length_append, each, length_append, length_replicate]
  omega

def EncodedSet.readLength (encoded : EncodedSet) (order : ByteOrder) : Nat := 16 + (encoded.tuples order).length

theorem length_bytes_eq (encoded : EncodedSet) (order : ByteOrder) :
    (encoded.bytes order).length = encoded.readLength order + encoded.padding := by
  rw [encoded.length_bytes, EncodedSet.length, EncodedSet.readLength, encoded.headerPadding_length]
  omega

theorem extract_at (at_ : data.At offset (encoded.bytes data.byteOrder)) (short : data.bytes.length < 2 ^ 32)
    (arangeSet : DWARFDebugArangeSet) :
    DWARFDebugArangeSet.extract data arangeSet offset =
      some ((!encoded.descriptors.isEmpty, ⟨offset, ⟨encoded.length data.byteOrder, 2, encoded.cuOffset.toNat,
        encoded.addrSize, encoded.segSize.toNat⟩, encoded.descriptors⟩),
          offset + encoded.readLength data.byteOrder) := by
  have bound := at_.bound
  rw [encoded.length_bytes] at bound
  have valid := validOffset_of_at at_ (by rw [encoded.length_bytes]; omega)
  have positive : 0 < encoded.addrSize := by rcases encoded.known with known | known <;> rw [known] <;> decide
  have size : 12 ≤ encoded.length data.byteOrder := by
    rw [EncodedSet.length, encoded.headerPadding_length, add_assoc]
    exact Nat.le_add_right _ _
  have header := readHeader_at at_.left (by omega)
  have behind := at_.right
  rw [encoded.length_headerBytes] at behind
  have tuples := behind.right.left
  rw [encoded.headerPadding_length, add_assoc] at tuples
  have count : encoded.descriptors.length < data.bytes.length + 1 := by
    have all := encoded.length_bytes data.byteOrder
    rw [length_bytes_eq, EncodedSet.readLength, length_tuples] at all
    have least : encoded.descriptors.length ≤ 2 * encoded.addrSize * encoded.descriptors.length :=
      Nat.le_mul_of_pos_left _ (by omega)
    omega
  have read := readDescriptors_at positive encoded.fits encoded.nonzero tuples count
  have start : uint32 offset = offset := Nat.mod_eq_of_lt (by omega)
  have headerSize : uint32 (offset + 12 - offset) = 12 := by
    rw [Nat.add_sub_cancel_left]
    rfl
  have all : readTuples data offset ⟨encoded.length data.byteOrder, 2, encoded.cuOffset.toNat, encoded.addrSize,
      encoded.segSize.toNat⟩ (offset + 12) =
        some (encoded.descriptors, offset + encoded.readLength data.byteOrder) := by
    unfold readTuples
    rw [if_pos ⟨show 2 ≤ 2 ∧ 2 ≤ 5 by decide, encoded.known, by dsimp only; omega,
        decide_eq_true (by dsimp only; omega)⟩,
      bind_read (get_read (offset + 12))]
    rw [headerSize, firstTupleOffset_eq encoded.known, uint32, Nat.mod_eq_of_lt (by omega)]
    refine (show _ = readDescriptors data encoded.addrSize (data.bytes.length + 1) (offset + 16) from rfl).trans
      (read.trans ?_)
    simp [EncodedSet.readLength, length_tuples, add_assoc offset, add_assoc 16]
  unfold DWARFDebugArangeSet.extract
  rw [bind_read (get_read offset), if_pos valid, start, bind_read header, bind_read all]
  rfl

theorem extract_zeros {count : Nat} (enough : 4 ≤ count) (at_ : data.At offset (replicate count 0))
    (arangeSet : DWARFDebugArangeSet) :
    ∃ arangeSet' after, DWARFDebugArangeSet.extract data arangeSet offset = some ((false, arangeSet'), after) := by
  have valid := validOffset_of_at at_ (by simp; omega)
  have split : replicate count (0 : UInt8) = data.byteOrder.encode 4 0 ++ replicate (count - 4) 0 := by
    rw [encode_zero, replicate_append_replicate, Nat.add_sub_cancel' enough]
  rw [split] at at_
  have length : data.getU32 offset = some (0, offset + 4) := getMaxU64_at (by decide) at_.left
  have initial : getDWARFInitialLength data offset = some ((0, false), offset + 4) := by
    unfold getDWARFInitialLength
    rw [bind_read length]
    rfl
  obtain ⟨version, second, versionRead⟩ := exists_getMaxU64 data 2 (offset + 4)
  obtain ⟨cuOffset, third, cuOffsetRead⟩ := exists_getMaxU64 data 4 second
  obtain ⟨addrSize, fourth, addrSizeRead⟩ := exists_getMaxU64 data 1 third
  obtain ⟨segSize, fifth, segSizeRead⟩ := exists_getMaxU64 data 1 fourth
  have unit : getDWARFOffset data false second = some (uint32 cuOffset, third) := by
    change (data.getMaxU64 4 second).bind _ = _
    rw [cuOffsetRead]
    rfl
  have header : readHeader data offset = some (⟨0, version, uint32 cuOffset, addrSize, segSize⟩, fifth) := by
    unfold readHeader
    rw [bind_read initial]
    dsimp only
    rw [getU16, bind_read versionRead, bind_read unit, getU8, bind_read addrSizeRead, bind_read segSizeRead]
    rfl
  refine ⟨⟨uint32 offset, ⟨0, version, uint32 cuOffset, addrSize, segSize⟩, []⟩, fifth, ?_⟩
  unfold DWARFDebugArangeSet.extract
  rw [bind_read (get_read offset), if_pos valid, bind_read header]
  have none_ : readTuples data (uint32 offset)
    ⟨0, version, uint32 cuOffset, addrSize, segSize⟩ fifth = some ([], fifth) := by
    unfold readTuples
    rw [if_neg fun all => absurd all.2.2.1 (lt_irrefl 0)]
    rfl
  rw [bind_read none_]
  rfl

theorem extract_behind (behind : data.bytes.length ≤ offset) (arangeSet : DWARFDebugArangeSet) :
    DWARFDebugArangeSet.extract data arangeSet offset = some ((false, arangeSet), offset) := by
  have invalid : ¬ data.validOffset offset = true := fun valid => by
    have inside := of_decide_eq_true valid
    omega
  unfold DWARFDebugArangeSet.extract
  rw [bind_read (get_read offset), if_neg invalid]
  rfl

/-! The whole section. -/

/-- The sets that are read: none behind one without descriptors or with padding. -/
def reached : List EncodedSet → List EncodedSet
  | [] => []
  | first :: rest =>
    if first.descriptors = [] then []
    else if first.padding ≠ 0 then [first]
    else first :: reached rest

theorem appendSet_entries (aranges : DWARFDebugAranges) {arangeSet : DWARFDebugArangeSet}
    (few : arangeSet.arangeDescriptors.length < 2 ^ 32) :
    (appendSet aranges arangeSet).entries = aranges.entries ++ arangeSet.arangeDescriptors.map fun descriptor =>
      ⟨⟨descriptor.address, uint32 descriptor.length⟩, arangeSet.getCompileUnitDIEOffset⟩ := by
  have all (descriptors : List ArangeDescriptor) (aranges : DWARFDebugAranges) :
      (descriptors.foldl (fun aranges descriptor => aranges.append
        ⟨⟨descriptor.address, uint32 descriptor.length⟩, arangeSet.getCompileUnitDIEOffset⟩)
          aranges).entries =
      aranges.entries ++ descriptors.map fun descriptor =>
        ⟨⟨descriptor.address, uint32 descriptor.length⟩, arangeSet.getCompileUnitDIEOffset⟩ := by
    induction descriptors generalizing aranges with
    | nil => exact (append_nil _).symm
    | cons first rest ih =>
      rw [foldl_cons, ih]
      exact append_assoc _ _ _
  rw [appendSet, uint32, Nat.mod_eq_of_lt few, take_length, all]

theorem zeros_at (at_ : data.At offset (encoded.bytes data.byteOrder)) :
    data.At (offset + encoded.readLength data.byteOrder) (replicate encoded.padding 0) := by
  have zeros := at_.right.right.right
  rw [encoded.length_headerBytes, encoded.headerPadding_length, add_assoc, add_assoc,
    ← add_assoc 12 4] at zeros
  exact zeros

theorem EncodedSet.length_descriptors_le (set : EncodedSet) (order : ByteOrder) :
    set.descriptors.length ≤ set.readLength order := by
  have least : set.descriptors.length ≤ 2 * set.addrSize * set.descriptors.length :=
    Nat.le_mul_of_pos_left _ (by rcases set.known with known | known <;> rw [known] <;> decide)
  rw [readLength, length_tuples]
  omega

theorem extractSets_at {sets : List EncodedSet}
    (at_ : data.At offset (sets.flatMap (EncodedSet.bytes · data.byteOrder)))
    (last : data.bytes.length = offset + (sets.flatMap (EncodedSet.bytes · data.byteOrder)).length)
    (short : data.bytes.length < 2 ^ 32) {fuel : Nat} (enough : sets.length < fuel) (aranges : DWARFDebugAranges) :
    ∃ after, extractSets data fuel .clear aranges offset =
      some (⟨aranges.entries ++ (reached sets).flatMap EncodedSet.shortEntries⟩, after) := by
  induction sets generalizing offset fuel aranges with
  | nil =>
    obtain ⟨fuel, rfl⟩ := Nat.exists_eq_succ_of_ne_zero (Nat.ne_of_gt enough)
    refine ⟨offset, ?_⟩
    rw [extractSets, bind_read (extract_behind (by rw [last]; rfl) .clear), reached, flatMap_nil, append_nil]
    rfl
  | cons first rest ih =>
    obtain ⟨fuel, rfl⟩ := Nat.exists_eq_succ_of_ne_zero (Nat.ne_of_gt (Nat.zero_lt_of_lt enough))
    rw [flatMap_cons] at at_ last
    have read := extract_at at_.left short .clear
    have behind := at_.right
    rw [length_append, length_bytes_eq] at last
    rw [length_bytes_eq] at behind
    rw [extractSets, bind_read read]
    by_cases empty : first.descriptors = []
    · refine ⟨offset + first.readLength data.byteOrder, ?_⟩
      rw [empty, reached, if_pos empty, flatMap_nil, append_nil]
      rfl
    · have some_ : (!first.descriptors.isEmpty) = true := by simpa using empty
      have few : first.descriptors.length < 2 ^ 32 :=
        (first.length_descriptors_le data.byteOrder).trans_lt (by omega)
      have appended : (appendSet aranges ⟨offset, ⟨first.length data.byteOrder, 2, first.cuOffset.toNat, first.addrSize,
          first.segSize.toNat⟩, first.descriptors⟩).entries = aranges.entries ++ first.shortEntries :=
        appendSet_entries aranges few
      dsimp only
      rw [if_pos some_, reached, if_neg empty]
      by_cases padded : first.padding = 0
      · rw [padded] at behind last
        obtain ⟨after, found⟩ := ih behind (by omega) (Nat.lt_of_succ_lt_succ enough) (appendSet aranges _)
        refine ⟨after, found.trans ?_⟩
        simp [appended, if_neg (not_not.mpr padded)]
      · have zeros := zeros_at at_.left
        obtain ⟨fuel, rfl⟩ := Nat.exists_eq_succ_of_ne_zero
          (Nat.ne_of_gt (Nat.zero_lt_of_lt (Nat.lt_of_succ_lt_succ enough)))
        obtain ⟨arangeSet', after, stopped⟩ := extract_zeros (first.words.resolve_left padded) zeros .clear
        refine ⟨after, ?_⟩
        rw [extractSets, bind_read stopped, if_pos padded, flatMap_singleton]
        exact congrArg (fun entries => some ((⟨entries⟩ : DWARFDebugAranges), after)) appended

def Complete (order : ByteOrder) (addrSize : Nat) (sets : List EncodedSet) : Prop :=
  ∃ aranges, extract ⟨sets.flatMap (EncodedSet.bytes · order), order, addrSize⟩ = some aranges ∧
    aranges.entries.Perm (sets.flatMap EncodedSet.entries)

/-- No set with descriptors is behind one without descriptors or with padding. -/
def Reachable (sets : List EncodedSet) : Prop :=
  sets.Pairwise fun earlier later => earlier.descriptors = [] ∨ earlier.padding ≠ 0 → later.descriptors = []

theorem extract_sets (order : ByteOrder) (addrSize : Nat)
    (short : (sets.flatMap (EncodedSet.bytes · order)).length < 2 ^ 32) :
    extract ⟨sets.flatMap (EncodedSet.bytes · order), order, addrSize⟩ =
      some ⟨(reached sets).flatMap EncodedSet.shortEntries⟩ := by
  have few : sets.length < (sets.flatMap (EncodedSet.bytes · order)).length + 1 := by
    refine Nat.lt_succ_of_le ?_
    clear short
    induction sets with
    | nil => exact Nat.zero_le _
    | cons first rest ih =>
      rw [flatMap_cons, length_append, EncodedSet.length_bytes, length_cons]
      omega
  unfold extract
  split_ifs with valid
  · obtain ⟨after, read⟩ := @extractSets_at ⟨sets.flatMap (EncodedSet.bytes · order), order, addrSize⟩ 0 sets
      prefix_rfl (zero_add _).symm short _ few ⟨[]⟩
    rw [read]
    rfl
  · cases sets with
    | nil => rfl
    | cons first rest =>
      refine absurd (decide_eq_true ?_) valid
      rw [flatMap_cons, length_append, EncodedSet.length_bytes]
      omega

theorem flatMap_reached (reachable : Reachable sets) :
    (reached sets).flatMap EncodedSet.shortEntries = sets.flatMap EncodedSet.shortEntries := by
  induction sets with
  | nil => rfl
  | cons first rest ih =>
    obtain ⟨later, reachable⟩ := pairwise_cons.mp reachable
    have nothing (stops : first.descriptors = [] ∨ first.padding ≠ 0) : rest.flatMap EncodedSet.shortEntries = [] := by
      refine flatMap_eq_nil_iff.mpr fun set member => ?_
      rw [EncodedSet.shortEntries, later set member stops, map_nil]
    rw [reached, flatMap_cons]
    split_ifs with empty padded
    · rw [nothing (.inl empty), EncodedSet.shortEntries, empty]
      rfl
    · simp [nothing (.inr padded)]
    · simp [ih reachable]

theorem reachable_of_length
    (all : ((reached sets).flatMap EncodedSet.shortEntries).length = (sets.flatMap EncodedSet.entries).length) :
    Reachable sets := by
  induction sets with
  | nil => exact List.Pairwise.nil
  | cons first rest ih =>
    have nothing (missing : (rest.flatMap EncodedSet.entries).length = 0) : Reachable (first :: rest) := by
      have without (set : EncodedSet) (member : set ∈ rest) : set.descriptors = [] :=
        map_eq_nil_iff.mp (flatMap_eq_nil_iff.mp (eq_nil_of_length_eq_zero missing) set member)
      exact pairwise_cons.mpr ⟨fun later member _ => without later member,
        pairwise_iff_forall_sublist.mpr fun {earlier later} both _ =>
          without later (both.subset (mem_cons_of_mem _ mem_cons_self))⟩
    have same : first.shortEntries.length = first.entries.length := by
      simp [EncodedSet.shortEntries, EncodedSet.entries]
    rw [reached, flatMap_cons, length_append] at all
    split_ifs at all with empty padded
    · rw [flatMap_nil, length_nil] at all
      exact nothing (by omega)
    · rw [flatMap_singleton] at all
      exact nothing (by omega)
    · rw [flatMap_cons, length_append] at all
      refine pairwise_cons.mpr ⟨fun later member stops => ?_, ih (by omega)⟩
      exact absurd stops (by rw [not_or, not_not]; exact ⟨empty, not_not.mp padded⟩)

theorem shortEntries_eq_entries (fits32 : ∀ descriptor ∈ encoded.descriptors, descriptor.length < 2 ^ 32) :
    encoded.shortEntries = encoded.entries := by
  refine map_congr_left fun descriptor member => ?_
  rw [uint32, Nat.mod_eq_of_lt (fits32 descriptor member)]

/-- The section is read completely when no set stops the loop too early and every size has 32 bits. -/
theorem complete_iff (order : ByteOrder) (addrSize : Nat) {sets : List EncodedSet}
    (short : (sets.flatMap (EncodedSet.bytes · order)).length < 2 ^ 32) :
    Complete order addrSize sets ↔
      Reachable sets ∧ ∀ set ∈ sets, ∀ descriptor ∈ set.descriptors, descriptor.length < 2 ^ 32 := by
  rw [Complete, extract_sets order addrSize short]
  constructor
  · rintro ⟨_, extracted, all⟩
    obtain rfl := Option.some_inj.mp extracted
    refine ⟨reachable_of_length all.length_eq, fun set member descriptor inside => ?_⟩
    have appended := all.mem_iff.mpr
      (mem_flatMap.mpr ⟨set, member, mem_map.mpr ⟨descriptor, inside, rfl⟩⟩)
    obtain ⟨other, -, appended⟩ := mem_flatMap.mp appended
    obtain ⟨read, -, same⟩ := mem_map.mp appended
    have size : uint32 read.length = descriptor.length := congrArg (fun entry => entry.range.size) same
    rw [← size]
    exact Nat.mod_lt _ (by decide)
  · rintro ⟨reachable, fits32⟩
    refine ⟨_, rfl, .of_eq ?_⟩
    rw [flatMap_reached reachable]
    exact flatMap_congr fun set member => shortEntries_eq_entries (fits32 set member)

def shortSet (cuOffset : BitVec 32) (size : Option (Fin 12)) (padding : Fin 2) : EncodedSet :=
  ⟨cuOffset, 4, 0, replicate 4 0, (size.map fun size => (⟨4096, size⟩ : ArangeDescriptor)).toList, 8 * padding,
    .inl rfl, by decide, by revert size; decide, by revert size; decide, by revert padding; decide⟩

theorem complete_iff_two : Complete .little 4 [shortSet 0 (some 8) 0, shortSet 11 (some 4) 1] ↔
    Reachable [shortSet 0 (some 8) 0, shortSet 11 (some 4) 1] ∧
      ∀ set ∈ [shortSet 0 (some 8) 0, shortSet 11 (some 4) 1], ∀ descriptor ∈ set.descriptors,
        descriptor.length < 2 ^ 32 :=
  complete_iff .little 4 (by decide)

def longSet : EncodedSet :=
  ⟨0, 8, 0, replicate 4 0, [⟨4096, 2 ^ 32 + 16⟩], 0, .inr rfl, by decide, by decide, by decide, .inl rfl⟩

/-- Nothing is read behind an empty set and behind padding, and a size of 33 bits is cut. -/
theorem not_complete : ¬ Complete .little 4 [shortSet 0 none 0, shortSet 11 (some 4) 0] ∧
    ¬ Complete .little 4 [shortSet 0 (some 8) 1, shortSet 11 (some 4) 0] ∧ ¬ Complete .little 8 [longSet] := by
  refine ⟨?_, ?_, ?_⟩
  all_goals
    rintro ⟨aranges, extracted, all⟩
    obtain rfl := Option.some_inj.mp extracted
  · exact absurd all.length_eq (by decide)
  · exact absurd all.length_eq (by decide)
  · exact absurd all (by decide)

theorem Complete.covers {order : ByteOrder}
    (complete : Complete order addrSize sets) {set : EncodedSet} (member : set ∈ sets) {descriptor : ArangeDescriptor}
    (inside : descriptor ∈ set.descriptors) {address : Nat} (first : descriptor.address ≤ address)
    (last : address < descriptor.address + descriptor.length) :
    ∃ aranges, extract ⟨sets.flatMap (EncodedSet.bytes · order), order, addrSize⟩ = some aranges ∧
      ∃ entry ∈ aranges.entries, entry.range.base ≤ address ∧ address < entry.range.base + entry.range.size ∧
        entry.data = set.cuOffset.toNat := by
  obtain ⟨aranges, extracted, all⟩ := complete
  exact ⟨aranges, extracted, _, all.mem_iff.mpr
    (mem_flatMap.mpr ⟨set, member, mem_map.mpr ⟨descriptor, inside, rfl⟩⟩), first, last, rfl⟩

end Lldb.DWARFDebugAranges
