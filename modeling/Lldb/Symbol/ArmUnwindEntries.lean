import Lldb.Symbol.ArmUnwindAnchors

/-! Entries as the words of a section: where the opcodes begin and end, the bytes the loop reads, and
the row that the plan gets.
-/

set_option autoImplicit false

namespace Lldb.ArmUnwindInfo

open Library Personality List

variable (a b c d : UInt8)

theorem toNat_wordOf :
    (wordOf [a, b, c, d]).toNat = a.toNat * 2 ^ 24 + b.toNat * 2 ^ 16 + c.toNat * 2 ^ 8 + d.toNat := by
  have value : ByteOrder.big.decode [a, b, c, d] = a.toNat * 2 ^ 24 + b.toNat * 2 ^ 16 + c.toNat * 2 ^ 8 + d.toNat := by
    simp [ByteOrder.decode, ByteOrder.littleValue, Nat.ofDigits]
    ring
  have := a.toNat_lt
  have := b.toNat_lt
  have := c.toNat_lt
  have := d.toNat_lt
  rw [wordOf, value, BitVec.toNat_ofNat, Nat.mod_eq_of_lt (by omega)]

theorem wordsOf_cons (rest : List UInt8) :
    wordsOf (a :: b :: c :: d :: rest) = wordOf [a, b, c, d] :: wordsOf rest := by
  have length : (a :: b :: c :: d :: rest).length / 4 = rest.length / 4 + 1 := by
    simp only [length_cons]
    omega
  rw [wordsOf, length, range_succ_eq_map, map_cons, map_map]
  rfl

theorem four_of_le_length {bytes : List UInt8} (enough : 4 ≤ bytes.length) :
    ∃ a b c d rest, bytes = a :: b :: c :: d :: rest := by
  match bytes, enough with
  | a :: b :: c :: d :: rest, _ => exact ⟨a, b, c, d, rest, rfl⟩

theorem byte_of_toNat {value : Nat} {byte : UInt8} (same : value % 256 = byte.toNat) : UInt8.ofNat value = byte := by
  apply UInt8.toNat_inj.mp
  simp [same]

theorem getByteAtOffset_wordsOf {bytes : List UInt8} (whole : 4 ∣ bytes.length) (offset : Nat) :
    getByteAtOffset false (wordsOf bytes) offset = bytes[offset]? := by
  obtain ⟨words, length⟩ := whole
  induction words generalizing bytes offset with
  | zero =>
    rw [eq_nil_of_length_eq_zero (length.trans (mul_zero 4))]
    rfl
  | succ words ih =>
    obtain ⟨a, b, c, d, rest, rfl⟩ := four_of_le_length (show 4 ≤ bytes.length by omega)
    simp only [length_cons] at length
    rw [wordsOf_cons]
    by_cases first : offset < 4
    · have value := toNat_wordOf a b c d
      have := b.toNat_lt
      have := c.toNat_lt
      have := d.toNat_lt
      have word : getByteAtOffset false (wordOf [a, b, c, d] :: wordsOf rest) offset =
          some (UInt8.ofNat ((wordOf [a, b, c, d]).toNat >>> ((3 - offset) * 8))) := by
        unfold getByteAtOffset
        rw [Nat.div_eq_of_lt first, Nat.mod_eq_of_lt first]
        rfl
      rw [word]
      interval_cases offset
      · exact congrArg some (byte_of_toNat (by omega))
      · exact congrArg some (byte_of_toNat (by omega))
      · exact congrArg some (byte_of_toNat (by omega))
      · exact congrArg some (byte_of_toNat (by omega))
    · obtain ⟨less, rfl⟩ : ∃ less, offset = less + 4 := ⟨offset - 4, by omega⟩
      have later := ih less (show rest.length = 4 * words by omega)
      unfold getByteAtOffset at later ⊢
      rw [Nat.add_div_right _ (by decide : 0 < 4), Nat.add_mod_right]
      exact later

theorem mapM_getElem? (bytes : List UInt8) {start count : Nat} (inside : start + count ≤ bytes.length) :
    (List.range' start count).mapM (bytes[·]?) = some ((bytes.drop start).take count) := by
  induction count generalizing start with
  | zero => rfl
  | succ count ih =>
    have there : start < bytes.length := by omega
    rw [range'_succ, mapM_cons, ih (show start + 1 + count ≤ bytes.length by omega),
      getElem?_eq_getElem there, ← getElem_cons_drop there]
    rfl

/-! The header of an entry. -/

theorem wordOf_fields :
    ((wordOf [a, b, c, d]) >>> 24).toNat = a.toNat ∧ ((wordOf [a, b, c, d]) >>> 16).toNat &&& 0xff = b.toNat ∧
      ((wordOf [a, b, c, d]).msb = decide (128 ≤ a.toNat)) := by
  have value := toNat_wordOf a b c d
  have := b.toNat_lt
  have := c.toNat_lt
  have := d.toNat_lt
  refine ⟨?_, ?_, ?_⟩
  · rw [BitVec.toNat_ushiftRight]
    omega
  · rw [BitVec.toNat_ushiftRight, show 0xff = 2 ^ 8 - 1 from rfl, Nat.and_two_pow_sub_one_eq_mod]
    omega
  · rw [BitVec.msb_eq_decide]
    exact decide_eq_decide.mpr (by omega)

def Personality.offset : Personality → Nat
  | zero => 1
  | one | two => 2
  | generic _ => 5

theorem bytes_eq (personality : Personality) (opcodes : List UInt8) :
    ∃ front, front.length = personality.offset ∧ personality.bytes opcodes = front ++ opcodes := by
  cases personality with
  | zero => exact ⟨[_], rfl, rfl⟩
  | one => exact ⟨[_, _], rfl, rfl⟩
  | two => exact ⟨[_, _], rfl, rfl⟩
  | generic prel31 => exact ⟨ByteOrder.big.encode 4 prel31.toNat ++ [_], rfl, append_assoc _ [_] opcodes |>.symm⟩

theorem length_bytes (personality : Personality) (opcodes : List UInt8) :
    (personality.bytes opcodes).length = personality.offset + opcodes.length := by
  obtain ⟨front, length, bytes⟩ := bytes_eq personality opcodes
  simp [bytes, length]

variable {opcodes : List UInt8}

theorem room_whole {personality : Personality} (room : personality.Room opcodes.length) :
    4 ∣ (personality.bytes opcodes).length := by
  rw [length_bytes]
  cases personality with
  | zero => exact ⟨1, by rw [show opcodes.length = 3 from room]; rfl⟩
  | one | two =>
    obtain ⟨words, -, length⟩ := room
    exact ⟨words + 1, by rw [offset]; omega⟩
  | generic prel31 =>
    obtain ⟨words, -, length⟩ := room
    exact ⟨words + 2, by rw [offset]; omega⟩

theorem wordOf_ne_one {a b c d : UInt8} (top : 128 ≤ a.toNat) : wordOf [a, b, c, d] ≠ 1 := by
  intro one
  have value := toNat_wordOf a b c d
  rw [one] at value
  simp at value
  omega

theorem header_zero (room : opcodes.length = 3) : header (wordsOf (zero.bytes opcodes)) = some (some (1, 4)) := by
  obtain ⟨a, b, c, rfl⟩ := length_eq_three.mp room
  change header (wordsOf (0x80 :: a :: b :: c :: [])) = _
  obtain ⟨top, -, negative⟩ := wordOf_fields 0x80 a b c
  rw [wordsOf_cons]
  unfold header
  rw [getElem?_cons_zero, Option.bind_eq_bind, Option.bind_some, if_neg (wordOf_ne_one (by decide)),
    if_pos (negative.trans (by decide)), top]
  rfl

theorem header_counted {top : UInt8} (index : top = 0x81 ∨ top = 0x82) {words : Nat} (small : words < 256)
    (length : opcodes.length = 2 + 4 * words) :
    header (wordsOf (top :: UInt8.ofNat ((opcodes.length - 2) / 4) :: opcodes)) = some (some (2, 4 * words + 4)) := by
  obtain ⟨a, b, rest, rfl⟩ : ∃ a b rest, opcodes = a :: b :: rest := by
    match opcodes, length with
    | [], length => exact absurd length (by simp; omega)
    | [_], length => exact absurd length (by simp; omega)
    | a :: b :: rest, _ => exact ⟨a, b, rest, rfl⟩
  have count : (UInt8.ofNat (((a :: b :: rest).length - 2) / 4)).toNat = words := by
    rw [UInt8.toNat_ofNat']
    omega
  obtain ⟨first, second, negative⟩ := wordOf_fields top (UInt8.ofNat (((a :: b :: rest).length - 2) / 4)) a b
  have high : 128 ≤ top.toNat := by rcases index with rfl | rfl <;> decide
  rw [wordsOf_cons]
  unfold header
  rw [getElem?_cons_zero, Option.bind_eq_bind, Option.bind_some, if_neg (wordOf_ne_one high),
    if_pos (negative.trans (decide_eq_true high)), first, second, count]
  rcases index with rfl | rfl <;> rfl

theorem wordOf_encode (prel31 : BitVec 31) : wordOf (ByteOrder.big.encode 4 prel31.toNat) = prel31.setWidth 32 := by
  rw [wordOf, ByteOrder.decode_encode _ (by omega)]
  apply BitVec.eq_of_toNat_eq
  simp

theorem header_generic (prel31 : BitVec 31) {words : Nat} (small : words < 256)
    (length : opcodes.length = 3 + 4 * words) :
    header (wordsOf ((generic prel31).bytes opcodes)) =
      some (if prel31 = 1 then none else some (5, 4 * words + 8)) := by
  obtain ⟨a, b, c, rest, rfl⟩ : ∃ a b c rest, opcodes = a :: b :: c :: rest := by
    match opcodes, length with
    | [], length => exact absurd length (by simp; omega)
    | [_], length => exact absurd length (by simp; omega)
    | [_, _], length => exact absurd length (by simp; omega)
    | a :: b :: c :: rest, _ => exact ⟨a, b, c, rest, rfl⟩
  have count : (UInt8.ofNat (((a :: b :: c :: rest).length - 3) / 4)).toNat = words := by
    rw [UInt8.toNat_ofNat']
    omega
  obtain ⟨w, x, y, z, encoded⟩ : ∃ w x y z, ByteOrder.big.encode 4 prel31.toNat = [w, x, y, z] := ⟨_, _, _, _, rfl⟩
  have first := wordOf_encode prel31
  rw [encoded] at first
  obtain ⟨second, -, -⟩ := wordOf_fields (UInt8.ofNat (((a :: b :: c :: rest).length - 3) / 4)) a b c
  have bytes : (generic prel31).bytes (a :: b :: c :: rest) =
      w :: x :: y :: z :: UInt8.ofNat (((a :: b :: c :: rest).length - 3) / 4) :: a :: b :: c :: rest := by
    rw [bytes, encoded]
    rfl
  have one : prel31.setWidth 32 = 1 ↔ prel31 = 1 := by
    constructor
    · intro same
      have value := congrArg BitVec.toNat same
      exact BitVec.eq_of_toNat_eq value
    · rintro rfl
      rfl
  have positive : (prel31.setWidth 32).msb = false := by
    rw [BitVec.msb_setWidth]
    simp
  rw [bytes, wordsOf_cons, wordsOf_cons, first]
  unfold header
  rw [getElem?_cons_zero, Option.bind_eq_bind, Option.bind_some]
  by_cases special : prel31 = 1
  · rw [if_pos (one.mpr special), if_pos special]
    rfl
  · rw [if_neg (mt one.mp special), if_neg special, positive]
    change some (some (5, 4 * (((wordOf _) >>> 24).toNat &&& 0xff) + 8)) = _
    rw [second, count, show 0xff = 2 ^ 8 - 1 from rfl, Nat.and_two_pow_sub_one_eq_mod, Nat.mod_eq_of_lt small]

theorem header_bytes {personality : Personality} (room : personality.Room opcodes.length) :
    header (wordsOf (personality.bytes opcodes)) =
      some (if personality = .generic 1 then none else some (personality.offset, (personality.bytes opcodes).length)) := by
  rw [length_bytes]
  cases personality with
  | zero =>
    rw [header_zero room, show opcodes.length = 3 from room]
    rfl
  | one =>
    obtain ⟨words, small, length⟩ := room
    rw [bytes, header_counted (.inl rfl) small length, offset]
    congr 3
    omega
  | two =>
    obtain ⟨words, small, length⟩ := room
    rw [bytes, header_counted (.inr rfl) small length, offset]
    congr 3
    omega
  | generic prel31 =>
    obtain ⟨words, small, length⟩ := room
    rw [header_generic prel31 small length, offset]
    by_cases special : prel31 = 1
    · rw [if_pos special, if_pos (congrArg generic special)]
    · rw [if_neg special, if_neg fun same => special (by injection same)]
      congr 3
      omega

/-! The plan. -/

def unwindPlan (plan : UnwindPlan) (row : Row) : UnwindPlan :=
  { plan with
    rowList := UnwindPlan.appendRow plan.rowList row
    sourceName := "ARM.exidx unwind info"
    registerKind := .dwarf }

theorem getUnwindPlan_entry (entry : Entry) (plan : UnwindPlan) (regular : entry.personality ≠ .generic 1) :
    let bytes := Opcode.encodeAll entry.opcodes ++ entry.padding
    getUnwindPlan false entry.words plan =
      (loop bytes.length State.start bytes).map fun state => state.map fun state => unwindPlan plan (row state) := by
  intro bytes
  have whole := room_whole entry.room
  have head := header_bytes entry.room
  rw [if_neg regular] at head
  obtain ⟨front, start, split⟩ := bytes_eq entry.personality bytes
  have read : getByteAtOffset false entry.words = ((entry.personality.bytes bytes)[·]?) := by
    funext offset
    exact getByteAtOffset_wordsOf whole offset
  have collected : (range' entry.personality.offset
      ((entry.personality.bytes bytes).length - entry.personality.offset)).mapM (getByteAtOffset false entry.words) =
        some bytes := by
    have length := length_bytes entry.personality bytes
    rw [read, mapM_getElem? _ (by omega), split, ← start, drop_left, length_append, Nat.add_sub_cancel_left,
      take_length]
  unfold getUnwindPlan
  rw [Entry.words] at collected ⊢
  rw [head, Option.bind_eq_bind, Option.bind_some]
  simp only
  rw [collected, Option.bind_eq_bind, Option.bind_some]
  cases loop bytes.length State.start bytes <;> rfl

theorem getLast?_appendRow (rowList : List Row) (row : Row) : (UnwindPlan.appendRow rowList row).getLast? = some row := by
  unfold UnwindPlan.appendRow
  split
  · rfl
  · split
    · exact getLast?_concat
    · exact getLast?_concat

/-- In the byte order of the host the plan of an entry ends with a row that gives the canonical frame
address and the slots of the execution exactly for the opcodes that are read and keep to one register.
-/
theorem unwind_plan_gives_iff (entry : Entry) (plan : UnwindPlan) :
    (∃ given, getUnwindPlan false entry.words plan = some (some given) ∧
      ∃ row, given.rowList.getLast? = some row ∧ Gives row entry.opcodes) ↔
        entry.personality ≠ .generic 1 ∧ (∀ opcode ∈ entry.opcodes, opcode.Supported) ∧ Anchored entry.opcodes := by
  by_cases regular : entry.personality = .generic 1
  · have refused : getUnwindPlan false entry.words plan = some none := by
      have head := header_bytes entry.room
      rw [if_pos regular] at head
      unfold getUnwindPlan
      rw [Entry.words, head]
      rfl
    constructor
    · rintro ⟨given, got, -⟩
      cases refused.symm.trans got
    · exact fun ⟨other, _⟩ => absurd regular other
  · rw [getUnwindPlan_entry entry plan regular]
    by_cases supported : ∀ opcode ∈ entry.opcodes, opcode.Supported
    · rw [loop_encodeAll supported entry.finish State.start le_rfl, ← gives_iff]
      constructor
      · rintro ⟨given, got, row, last, gives⟩
        cases got
        cases (getLast?_appendRow plan.rowList _).symm.trans last
        exact ⟨regular, supported, gives⟩
      · rintro ⟨-, -, gives⟩
        exact ⟨_, rfl, _, getLast?_appendRow plan.rowList _, gives⟩
    · constructor
      · rintro ⟨given, got, -⟩
        obtain ⟨after, looped, mapped⟩ := Option.map_eq_some_iff.mp got
        cases after with
        | none => cases mapped
        | some state =>
          simp only [not_forall] at supported
          obtain ⟨opcode, there, unsupported⟩ := supported
          exact absurd looped (loop_unsupported there unsupported entry.padding _ state _)
      · exact fun ⟨_, all, _⟩ => absurd all supported

def popVfp8Entry : Entry where
  personality := .zero
  opcodes := [.popVfp8 0]
  padding := [0xb0, 0xb0]
  room := rfl
  finish _ there := (Option.some.inj there).symm

theorem unwind_plan_not_always_gives :
    ¬ ∀ plan, ∃ given, getUnwindPlan false popVfp8Entry.words plan = some (some given) ∧
      ∃ row, given.rowList.getLast? = some row ∧ Gives row popVfp8Entry.opcodes := by
  intro always
  obtain ⟨given, got, -⟩ := always ⟨[], "", .dwarf, 0, none, none⟩
  have refused : getUnwindPlan false popVfp8Entry.words ⟨[], "", .dwarf, 0, none, none⟩ = some none := rfl
  cases refused.symm.trans got

end Lldb.ArmUnwindInfo
