import Lldb.Utility.DataExtractor

/-! How far reads move the offset, whatever the bytes are. -/

set_option autoImplicit false

namespace Lldb

open Option

namespace Cursor

variable {α β : Type}

def Forward (cursor : Cursor α) : Prop :=
  ∀ offset value after, cursor offset = some (value, after) → offset ≤ after

variable {first : Cursor α} {next : α → Cursor β}

theorem bind_eq_some {offset after : Nat} {value : β} : (first >>= next) offset = some (value, after) ↔
      ∃ read middle, first offset = some (read, middle) ∧ next read middle = some (value, after) := by
  change (first offset).bind _ = _ ↔ _
  rw [bind_eq_some_iff]
  exact ⟨fun ⟨read, is, rest⟩ => ⟨read.1, read.2, is, rest⟩, fun ⟨read, middle, is, rest⟩ => ⟨(read, middle), is, rest⟩⟩

theorem bind_isSome {offset : Nat} : ((first >>= next) offset).isSome = true ↔
      ∃ read middle, first offset = some (read, middle) ∧ (next read middle).isSome = true := by
  change ((first offset).bind _).isSome = true ↔ _
  cases first offset with
  | none => exact iff_of_false Bool.false_ne_true fun ⟨_, _, is, _⟩ => nomatch is
  | some read => exact ⟨fun rest => ⟨read.1, read.2, rfl, rest⟩, fun ⟨_, _, is, rest⟩ => by cases is; exact rest⟩

theorem map_isSome (make : α → β) (offset : Nat) :
    ((do return make (← first) : Cursor β) offset).isSome = (first offset).isSome := by
  change ((first offset).bind _).isSome = _
  cases first offset <;> rfl

theorem bind_read {offset middle : Nat} {read : α}
    (is : first offset = some (read, middle)) : (first >>= next) offset = next read middle := by
  change (first offset).bind _ = _
  rw [is]
  rfl

theorem get_read (offset : Nat) : (get : Cursor Nat) offset = some (offset, offset) := rfl

theorem Forward.bind (first_ : first.Forward) (next_ : ∀ read, (next read).Forward) : (first >>= next).Forward := by
  intro offset value after is
  obtain ⟨read, middle, reads, rest⟩ := bind_eq_some.mp is
  exact (first_ _ _ _ reads).trans (next_ read _ _ _ rest)

theorem Forward.pure (value : α) : (Pure.pure value : Cursor α).Forward := by
  intro offset read after is
  cases is
  exact le_rfl

theorem Forward.get : (MonadState.get : Cursor Nat).Forward := by
  intro offset read after is
  cases is
  exact le_rfl

theorem Forward.lift (value : Option α) : Forward (StateT.lift value : Cursor α) := by
  intro offset read after is
  obtain ⟨inner, -, same⟩ := bind_eq_some_iff.mp is
  cases same
  exact le_rfl

theorem Forward.skip (count : Nat) : (modify (· + count) : Cursor PUnit).Forward := by
  intro offset read after is
  cases is
  exact Nat.le_add_right _ _

def Total (cursor : Cursor α) : Prop := ∀ offset, (cursor offset).isSome = true

theorem Total.bind (first_ : first.Total) (next_ : ∀ read, (next read).Total) : (first >>= next).Total := by
  intro offset
  obtain ⟨⟨read, middle⟩, is⟩ := isSome_iff_exists.mp (first_ offset)
  exact bind_isSome.mpr ⟨read, middle, is, next_ read middle⟩

theorem Total.pure (value : α) : (Pure.pure value : Cursor α).Total := fun _ => rfl

theorem Total.get : (MonadState.get : Cursor Nat).Total := fun _ => rfl

def Gives (cursor : Cursor α) (holds : α → Prop) : Prop :=
  ∀ offset value after, cursor offset = some (value, after) → holds value

variable {holds : β → Prop}

theorem Gives.bind (next_ : ∀ read, (next read).Gives holds) : (first >>= next).Gives holds := by
  intro offset value after is
  obtain ⟨read, middle, -, rest⟩ := bind_eq_some.mp is
  exact next_ read _ _ _ rest

theorem Gives.pure {value : β} (is : holds value) : (Pure.pure value : Cursor β).Gives holds := by
  intro offset read after same
  cases same
  exact is

theorem Gives.lift {value : Option β} (is : ∀ read, value = some read → holds read) :
    Gives (StateT.lift value : Cursor β) holds := by
  intro offset read after reads
  obtain ⟨inner, found, same⟩ := bind_eq_some_iff.mp reads
  cases same
  exact is _ found

end Cursor

namespace DataExtractor

variable {data : DataExtractor}

theorem forward_getData (length : Nat) : (data.getData length).Forward := by
  intro offset value after is
  unfold getData at is
  split at is <;> cases is
  · exact Nat.le_add_right _ _
  · exact le_rfl

theorem forward_getMaxU64 (size : Nat) : (data.getMaxU64 size).Forward := by
  refine (forward_getData size).bind fun read => ?_
  cases read <;> exact .pure _

theorem forward_getULEB128 : data.getULEB128.Forward := by
  intro offset value after is
  unfold getULEB128 at is
  split at is
  · cases is
    exact le_rfl
  · split at is
    · obtain ⟨read, -, same⟩ := map_eq_some_iff.mp is
      cases same
      exact Nat.le_add_right _ _
    · cases is
      exact Nat.le_succ _

theorem forward_getSLEB128 : data.getSLEB128.Forward := by
  intro offset value after is
  unfold getSLEB128 at is
  split at is
  · cases is
    exact le_rfl
  · obtain ⟨⟨result, shift, byte, count⟩, -, rest⟩ := bind_eq_some_iff.mp is
    dsimp only at rest
    split at rest
    · split at rest
      · obtain ⟨-, same⟩ := Prod.mk.inj (Option.some.inj rest)
        omega
      · cases rest
    · obtain ⟨-, same⟩ := Prod.mk.inj (Option.some.inj rest)
      omega

theorem forward_skipLEB128 : data.skipLEB128.Forward := by
  intro offset value after is
  cases is
  exact Nat.le_add_right _ _

theorem lt_of_getCStr {offset after : Nat} {string : List UInt8}
    (is : data.getCStr offset = some (some string, after)) :
    offset < after := by
  unfold getCStr at is
  split at is
  · split at is
    · cases is
      omega
    · cases is
  · cases is

theorem forward_getCStr : data.getCStr.Forward := by
  intro offset value after is
  cases value with
  | some string => exact (lt_of_getCStr is).le
  | none =>
    unfold getCStr at is
    split at is
    · split at is <;> cases is
    · cases is
      exact le_rfl

theorem exists_getMaxU64 (data : DataExtractor) (size offset : Nat) :
    ∃ value after, data.getMaxU64 size offset = some (value, after) := by
  change ∃ value after, (data.getData size offset).bind _ = some (value, after)
  unfold getData
  split <;> exact ⟨_, _, rfl⟩

theorem total_getMaxU64 (size : Nat) : (data.getMaxU64 size).Total := by
  intro offset
  obtain ⟨value, after, read⟩ := exists_getMaxU64 data size offset
  rw [read]
  rfl

theorem getU8_inside {offset : Nat} {byte : UInt8} (is : data.bytes[offset]? = some byte) :
    data.getU8 offset = some (byte.toNat, offset + 1) := by
  refine getU8_at ⟨data.bytes.drop (offset + 1), ?_⟩
  obtain ⟨inside, rfl⟩ := List.getElem?_eq_some_iff.mp is
  exact (List.drop_eq_getElem_cons inside).symm

/-! Behind the data nothing is read, and the offset stays. -/

variable {offset : Nat}

theorem getU8_behind (behind : data.bytes.length ≤ offset) : data.getU8 offset = some (0, offset) := by
  have invalid : ¬ data.validOffsetForDataOfSize offset 1 = true := fun valid => by
    have room := of_decide_eq_true valid
    omega
  change (data.getData 1 offset).bind _ = _
  rw [getData, if_neg invalid]
  rfl

theorem getULEB128_behind (behind : data.bytes.length ≤ offset) : data.getULEB128 offset = some (0, offset) := by
  unfold getULEB128
  rw [List.drop_eq_nil_of_le behind]

end DataExtractor

end Lldb
