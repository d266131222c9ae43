import Lldb.Utility.JsonTokens

/-! Values that are written and read back. -/

set_option autoImplicit false

namespace Lldb.Json

open GdbRemote (Bytes ascii cString minus)
open List

namespace JSONNumber

def value : JSONNumber → Int
  | unsigned value => value.toNat
  | signed value => value.toInt

def normal : JSONNumber → JSONNumber
  | unsigned value => unsigned value
  | signed value => if value.toInt < 0 then signed value else unsigned value

end JSONNumber

mutual

def JSONValue.normal : JSONValue → JSONValue
  | .number number => .number number.normal
  | .object elements => .object (normalElements elements)
  | .array elements => .array (normalValues elements)
  | other => other

def normalElements : List (Bytes × JSONValue) → List (Bytes × JSONValue)
  | [] => []
  | (key, value) :: rest => (key, value.normal) :: normalElements rest

def normalValues : List JSONValue → List JSONValue
  | [] => []
  | value :: rest => value.normal :: normalValues rest

end

mutual

def JSONValue.cut : JSONValue → JSONValue
  | .string data => .string (cString data)
  | .number number => .number number.normal
  | .object elements => .object (cutElements [] elements)
  | .array elements => .array (cutValues elements)
  | other => other

def cutElements (before : List (Bytes × JSONValue)) : List (Bytes × JSONValue) → List (Bytes × JSONValue)
  | [] => before
  | (key, value) :: rest => cutElements (setObject before (cString key) value.cut) rest

def cutValues : List JSONValue → List JSONValue
  | [] => []
  | value :: rest => value.cut :: cutValues rest

end

mutual

def JSONValue.All (text : Bytes → Prop) (filled : Bool) : JSONValue → Prop
  | .string data => text data
  | .object elements => AllElements text filled elements
  | .array elements => (filled = true → elements ≠ []) ∧ AllValues text filled elements
  | _ => True

def AllElements (text : Bytes → Prop) (filled : Bool) : List (Bytes × JSONValue) → Prop
  | [] => True
  | (key, value) :: rest => (text key ∧ value.All text filled) ∧ AllElements text filled rest

def AllValues (text : Bytes → Prop) (filled : Bool) : List JSONValue → Prop
  | [] => True
  | value :: rest => value.All text filled ∧ AllValues text filled rest

end

abbrev JSONValue.Readable (value : JSONValue) : Prop := value.All (fun text => 0xff ∉ text) true

abbrev JSONValue.NulFree (value : JSONValue) : Prop := value.All (fun text => 0 ∉ text) false

def Eventually (run : Nat → Option JSONValue × JSONParser) (result : Option JSONValue × JSONParser) : Prop :=
  ∃ enough, ∀ fuel, enough ≤ fuel → run fuel = result

variable {run : Nat → Option JSONValue × JSONParser} {middle result : Option JSONValue × JSONParser}

theorem Eventually.of_succ {next : Nat → Option JSONValue × JSONParser} (later : Eventually next middle)
    (step : ∀ fuel, next fuel = middle → run (fuel + 1) = result) : Eventually run result := by
  obtain ⟨enough, all⟩ := later
  refine ⟨enough + 1, fun fuel large => ?_⟩
  obtain ⟨less, rfl⟩ := Nat.exists_eq_add_of_le' (Nat.le_trans (Nat.le_add_left 1 enough) large)
  exact step less (all less (by omega))

theorem Eventually.of_both {first second : Nat → Option JSONValue × JSONParser}
    {last : Option JSONValue × JSONParser} (left : Eventually first middle)
    (right : Eventually second last) (step : ∀ fuel, first fuel = middle → second fuel = last → run (fuel + 1) = result) :
    Eventually run result := by
  obtain ⟨here, left⟩ := left
  obtain ⟨there, right⟩ := right
  refine ⟨max here there + 1, fun fuel large => ?_⟩
  obtain ⟨less, rfl⟩ := Nat.exists_eq_add_of_le' (Nat.le_trans (Nat.le_add_left 1 _) large)
  exact step less (left less (by omega)) (right less (by omega))

theorem Eventually.of_all (all : ∀ fuel, run (fuel + 1) = result) : Eventually run result :=
  ⟨1, fun fuel large => by
    obtain ⟨less, rfl⟩ := Nat.exists_eq_add_of_le' large
    exact all less⟩

theorem Eventually.unique {first second : Option JSONValue × JSONParser}
    (left : Eventually run first) (right : Eventually run second) : first = second := by
  obtain ⟨here, left⟩ := left
  obtain ⟨there, right⟩ := right
  rw [← left (max here there) (le_max_left _ _), right (max here there) (le_max_right _ _)]

theorem notMem_cString {text : Bytes} (absent : (0xff : UInt8) ∉ text) : 0xff ∉ cString text :=
  fun member => absent ((takeWhile_sublist _).subset member)

namespace JSONParser

variable {getAsInteger : GetAsInteger} (reads : getAsInteger.Reads)

include reads

theorem number_reads (number : JSONNumber) (index : Nat) {tail : Bytes} (delimited : Delimited tail) :
    ∃ last, Eventually (fun fuel => parseJSONValue getAsInteger fuel ⟨index, number.write ++ tail⟩)
      (some (.number number.normal), ⟨last, tail⟩) := by
  have plain (value : BitVec 64) : ∃ last, Eventually
      (fun fuel => parseJSONValue getAsInteger fuel ⟨index, decimal value.toNat ++ tail⟩)
      (some (.number (.unsigned value)), ⟨last, tail⟩) := by
    obtain ⟨last, token⟩ := getToken_decimal index value.toNat delimited
    refine ⟨last, .of_all fun fuel => ?_⟩
    have noMinus : (decimal value.toNat).head? ≠ some minus := by
      intro head
      have digit := isDigit_of_mem_decimal (mem_of_head? head)
      cases digit
    rw [parseJSONValue, token]
    simp [if_neg noMinus, reads.unsigned value]
  cases number with
  | unsigned value => exact plain value
  | signed value =>
    by_cases negative : value.toInt < 0
    · obtain ⟨last, token⟩ := getToken_minus index (-value.toInt).toNat delimited
      refine ⟨last, .of_all fun fuel => ?_⟩
      rw [JSONNumber.write, if_pos negative, parseJSONValue, token, JSONNumber.normal, if_pos negative]
      simp [reads.signed value negative]
    · rw [JSONNumber.write, if_neg negative, JSONNumber.normal, if_neg negative]
      have same : value.toInt.toNat = value.toNat := by
        rw [BitVec.toInt_eq_toNat_cond] at negative ⊢
        split_ifs at negative ⊢ <;> omega
      rw [same]
      exact plain value

omit reads in
theorem delimited_elements (elements : List (Bytes × JSONValue)) (tail : Bytes) :
    Delimited (writeElements false elements ++ braceClose :: tail) := by
  cases elements with
  | nil => exact fun c head => .inr (.inr (Option.some.inj head).symm)
  | cons element rest => exact fun c head => .inl (Option.some.inj head).symm

omit reads in
theorem delimited_values (elements : List JSONValue) (tail : Bytes) :
    Delimited (writeValues false elements ++ bracketClose :: tail) := by
  cases elements with
  | nil => exact fun c head => .inr (.inl (Option.some.inj head).symm)
  | cons element rest => exact fun c head => .inl (Option.some.inj head).symm

set_option linter.unusedSectionVars false in
mutual

theorem value_reads (value : JSONValue) (readable : value.Readable) (index : Nat) {tail : Bytes}
    (delimited : Delimited tail) :
    ∃ last, Eventually (fun fuel => parseJSONValue getAsInteger fuel ⟨index, value.write ++ tail⟩)
      (some value.cut, ⟨last, tail⟩) := by
  cases value with
  | string data =>
    obtain ⟨last, token⟩ := getToken_writeString index tail (notMem_cString readable)
    refine ⟨last, .of_all fun fuel => ?_⟩
    rw [JSONValue.write, parseJSONValue, token, JSONValue.cut]
  | number number => exact number_reads reads number index delimited
  | trueValue =>
    refine ⟨index + 4, .of_all fun fuel => ?_⟩
    rw [JSONValue.write, parseJSONValue, getToken_trueValue]
    rfl
  | falseValue =>
    refine ⟨index + 5, .of_all fun fuel => ?_⟩
    rw [JSONValue.write, parseJSONValue, getToken_falseValue]
    rfl
  | nullValue =>
    refine ⟨index + 4, .of_all fun fuel => ?_⟩
    rw [JSONValue.write, parseJSONValue, getToken_nullValue]
    rfl
  | object elements =>
    obtain ⟨last, inside⟩ := elements_read elements readable true [] (index + 1) tail
    refine ⟨last, inside.of_succ fun fuel parsed => ?_⟩
    rw [JSONValue.write, cons_append, append_assoc, singleton_append, parseJSONValue, getToken_objectStart]
    exact parsed
  | array elements =>
    obtain ⟨last, inside⟩ := values_read elements (readable.1 rfl) readable.2 [] (index + 1) tail
    refine ⟨last, inside.of_succ fun fuel parsed => ?_⟩
    rw [JSONValue.write, cons_append, append_assoc]
    exact parsed

theorem elements_read (elements : List (Bytes × JSONValue)) (readable : AllElements (fun text => 0xff ∉ text) true elements)
    (first : Bool) (before : List (Bytes × JSONValue)) (index : Nat) (tail : Bytes) :
    ∃ last, Eventually
      (fun fuel => parseJSONObject getAsInteger fuel before ⟨index, writeElements first elements ++ braceClose :: tail⟩)
      (some (.object (cutElements before elements)), ⟨last, tail⟩) := by
  cases elements with
  | nil =>
    refine ⟨index + 1, .of_all fun fuel => ?_⟩
    rw [writeElements, nil_append, parseJSONObject, getToken_objectEnd, cutElements]
  | cons element rest =>
    obtain ⟨key, value⟩ := element
    obtain ⟨⟨keyReadable, valueReadable⟩, restReadable⟩ := readable
    -- The element without a comma in front of it.
    have here (index : Nat) : ∃ last, Eventually
        (fun fuel => parseJSONObject getAsInteger fuel before
          ⟨index, writeString key ++ (colon :: (value.write ++ (writeElements false rest ++ braceClose :: tail)))⟩)
        (some (.object (cutElements before ((key, value) :: rest))), ⟨last, tail⟩) := by
      obtain ⟨behindKey, keyToken⟩ := getToken_writeString index
        (colon :: (value.write ++ (writeElements false rest ++ braceClose :: tail))) (notMem_cString keyReadable)
      obtain ⟨behindValue, valueRead⟩ := value_reads value valueReadable (behindKey + 1) (delimited_elements rest tail)
      obtain ⟨last, restRead⟩ :=
        elements_read rest restReadable false (setObject before (cString key) value.cut) behindValue tail
      refine ⟨last, valueRead.of_both restRead fun fuel parsed following => ?_⟩
      rw [parseJSONObject, keyToken]
      dsimp only
      rw [getToken_colon]
      dsimp only
      rw [parsed]
      exact following
    cases first with
    | true =>
      obtain ⟨last, read⟩ := here index
      refine ⟨last, ?_⟩
      simpa only [writeElements, if_true, nil_append, append_assoc, cons_append] using read
    | false =>
      obtain ⟨last, read⟩ := here (index + 1)
      refine ⟨last, read.of_succ fun fuel parsed => ?_⟩
      rw [writeElements, if_neg Bool.false_ne_true, append_assoc, singleton_append, parseJSONObject, getToken_comma]
      simpa only [append_assoc, cons_append] using parsed

theorem values_read (elements : List JSONValue) (filled : elements ≠ [])
    (readable : AllValues (fun text => 0xff ∉ text) true elements) (before : List JSONValue) (index : Nat)
    (tail : Bytes) :
    ∃ last, Eventually
      (fun fuel => parseJSONArray getAsInteger fuel before ⟨index, writeValues true elements ++ bracketClose :: tail⟩)
      (some (.array (before ++ cutValues elements)), ⟨last, tail⟩) := by
  cases elements with
  | nil => exact absurd rfl filled
  | cons value rest =>
    obtain ⟨valueReadable, restReadable⟩ := readable
    obtain ⟨behindValue, valueRead⟩ := value_reads value valueReadable index (delimited_values rest tail)
    by_cases last : rest = []
    · subst last
      refine ⟨behindValue + 1, valueRead.of_succ fun fuel parsed => ?_⟩
      rw [writeValues, if_pos rfl, nil_append, append_assoc, parseJSONArray, parsed]
      rfl
    · obtain ⟨last, restRead⟩ := values_read rest last restReadable (before ++ [value.cut]) (behindValue + 1) tail
      refine ⟨last, valueRead.of_both restRead fun fuel parsed following => ?_⟩
      rw [writeValues, if_pos rfl, nil_append, append_assoc, parseJSONArray, parsed, cutValues,
        append_cons before, ← following]
      cases rest with
      | nil => exact absurd rfl last
      | cons next rest => rfl

end

end JSONParser

end Lldb.Json
