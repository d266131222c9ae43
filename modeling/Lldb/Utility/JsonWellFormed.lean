import Lldb.Utility.JsonRoundTrip

/-! Which values come back from what is written for them. -/

set_option autoImplicit false

namespace Lldb.Json

open GdbRemote (Bytes ascii cString lowByte minus)
open JSONParser List

namespace JSONNumber

theorem normal_normal (number : JSONNumber) : number.normal.normal = number.normal := by
  cases number with
  | unsigned value => rfl
  | signed value => by_cases negative : value.toInt < 0 <;> simp [normal, negative]

end JSONNumber

theorem stringLess_asymm {key other : Bytes} (less : stringLess key other = true) : stringLess other key = false := by
  induction key generalizing other with
  | nil => cases other <;> rfl
  | cons c key ih =>
    cases other with
    | nil => cases less
    | cons d other =>
      rw [stringLess] at less ⊢
      by_cases below : c < d
      · rw [if_neg (UInt8.not_lt.mpr (UInt8.le_of_lt below)), if_pos below]
      · rw [if_neg below] at less
        by_cases above : d < c
        · rw [if_pos above] at less
          cases less
        · rw [if_neg above] at less ⊢
          rw [if_neg below]
          exact ih less

theorem insertElement_last {key : Bytes} {value : JSONValue} {elements : List (Bytes × JSONValue)}
    (behind : ∀ element ∈ elements, stringLess element.1 key = true) :
    insertElement key value elements = elements ++ [(key, value)] := by
  induction elements with
  | nil => rfl
  | cons element rest ih =>
    rw [forall_mem_cons] at behind
    rw [insertElement, stringLess_asymm behind.1, behind.1, ih behind.2]
    rfl

section All

variable {text : Bytes → Prop} {filled : Bool}

variable {value : JSONValue} {elements : List (Bytes × JSONValue)}

theorem AllElements.insertElement {key : Bytes} (keyAll : text key) (valueAll : value.All text filled)
    (all : AllElements text filled elements) : AllElements text filled (insertElement key value elements) := by
  induction elements with
  | nil => exact ⟨⟨keyAll, valueAll⟩, trivial⟩
  | cons element rest ih =>
    rw [Json.insertElement]
    split_ifs
    · exact ⟨⟨keyAll, valueAll⟩, all⟩
    · exact ⟨all.1, ih all.2⟩
    · exact ⟨⟨all.1.1, valueAll⟩, all.2⟩

theorem AllElements.setObject {key : Bytes} (keyAll : text key) (valueAll : value.All text filled)
    (all : AllElements text filled elements) : AllElements text filled (setObject elements key value) := by
  rw [Json.setObject]
  split_ifs
  · exact all
  · exact all.insertElement keyAll valueAll

theorem AllValues.concat (valueAll : value.All text filled) {elements : List JSONValue}
    (all : AllValues text filled elements) : AllValues text filled (elements ++ [value]) := by
  induction elements with
  | nil => exact ⟨valueAll, trivial⟩
  | cons first rest ih => exact ⟨all.1, ih all.2⟩

theorem normalValues_eq_nil {elements : List JSONValue} : normalValues elements = [] ↔ elements = [] := by
  cases elements with
  | nil => exact Iff.rfl
  | cons value rest => exact ⟨fun same => (by cases same), fun same => (by cases same)⟩

mutual

theorem all_normal (value : JSONValue) : value.normal.All text filled ↔ value.All text filled := by
  cases value with
  | object elements => exact all_normalElements elements
  | array elements =>
    exact and_congr (imp_congr_right fun _ => not_congr normalValues_eq_nil) (all_normalValues elements)
  | _ => exact Iff.rfl

theorem all_normalElements (elements : List (Bytes × JSONValue)) :
    AllElements text filled (normalElements elements) ↔ AllElements text filled elements := by
  cases elements with
  | nil => exact Iff.rfl
  | cons element rest =>
    obtain ⟨key, value⟩ := element
    exact and_congr (and_congr_right fun _ => all_normal value) (all_normalElements rest)

theorem all_normalValues (elements : List JSONValue) :
    AllValues text filled (normalValues elements) ↔ AllValues text filled elements := by
  cases elements with
  | nil => exact Iff.rfl
  | cons value rest => exact and_congr (all_normal value) (all_normalValues rest)

end

end All

mutual

theorem cut_nulFree (value : JSONValue) : value.cut.NulFree := by
  cases value with
  | string data => exact nul_notMem_cString data
  | object elements => exact cutElements_nulFree elements trivial
  | array elements => exact ⟨fun filled => Bool.noConfusion filled, cutValues_nulFree elements⟩
  | _ => exact trivial

theorem cutElements_nulFree (elements : List (Bytes × JSONValue)) {before : List (Bytes × JSONValue)}
    (free : AllElements (fun text => 0 ∉ text) false before) :
    AllElements (fun text => 0 ∉ text) false (cutElements before elements) := by
  cases elements with
  | nil => exact free
  | cons element rest =>
    obtain ⟨key, value⟩ := element
    exact cutElements_nulFree rest (free.setObject (nul_notMem_cString key) (cut_nulFree value))

theorem cutValues_nulFree (elements : List JSONValue) :
    AllValues (fun text => 0 ∉ text) false (cutValues elements) := by
  cases elements with
  | nil => exact trivial
  | cons value rest => exact ⟨cut_nulFree value, cutValues_nulFree rest⟩

end

/-! ## What the parser returns -/

namespace JSONParser

def ReadableToken (result : Token × Bytes × JSONParser) : Prop := result.1 = .string → 0xff ∉ result.2.1

theorem ReadableToken.ite {condition : Prop} [Decidable condition] {first second : Token × Bytes × JSONParser}
    (left : ReadableToken first) (right : ReadableToken second) :
    ReadableToken (if condition then first else second) := by
  split
  · exact left
  · exact right

theorem ReadableToken.of_ne {result : Token × Bytes × JSONParser} (other : result.1 ≠ .string) :
    ReadableToken result := fun same => absurd same other

theorem getString_readable (startIndex : Nat) (value : Bytes) (parser : JSONParser) (readable : 0xff ∉ value) :
    ReadableToken (getString startIndex value parser) := by
  fun_induction getString startIndex value parser with
  | case1 => exact .of_ne Token.noConfusion
  | case2 value parser escaped error inside range ih =>
    apply ih
    rw [mem_append, mem_singleton, not_or]
    exact ⟨readable, fun same => error ((signedChar_eq_iff 0xff range.1 range.2).mpr same).symm⟩
  | case3 => exact .of_ne Token.noConfusion
  | case4 => exact fun _ => readable
  | case5 => exact .of_ne Token.noConfusion

theorem getWord_readable {startIndex : Nat} {ch : UInt8} {token : Token} {word : Bytes} {parser : JSONParser}
    (other : token ≠ .string) : ReadableToken (getWord startIndex ch token word parser) :=
  .ite (.of_ne other) (.of_ne Token.noConfusion)

theorem numberToken_ne (scan : NumberScan) (value : Bytes) : (numberToken scan value).1 ≠ .string := by
  unfold numberToken
  split_ifs <;> exact Token.noConfusion

theorem getNumber_readable {start : JSONParser} {ch : UInt8} {rest : Bytes} :
    ReadableToken (getNumber start ch rest) := by
  unfold getNumber
  split
  · exact .of_ne Token.noConfusion
  · exact .of_ne (numberToken_ne _ _)

theorem getToken_readable (parser : JSONParser) : ReadableToken parser.getToken := by
  repeat' apply ReadableToken.ite
  all_goals first
    | exact getString_readable _ [] _ not_mem_nil
    | exact getWord_readable Token.noConfusion
    | exact getNumber_readable
    | exact .of_ne Token.noConfusion

variable {getAsInteger : GetAsInteger}

theorem read_readable (fuel : Nat) : (∀ {parser last : JSONParser} {value : JSONValue},
      parseJSONValue getAsInteger fuel parser = (some value, last) → value.Readable) ∧
    (∀ {elements : List (Bytes × JSONValue)} {parser last : JSONParser} {value : JSONValue},
      AllElements (fun text => 0xff ∉ text) true elements →
        parseJSONObject getAsInteger fuel elements parser = (some value, last) → value.Readable) ∧
    ∀ {elements : List JSONValue} {parser last : JSONParser} {value : JSONValue},
      AllValues (fun text => 0xff ∉ text) true elements →
        parseJSONArray getAsInteger fuel elements parser = (some value, last) → value.Readable := by
  induction fuel with
  | zero =>
    refine ⟨fun read => ?_, fun _ read => ?_, fun _ read => ?_⟩ <;> cases read
  | succ fuel ih =>
    obtain ⟨ofValue, ofObject, ofArray⟩ := ih
    refine ⟨fun {parser last value} read => ?_, fun {elements parser last value} all read => ?_,
      fun {elements parser last value} all read => ?_⟩
    · have text := parser.getToken_readable
      rw [parseJSONValue] at read
      split at read <;> rename_i token
      · exact @ofObject [] _ _ _ trivial read
      · exact @ofArray [] _ _ _ trivial read
      · obtain ⟨number, rfl⟩ : ∃ number, value = .number number := by
          split at read <;> obtain ⟨number, -, same⟩ := Option.map_eq_some_iff.mp (congrArg Prod.fst read) <;>
            exact ⟨_, same.symm⟩
        trivial
      · cases read
        rw [token] at text
        exact text rfl
      · cases read
        trivial
      · cases read
        trivial
      · cases read
        trivial
      · cases read
    · have text := parser.getToken_readable
      rw [parseJSONObject] at read
      split at read <;> rename_i token
      · rw [token] at text
        split at read
        · split at read <;> rename_i parsed
          · exact ofObject (all.setObject (text rfl) (ofValue parsed)) read
          · cases read
        · exact ofObject all read
      · cases read
        exact all
      · exact ofObject all read
      · cases read
    · rw [parseJSONArray] at read
      split at read
      · cases read
      · rename_i parsed
        have held := all.concat (ofValue parsed)
        split at read
        · exact ofArray held read
        · cases read
          exact ⟨fun _ => concat_ne_nil _ _, held⟩
        · cases read

end JSONParser

mutual

def JSONValue.WellFormed : JSONValue → Prop
  | .object elements => WellFormedElements elements
  | .array elements => WellFormedValues elements
  | _ => True

def WellFormedElements : List (Bytes × JSONValue) → Prop
  | [] => True
  | (key, value) :: rest =>
      (key ≠ [] ∧ value.WellFormed ∧ ∀ other ∈ rest, stringLess key other.1 = true) ∧ WellFormedElements rest

def WellFormedValues : List JSONValue → Prop
  | [] => True
  | value :: rest => value.WellFormed ∧ WellFormedValues rest

end

theorem normalElements_append (elements others : List (Bytes × JSONValue)) :
    normalElements (elements ++ others) = normalElements elements ++ normalElements others := by
  induction elements with
  | nil => rfl
  | cons element rest ih => exact congrArg ((element.1, element.2.normal) :: ·) ih

theorem cString_of_nulFree {text : Bytes} (free : 0 ∉ text) : cString text = text := by
  refine takeWhile_eq_self_iff.mpr fun c member => ?_
  rw [decide_eq_true_eq]
  rintro rfl
  exact free member

mutual

theorem normal_cut (value : JSONValue) (wellFormed : value.WellFormed) (free : value.NulFree) :
    value.cut.normal = value.normal := by
  cases value with
  | string data => exact congrArg JSONValue.string (cString_of_nulFree free)
  | number number => exact congrArg JSONValue.number number.normal_normal
  | object elements =>
    exact congrArg JSONValue.object
      (normal_cutElements elements wellFormed free [] fun _ member => absurd member not_mem_nil)
  | array elements => exact congrArg JSONValue.array (normal_cutValues elements wellFormed free.2)
  | _ => rfl

theorem normal_cutElements (elements : List (Bytes × JSONValue)) (wellFormed : WellFormedElements elements)
    (free : AllElements (fun text => 0 ∉ text) false elements) (before : List (Bytes × JSONValue))
    (behind : ∀ element ∈ before, ∀ other ∈ elements, stringLess element.1 other.1 = true) :
    normalElements (cutElements before elements) = normalElements before ++ normalElements elements := by
  cases elements with
  | nil => exact (append_nil _).symm
  | cons element rest =>
    obtain ⟨key, value⟩ := element
    obtain ⟨⟨keyFree, valueFree⟩, restFree⟩ := free
    obtain ⟨⟨filled, valueFormed, ahead⟩, restFormed⟩ := wellFormed
    have last : setObject before (cString key) value.cut = before ++ [(key, value.cut)] := by
      rw [cString_of_nulFree keyFree, setObject, if_neg filled]
      exact insertElement_last fun element member => behind element member _ mem_cons_self
    rw [cutElements, last, normal_cutElements rest restFormed restFree, normalElements_append, append_assoc]
    · rw [normalElements, normal_cut value valueFormed valueFree]
      rfl
    · intro element member other later
      rcases mem_append.mp member with earlier | same
      · exact behind element earlier other (.tail _ later)
      · cases mem_singleton.mp same
        exact ahead other later

theorem normal_cutValues (elements : List JSONValue) (wellFormed : WellFormedValues elements)
    (free : AllValues (fun text => 0 ∉ text) false elements) :
    normalValues (cutValues elements) = normalValues elements := by
  cases elements with
  | nil => rfl
  | cons value rest =>
    simp [cutValues, normalValues, normal_cut value wellFormed.1 free.1, normal_cutValues rest wellFormed.2 free.2]

end

def JSONValue.ComesBack (getAsInteger : GetAsInteger) (value : JSONValue) : Prop :=
  ∃ result last, Eventually (fun fuel => parseJSONValue getAsInteger fuel ⟨0, value.write⟩)
    (some result, last) ∧ result.normal = value.normal

theorem JSONValue.ComesBack.readable {getAsInteger : GetAsInteger} {value : JSONValue}
    (comesBack : value.ComesBack getAsInteger) : value.Readable := by
  obtain ⟨result, last, ⟨enough, all⟩, same⟩ := comesBack
  rw [JSONValue.Readable, ← all_normal, ← same, all_normal]
  exact (read_readable enough).1 (all enough (le_refl _))

theorem written_comesBack_iff (getAsInteger : GetAsInteger) (reads : getAsInteger.Reads) (value : JSONValue)
    (wellFormed : value.WellFormed) :
    value.ComesBack getAsInteger ↔ value.Readable ∧ value.NulFree := by
  have delimited : JSONParser.Delimited [] := fun c head => (by cases head)
  have cut (readable : value.Readable) := value_reads reads value readable 0 delimited
  rw [append_nil] at cut
  constructor
  · intro comesBack
    have readable := comesBack.readable
    refine ⟨readable, ?_⟩
    obtain ⟨result, last, read, same⟩ := comesBack
    obtain ⟨other, cutRead⟩ := cut readable
    cases read.unique cutRead
    rw [JSONValue.NulFree, ← all_normal, ← same, all_normal]
    exact cut_nulFree value
  · rintro ⟨readable, free⟩
    obtain ⟨last, read⟩ := cut readable
    exact ⟨value.cut, ⟨last, []⟩, read, normal_cut value wellFormed free⟩

/-! ## Plain decimal numbers -/

def readDigits (text : Bytes) : Option Nat :=
  if text ≠ [] ∧ text.all isDigit = true then
    some (text.foldl (fun sofar c => 10 * sofar + (c.toNat - 0x30)) 0)
  else none

def readDecimal : GetAsInteger where
  unsigned text := (readDigits text).bind fun value =>
    if value < 2 ^ 64 then some (BitVec.ofNat 64 value) else none
  signed text :=
    if text.head? = some minus then
      (readDigits text.tail).bind fun value => if value ≤ 2 ^ 63 then some (BitVec.ofInt 64 (-value)) else none
    else (readDigits text).bind fun value => if value < 2 ^ 63 then some (BitVec.ofNat 64 value) else none

theorem readDigits_decimal (value : Nat) : readDigits (decimal value) = some value := by
  have digits (c : UInt8) := @JSONParser.isDigit_of_mem_decimal value c
  rw [readDigits, if_pos ⟨decimal_ne_nil value, all_eq_true.mpr digits⟩, decimal, foldl_map]
  have same := @Nat.ofDigitChars_ten_toDigits value
  refine congrArg some (Eq.trans (foldl_ext _ _ _ fun sofar char member => ?_) same)
  rw [(toUInt8_digit member).1]
  rfl

theorem readDecimal_reads : readDecimal.Reads where
  unsigned value := by
    simp [readDecimal, readDigits_decimal, if_pos value.isLt]
  signed value negative := by
    have size := BitVec.le_toInt value
    have small : (-value.toInt).toNat ≤ 2 ^ 63 := by omega
    have same : -((-value.toInt).toNat : Int) = value.toInt := by omega
    simp only [readDecimal, readDigits_decimal, Option.bind_some, if_pos small, head?_cons, tail_cons, if_true,
      same, BitVec.ofInt_toInt]

/-- An object with a list of a negative number and a text in quotes. -/
theorem written_comesBack_iff_object : JSONValue.ComesBack readDecimal
        (.object [(ascii "id", .array [.number (.signed (-3)), .string (ascii "\"a\""), .nullValue])]) ↔
      JSONValue.Readable (.object [(ascii "id", .array [.number (.signed (-3)), .string (ascii "\"a\""), .nullValue])]) ∧
      JSONValue.NulFree (.object [(ascii "id", .array [.number (.signed (-3)), .string (ascii "\"a\""), .nullValue])]) :=
  written_comesBack_iff readDecimal readDecimal_reads _
    ⟨⟨by decide, ⟨trivial, trivial, trivial, trivial⟩, fun _ member => absurd member not_mem_nil⟩, trivial⟩

/-- An array without elements is written, and its text is not read. -/
theorem emptyArray_not_comesBack : JSONValue.WellFormed (.array []) ∧ JSONValue.NulFree (.array []) ∧
      ¬ JSONValue.ComesBack readDecimal (.array []) :=
  ⟨trivial, ⟨fun filled => Bool.noConfusion filled, trivial⟩, fun comesBack => comesBack.readable.1 rfl rfl⟩

/-- Texts of values can be told apart, also when more follows them. -/
theorem write_unambiguous {first second : JSONValue} (formed : first.WellFormed ∧ second.WellFormed)
    (readable : first.Readable ∧ second.Readable) (free : first.NulFree ∧ second.NulFree) {tail other : Bytes}
    (delimited : Delimited tail ∧ Delimited other) (same : first.write ++ tail = second.write ++ other) :
    first.normal = second.normal ∧ tail = other := by
  obtain ⟨last, read⟩ := value_reads readDecimal_reads first readable.1 0 delimited.1
  obtain ⟨last', read'⟩ := value_reads readDecimal_reads second readable.2 0 delimited.2
  -- One text has one result.
  rw [same] at read
  obtain ⟨cut, rest⟩ := Prod.mk.inj (read.unique read')
  have normal := congrArg JSONValue.normal (Option.some.inj cut)
  rw [normal_cut first formed.1 free.1, normal_cut second formed.2 free.2] at normal
  exact ⟨normal, congrArg JSONParser.rest rest⟩

/-- `1` as an unsigned and as a signed number. -/
theorem write_unambiguous_one :
    (JSONValue.number (.signed 1)).normal = (JSONValue.number (.unsigned 1)).normal ∧ [comma] = [comma] :=
  @write_unambiguous (.number _) (.number _) ⟨trivial, trivial⟩ ⟨trivial, trivial⟩ ⟨trivial, trivial⟩ _ _
    ⟨fun _ head => .inl (Option.some.inj head).symm, fun _ head => .inl (Option.some.inj head).symm⟩ rfl

end Lldb.Json
