import Lldb.GdbRemote.StringExtractor

/-! JSON values, the text they are written as, and `JSONParser`, which reads it.

Characters are signed. A parser is its index and what stands there; the index is `UINT64_MAX` once a
character is asked for behind the end. Numbers of type double are not modelled: a value that has one in
its text is not read. Pointers to values are not null.
-/

set_option autoImplicit false

namespace Lldb.Json

open List

open GdbRemote (Bytes ascii cString isspace hexDigit? hexText signedChar lowByte minus)

def doubleQuote : UInt8 := 0x22
def backslash : UInt8 := 0x5c
def comma : UInt8 := 0x2c
def colon : UInt8 := 0x3a
def braceOpen : UInt8 := 0x7b
def braceClose : UInt8 := 0x7d
def bracketOpen : UInt8 := 0x5b
def bracketClose : UInt8 := 0x5d

/-- The text of a number, as `printf` writes it. -/
def decimal (value : Nat) : Bytes := (Nat.toDigits 10 value).map Char.toUInt8

inductive JSONNumber where
  | unsigned (value : BitVec 64)
  | signed (value : BitVec 64)
  deriving DecidableEq, Repr

inductive JSONValue where
  | string (data : Bytes)
  | number (number : JSONNumber)
  | trueValue
  | falseValue
  | nullValue
  | object (elements : List (Bytes × JSONValue))
  | array (elements : List JSONValue)

/-- `operator<` of strings. -/
def stringLess : Bytes → Bytes → Bool
  | _, [] => false
  | [], _ :: _ => true
  | c :: rest, d :: others => if c < d then true else if d < c then false else stringLess rest others

/-- `JSONObject::SetObject`: the map's entry is overwritten or put in its place. -/
def insertElement (key : Bytes) (value : JSONValue) : List (Bytes × JSONValue) → List (Bytes × JSONValue)
  | [] => [(key, value)]
  | (other, held) :: rest =>
      if stringLess key other then (key, value) :: (other, held) :: rest
      else if stringLess other key then (other, held) :: insertElement key value rest
      else (other, value) :: rest

def setObject (elements : List (Bytes × JSONValue)) (key : Bytes) (value : JSONValue) : List (Bytes × JSONValue) :=
  if key = [] then elements else insertElement key value elements

/-! ## Writing -/

/-- `json_string_quote_metachars`. -/
def quoteMetachars (s : Bytes) : Bytes :=
  s.flatMap fun ch =>
    if ch = doubleQuote ∨ ch = backslash then [backslash, ch]
    else if ch = 0x0a then [backslash, 0x6e]
    else [ch]

def writeString (data : Bytes) : Bytes :=
  doubleQuote :: (cString (quoteMetachars data) ++ [doubleQuote])

def JSONNumber.write : JSONNumber → Bytes
  | unsigned value => decimal value.toNat
  | signed value => if value.toInt < 0 then minus :: decimal (-value.toInt).toNat else decimal value.toInt.toNat

mutual

def JSONValue.write : JSONValue → Bytes
  | .string data => writeString data
  | .number number => number.write
  | .trueValue => ascii "true"
  | .falseValue => ascii "false"
  | .nullValue => ascii "null"
  | .object elements => braceOpen :: (writeElements true elements ++ [braceClose])
  | .array elements => bracketOpen :: (writeValues true elements ++ [bracketClose])

def writeElements (first : Bool) : List (Bytes × JSONValue) → Bytes
  | [] => []
  | (key, value) :: rest =>
      (if first then [] else [comma]) ++ (writeString key ++ colon :: (value.write ++ writeElements false rest))

def writeValues (first : Bool) : List JSONValue → Bytes
  | [] => []
  | value :: rest => (if first then [] else [comma]) ++ (value.write ++ writeValues false rest)

end

/-! ## Tokens -/

structure JSONParser where
  index : Nat
  rest : Bytes
  deriving DecidableEq, Repr

inductive Token where
  | status
  | objectStart
  | objectEnd
  | arrayStart
  | arrayEnd
  | comma
  | colon
  | string
  | integer
  | float
  | trueValue
  | falseValue
  | nullValue
  | endOfFile
  deriving DecidableEq, Repr

namespace JSONParser

def getChar (parser : JSONParser) : UInt8 × JSONParser :=
  match parser.rest with
  | [] => (0, ⟨2 ^ 64 - 1, []⟩)
  | ch :: rest => (ch, ⟨parser.index + 1, rest⟩)

def skipSpaces (parser : JSONParser) : JSONParser :=
  ⟨parser.index + (parser.rest.takeWhile isspace).length, parser.rest.dropWhile isspace⟩

def decodeHexU8 (parser : JSONParser) : Int × JSONParser :=
  let parser := parser.skipSpaces
  match parser.rest with
  | hi :: lo :: rest =>
      match hexDigit? hi, hexDigit? lo with
      | some hiNibble, some loNibble => (16 * hiNibble + loNibble, ⟨parser.index + 2, rest⟩)
      | _, _ => (-1, parser)
  | _ => (-1, parser)

structure EscapedChar where
  char : Int
  wasEscaped : Bool
  parser : JSONParser
  deriving DecidableEq, Repr

def getEscapedChar (parser : JSONParser) : EscapedChar :=
  let (ch, parser) := parser.getChar
  if ch = backslash then
    let (ch2, parser) := parser.getChar
    if ch2 = 0x62 then ⟨0x08, true, parser⟩
    else if ch2 = 0x66 then ⟨0x0c, true, parser⟩
    else if ch2 = 0x6e then ⟨0x0a, true, parser⟩
    else if ch2 = 0x72 then ⟨0x0d, true, parser⟩
    else if ch2 = 0x74 then ⟨0x09, true, parser⟩
    else if ch2 = 0x75 then
      let (hiByte, parser) := parser.decodeHexU8
      let (loByte, parser) := parser.decodeHexU8
      if 0 ≤ hiByte ∧ 0 ≤ loByte then ⟨256 * hiByte + loByte, true, parser⟩ else ⟨-1, true, parser⟩
    else ⟨signedChar ch2, true, parser⟩
  else ⟨signedChar ch, false, parser⟩

variable (parser : JSONParser)

theorem skipSpaces_length : parser.skipSpaces.rest.length ≤ parser.rest.length :=
  (dropWhile_sublist _).length_le

theorem getChar_length : parser.getChar.2.rest.length ≤ parser.rest.length - 1 := by
  unfold getChar
  split
  · exact Nat.zero_le _
  · rename_i here
    rw [here]
    exact le_refl _

theorem decodeHexU8_length : parser.decodeHexU8.2.rest.length ≤ parser.rest.length := by
  have less := parser.skipSpaces_length
  unfold decodeHexU8
  dsimp only
  split
  · rename_i hi lo rest here
    rw [here] at less
    split
    · simp only [length_cons] at less
      dsimp only
      omega
    · rwa [here]
  · exact less

theorem getEscapedChar_length :
    parser.getEscapedChar.parser.rest.length ≤ parser.rest.length - 1 := by
  have first := parser.getChar_length
  have second := parser.getChar.2.getChar_length
  have high := parser.getChar.2.getChar.2.decodeHexU8_length
  have low := parser.getChar.2.getChar.2.decodeHexU8.2.decodeHexU8_length
  unfold getEscapedChar
  dsimp only
  split_ifs <;> dsimp only <;> omega

theorem getEscapedChar_end {parser : JSONParser} (here : parser.rest = []) :
    parser.getEscapedChar = ⟨0, false, ⟨2 ^ 64 - 1, []⟩⟩ := by
  unfold getEscapedChar getChar
  rw [here]
  rfl

def getString (startIndex : Nat) (value : Bytes) (parser : JSONParser) : Token × Bytes × JSONParser :=
  let escaped := parser.getEscapedChar
  if escaped.char = -1 then
    (.status, ascii "error: an error occurred getting a character from offset " ++ decimal startIndex, escaped.parser)
  else if escaped.wasEscaped = true ∨ (escaped.char ≠ 0x22 ∧ escaped.char ≠ 0) then
    if -128 ≤ escaped.char ∧ escaped.char ≤ 127 then
      getString startIndex (value ++ [lowByte escaped.char]) escaped.parser
    else
      (.status, ascii "error: wide character support is needed for unicode character 0x" ++
        hexText 4 escaped.char.toNat ++ ascii " at offset " ++ decimal startIndex, escaped.parser)
  else if escaped.char = 0x22 then (.string, value, escaped.parser)
  else (.status, ascii "error: missing end quote for string", escaped.parser)
termination_by parser.rest.length
decreasing_by
  rename_i notEnd _
  have less := parser.getEscapedChar_length
  cases here : parser.rest with
  | nil =>
    simp [escaped, parser.getEscapedChar_end here] at notEnd
  | cons ch rest =>
    rw [here, length_cons] at less
    rw [length_cons]
    omega

/-- The flags of a number's token, and the index of its exponent character, or zero. -/
structure NumberScan where
  gotDecimalPoint : Bool
  expIndex : Nat
  gotIntDigits : Bool
  gotFracDigits : Bool
  gotExpDigits : Bool
  deriving DecidableEq, Repr

def isDigit (ch : UInt8) : Bool := 0x30 ≤ ch && ch ≤ 0x39

/-- The loop over the characters of a number; an error is given with the parser at it. -/
def scanNumber (startIndex : Nat) (scan : NumberScan) (index : Nat) :
    Bytes → Except (Bytes × JSONParser) (NumberScan × JSONParser)
  | [] => .ok (scan, ⟨index, []⟩)
  | nextCh :: rest =>
      if isDigit nextCh then
        let scan :=
          if scan.expIndex ≠ 0 then { scan with gotExpDigits := true }
          else if scan.gotDecimalPoint then { scan with gotFracDigits := true }
          else { scan with gotIntDigits := true }
        scanNumber startIndex scan (index + 1) rest
      else if nextCh = 0x2e then
        if scan.gotDecimalPoint then
          .error (ascii "error: extra decimal point found at offset " ++ decimal startIndex, ⟨index, nextCh :: rest⟩)
        else scanNumber startIndex { scan with gotDecimalPoint := true } (index + 1) rest
      else if nextCh = 0x65 ∨ nextCh = 0x45 then
        if scan.expIndex ≠ 0 then
          .error (ascii "error: extra exponent character found at offset " ++ decimal startIndex,
            ⟨index, nextCh :: rest⟩)
        else scanNumber startIndex { scan with expIndex := index } (index + 1) rest
      else if nextCh = 0x2b ∨ nextCh = 0x2d then
        -- At index 1 a sign is taken also when there is no exponent.
        if scan.expIndex = index - 1 then scanNumber startIndex scan (index + 1) rest
        else
          .error (ascii "error: unexpected " ++ nextCh :: ascii " character at offset " ++ decimal startIndex,
            ⟨index, nextCh :: rest⟩)
      else .ok (scan, ⟨index, nextCh :: rest⟩)

/-- The token of a number whose text is `value`. -/
def numberToken (scan : NumberScan) (value : Bytes) : Token × Bytes :=
  if scan.gotDecimalPoint then
    if scan.expIndex ≠ 0 then
      if scan.gotExpDigits then (.float, value)
      else
        (.status, ascii "error: got exponent character but no exponent digits at offset in float value " ++
          doubleQuote :: (value ++ [doubleQuote]))
    else if scan.gotFracDigits then (.float, value)
    else (.status, ascii "error: no digits after decimal point " ++ doubleQuote :: (value ++ [doubleQuote]))
  else if scan.gotIntDigits then (.integer, value)
  else (.status, ascii "error: no digits negate sign " ++ doubleQuote :: (value ++ [doubleQuote]))

/-- The number that begins at `start`, whose first character has been read. -/
def getNumber (start : JSONParser) (ch : UInt8) (rest : Bytes) : Token × Bytes × JSONParser :=
  match scanNumber start.index ⟨false, 0, isDigit ch, false, false⟩ (start.index + 1) rest with
  | .error (message, parser) => (.status, message, parser)
  | .ok (scan, parser) =>
      let (token, value) := numberToken scan (start.rest.take (parser.index - start.index))
      (token, value, parser)

def expect : Bytes → JSONParser → Bool × JSONParser
  | [], parser => (true, parser)
  | ch :: word, parser =>
      let (found, parser) := parser.getChar
      if found = ch then expect word parser else (false, parser)

def getWord (startIndex : Nat) (ch : UInt8) (token : Token) (word : Bytes) (parser : JSONParser) :
    Token × Bytes × JSONParser :=
  let (found, parser) := expect word parser
  if found then (token, [], parser)
  else
    (.status, ascii "error: failed to parse token at offset " ++ decimal startIndex ++
      ascii " (around character " ++ [0x27, ch, 0x27, 0x29], parser)

def getToken (parser : JSONParser) : Token × Bytes × JSONParser :=
  let start := parser.skipSpaces
  let (ch, parser) := start.getChar
  if ch = braceOpen then (.objectStart, [], parser)
  else if ch = braceClose then (.objectEnd, [], parser)
  else if ch = bracketOpen then (.arrayStart, [], parser)
  else if ch = bracketClose then (.arrayEnd, [], parser)
  else if ch = Json.comma then (.comma, [], parser)
  else if ch = Json.colon then (.colon, [], parser)
  else if ch = 0 then (.endOfFile, [], parser)
  else if ch = 0x74 then getWord start.index ch .trueValue (ascii "rue") parser
  else if ch = 0x66 then getWord start.index ch .falseValue (ascii "alse") parser
  else if ch = 0x6e then getWord start.index ch .nullValue (ascii "ull") parser
  else if ch = doubleQuote then getString start.index [] parser
  else if ch = minus ∨ isDigit ch = true then getNumber start ch parser.rest
  else
    (.status, ascii "error: failed to parse token at offset " ++ decimal start.index ++
      ascii " (around character " ++ [0x27, ch, 0x27, 0x29], parser)

end JSONParser

/-- `StringRef::getAsInteger` with the radix found in the text, for both types of result. -/
structure GetAsInteger where
  unsigned : Bytes → Option (BitVec 64)
  signed : Bytes → Option (BitVec 64)

structure GetAsInteger.Reads (getAsInteger : GetAsInteger) : Prop where
  unsigned : ∀ value : BitVec 64, getAsInteger.unsigned (decimal value.toNat) = some value
  signed : ∀ value : BitVec 64, value.toInt < 0 →
    getAsInteger.signed (minus :: decimal (-value.toInt).toNat) = some value

namespace JSONParser

variable (getAsInteger : GetAsInteger)

mutual

def parseJSONValue : Nat → JSONParser → Option JSONValue × JSONParser
  | 0, parser => (none, parser)
  | fuel + 1, parser =>
      match parser.getToken with
      | (.objectStart, _, parser) => parseJSONObject fuel [] parser
      | (.arrayStart, _, parser) => parseJSONArray fuel [] parser
      | (.integer, value, parser) =>
          if value.head? = some minus then
            ((getAsInteger.signed value).map fun sval => .number (.signed sval), parser)
          else ((getAsInteger.unsigned value).map fun uval => .number (.unsigned uval), parser)
      | (.string, value, parser) => (some (.string value), parser)
      | (.trueValue, _, parser) => (some .trueValue, parser)
      | (.falseValue, _, parser) => (some .falseValue, parser)
      | (.nullValue, _, parser) => (some .nullValue, parser)
      | (_, _, parser) => (none, parser)

/-- The loop of `ParseJSONObject`, with the elements so far. -/
def parseJSONObject : Nat → List (Bytes × JSONValue) → JSONParser → Option JSONValue × JSONParser
  | 0, _, parser => (none, parser)
  | fuel + 1, elements, parser =>
      match parser.getToken with
      | (.string, key, parser) =>
          match parser.getToken with
          | (.colon, _, parser) =>
              match parseJSONValue fuel parser with
              | (some value, parser) => parseJSONObject fuel (setObject elements key value) parser
              | (none, parser) => (none, parser)
          | (_, _, parser) => parseJSONObject fuel elements parser
      | (.objectEnd, _, parser) => (some (.object elements), parser)
      | (.comma, _, parser) => parseJSONObject fuel elements parser
      | (_, _, parser) => (none, parser)

/-- The loop of `ParseJSONArray`, with the elements so far. -/
def parseJSONArray : Nat → List JSONValue → JSONParser → Option JSONValue × JSONParser
  | 0, _, parser => (none, parser)
  | fuel + 1, elements, parser =>
      match parseJSONValue fuel parser with
      | (none, parser) => (none, parser)
      | (some value, parser) =>
          match parser.getToken with
          | (.comma, _, parser) => parseJSONArray fuel (elements ++ [value]) parser
          | (.arrayEnd, _, parser) => (some (.array (elements ++ [value])), parser)
          | (_, _, parser) => (none, parser)

end

end JSONParser

end Lldb.Json
