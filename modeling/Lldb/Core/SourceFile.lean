import Lldb.GdbRemote.Packet
import Mathlib.Algebra.BigOperators.Group.List.Basic
import Mathlib.Data.List.GetD

/-! `SourceManager::File`: the offsets at which the lines of a source file begin, computed when they are first
asked for, and what the accessors make of them.
-/

set_option autoImplicit false

namespace Lldb.SourceManager

open List Option

open GdbRemote (Bytes)

def isNewlineChar (c : UInt8) : Bool := c = 0x0a || c = 0x0d

def uint32Max : Nat := 2 ^ 32 - 1

/-- The contents, if there are any, and `m_offsets`. -/
structure File where
  data : Option Bytes
  offsets : List Nat
  deriving DecidableEq, Repr

/-- The loop of `CalculateLineOffsets`, which pushes the offset behind each line ending. -/
def offsetsLoop : Nat → Bytes → List Nat
  | _, [] => []
  | position, curr :: rest =>
    if isNewlineChar curr then
      match rest with
      | next :: others =>
        if isNewlineChar next ∧ curr ≠ next then (position + 2) % 2 ^ 32 :: offsetsLoop (position + 2) others
        else (position + 1) % 2 ^ 32 :: offsetsLoop (position + 1) (next :: others)
      | [] => [(position + 1) % 2 ^ 32]
    else offsetsLoop (position + 1) rest

/-- All line offsets from scratch, behind the mark that the file has been indexed. -/
def indexLines (content : Bytes) : List Nat :=
  let offsets := uint32Max :: offsetsLoop 0 content
  if offsets.getLastD 0 < content.length then offsets ++ [content.length % 2 ^ 32] else offsets

namespace File

variable (file : File)

def calculateLineOffsets : Bool × File :=
  if file.offsets.head? = some uint32Max then (true, file)
  else if file.offsets = [] then
    match file.data with
    | none => (false, file)
    | some content => (true, { file with offsets := indexLines content })
  else (false, file)

def getLineOffset (line : Nat) : Nat × File :=
  if line = 0 then (uint32Max, file)
  else if line = 1 then (0, file)
  else
    let (calculated, file) := file.calculateLineOffsets
    if calculated ∧ line < file.offsets.length then (file.offsets.getD (line - 1) 0, file) else (uint32Max, file)

def lineIsValid (line : Nat) : Bool × File :=
  if line = 0 then (false, file)
  else
    let (calculated, file) := file.calculateLineOffsets
    if calculated then (line < file.offsets.length, file) else (false, file)

/-- `while (length > 0)` there is a newline character before it. -/
def trimNewlines (lineStart : Bytes) : Nat → Nat
  | 0 => 0
  | length + 1 => if isNewlineChar (lineStart.getD length 0) then trimNewlines lineStart length else length + 1

def getLineLength (line : Nat) (includeNewlineChars : Bool) : Nat × File :=
  let (valid, file) := file.lineIsValid line
  if valid then
    let (startOffset, file) := file.getLineOffset line
    let (endOffset, file) := file.getLineOffset ((line + 1) % 2 ^ 32)
    let bytes := file.data.getD []
    let endOffset := if endOffset = uint32Max then bytes.length else endOffset
    if startOffset < endOffset then
      let length := (endOffset - startOffset) % 2 ^ 32
      (if includeNewlineChars then length else trimNewlines (bytes.drop startOffset) length, file)
    else (0, file)
  else (0, file)

end File

/-! The lines of a text. -/

structure Line where
  text : Bytes
  ending : Bytes
  deriving DecidableEq, Repr

def Line.length (line : Line) : Nat := line.text.length + line.ending.length

def Plain (text : Bytes) : Prop := ∀ c ∈ text, isNewlineChar c = false

/-- `\n`, `\r`, `\r\n` or `\n\r`, and as much as there is. -/
inductive EndsLine : Bytes → Bytes → Prop
  | one {c : UInt8} {rest : Bytes} (newline : isNewlineChar c = true)
      (alone : ∀ next ∈ rest.head?, isNewlineChar next = true → next = c) : EndsLine [c] rest
  | two {c next : UInt8} {rest : Bytes} (newline : isNewlineChar c = true) (other : isNewlineChar next = true)
      (differs : c ≠ next) : EndsLine [c, next] rest

/-- A text is cut into its lines, and only the last one may be without a line ending. -/
inductive IsCut : Bytes → List Line → Prop
  | nil : IsCut [] []
  | last {text : Bytes} (nonempty : text ≠ []) (plain : Plain text) : IsCut text [⟨text, []⟩]
  | line {text ending rest : Bytes} {lines : List Line} (plain : Plain text) (ends : EndsLine ending rest)
      (cut : IsCut rest lines) : IsCut (text ++ ending ++ rest) (⟨text, ending⟩ :: lines)

def offsetOf (lines : List Line) (count : Nat) : Nat := ((lines.take count).map Line.length).sum

structure Exact (file : File) (content : Bytes) (lines : List Line) : Prop where
  valid : ∀ line, (file.lineIsValid line).1 = true ↔ 1 ≤ line ∧ line ≤ lines.length
  offset : ∀ index < lines.length, (file.getLineOffset (index + 1)).1 = offsetOf lines index
  increasing : ∀ first second, first < second → second < lines.length →
    (file.getLineOffset (first + 1)).1 < (file.getLineOffset (second + 1)).1
  withEnding : ∀ index, ∀ line ∈ lines[index]?, (file.getLineLength (index + 1) true).1 = line.length
  withoutEnding : ∀ index, ∀ line ∈ lines[index]?, (file.getLineLength (index + 1) false).1 = line.text.length
  total : ((List.range lines.length).map fun index => (file.getLineLength (index + 1) true).1).sum = content.length

/-- A file with these contents, before or after its lines have been indexed. -/
structure Holds (file : File) (content : Bytes) : Prop where
  data : file.data = some content
  offsets : file.offsets = [] ∨ file.offsets = indexLines content

/-! What the loop pushes. -/

theorem offsetsLoop_cons {c : UInt8} (other : isNewlineChar c = false) (position : Nat) (rest : Bytes) :
    offsetsLoop position (c :: rest) = offsetsLoop (position + 1) rest := by
  rw [offsetsLoop.eq_def]
  simp only [other, Bool.false_eq_true, if_false]

theorem offsetsLoop_plain {text : Bytes} (plain : Plain text) (position : Nat) (rest : Bytes) :
    offsetsLoop position (text ++ rest) = offsetsLoop (position + text.length) rest := by
  induction text generalizing position with
  | nil => rfl
  | cons c text ih =>
    have here : isNewlineChar c = false := plain c mem_cons_self
    have next := ih (fun other member => plain other (mem_cons_of_mem c member)) (position + 1)
    simp [offsetsLoop_cons here, next, add_assoc, add_comm 1]

variable {ending rest : Bytes} {line : Line} {index : Nat}

theorem offsetsLoop_ending (ends : EndsLine ending rest) (position : Nat) : offsetsLoop position (ending ++ rest) =
      (position + ending.length) % 2 ^ 32 :: offsetsLoop (position + ending.length) rest := by
  cases ends with
  | @one c _ newline alone =>
    cases rest with
    | nil =>
      exact if_pos newline
    | cons next others =>
      have single : ¬ (isNewlineChar next = true ∧ c ≠ next) := by
        rintro ⟨other, differs⟩
        exact differs (alone next rfl other).symm
      rw [singleton_append, offsetsLoop.eq_def]
      dsimp only
      rw [if_pos newline]
      simp only [if_neg single]
      rfl
  | @two c next _ newline other differs =>
    rw [cons_append, singleton_append, offsetsLoop.eq_def]
    dsimp only
    rw [if_pos newline]
    simp only [if_pos (And.intro other differs)]
    rfl

theorem plain_of_offsetsLoop {content : Bytes} {position : Nat} (nothing : offsetsLoop position content = []) :
    Plain content := by
  induction content generalizing position with
  | nil => exact fun _ member => absurd member not_mem_nil
  | cons c rest ih =>
    cases newline : isNewlineChar c with
    | true =>
      rw [offsetsLoop.eq_def] at nothing
      dsimp only at nothing
      rw [if_pos newline] at nothing
      cases rest with
      | nil => cases nothing
      | cons next others =>
        dsimp only at nothing
        split at nothing
        · cases nothing
        · cases nothing
    | false =>
      rw [offsetsLoop_cons newline] at nothing
      intro other member
      rcases mem_cons.mp member with rfl | later
      · exact newline
      · exact ih nothing other later

def ends : Nat → List Line → List Nat
  | _, [] => []
  | position, line :: lines => (position + line.length) :: ends (position + line.length) lines

def unended : List Line → Bool
  | [] => false
  | [line] => line.ending.isEmpty
  | _ :: line :: lines => unended (line :: lines)

theorem unended_cons (ended : line.ending ≠ []) (lines : List Line) : unended (line :: lines) = unended lines := by
  cases lines with
  | nil => exact isEmpty_eq_false_iff.mpr ended
  | cons next lines => rfl

theorem EndsLine.ne_nil (ends : EndsLine ending rest) : ending ≠ [] := by
  cases ends with
  | one => exact cons_ne_nil _ _
  | two => exact cons_ne_nil _ _

theorem EndsLine.newlines (ends : EndsLine ending rest) : ∀ c ∈ ending, isNewlineChar c = true := by
  cases ends with
  | one newline alone =>
    intro c member
    rwa [mem_singleton.mp member]
  | two newline other differs =>
    intro c member
    rcases mem_cons.mp member with rfl | last
    · exact newline
    · rwa [mem_singleton.mp last]

@[simp] theorem length_ends (position : Nat) (lines : List Line) : (ends position lines).length = lines.length := by
  induction lines generalizing position with
  | nil => rfl
  | cons line lines ih => simp [ends, ih]

@[simp] theorem offsetOf_zero (lines : List Line) : offsetOf lines 0 = 0 := by rw [offsetOf, take_zero]; rfl

theorem offsetOf_cons (line : Line) (lines : List Line) (count : Nat) :
    offsetOf (line :: lines) (count + 1) = line.length + offsetOf lines count := by
  simp [offsetOf]

theorem getElem?_ends {lines : List Line} (inside : index < lines.length) (position : Nat) :
    (ends position lines)[index]? = some (position + offsetOf lines (index + 1)) := by
  induction lines generalizing position index with
  | nil => exact absurd inside (Nat.not_lt_zero index)
  | cons line lines ih =>
    rw [ends, offsetOf_cons]
    cases index with
    | zero => rw [getElem?_cons_zero, offsetOf_zero, add_zero]
    | succ index => simp [ih (Nat.lt_of_succ_lt_succ inside), Nat.add_assoc]

theorem offsetOf_succ {lines : List Line} (found : lines[index]? = some line) :
    offsetOf lines (index + 1) = offsetOf lines index + line.length := by
  simp [offsetOf, take_add_one, found]

/-! What a cut says about its text. -/

theorem IsCut.length {content : Bytes} {lines : List Line} (cut : IsCut content lines) :
    offsetOf lines lines.length = content.length := by
  induction cut with
  | nil => rfl
  | last => exact add_zero _
  | @line text ending rest lines plain ends cut ih =>
    rw [length_cons, offsetOf_cons, ih, length_append, length_append]
    rfl

theorem IsCut.positive {content : Bytes} {lines : List Line} (cut : IsCut content lines) :
    ∀ line ∈ lines, 0 < line.length := by
  induction cut with
  | nil => exact fun _ member => absurd member not_mem_nil
  | @last text nonempty plain =>
    intro line member
    rw [mem_singleton.mp member]
    exact length_pos_iff.mpr nonempty
  | @line text ending rest lines plain ends cut ih =>
    intro line member
    rcases mem_cons.mp member with rfl | later
    · exact Nat.add_pos_right _ (List.length_pos_iff.mpr ends.ne_nil)
    · exact ih line later

theorem IsCut.offsetOf_lt {content : Bytes} {lines : List Line} (cut : IsCut content lines) {first second : Nat}
    (below : first < second) (inside : second ≤ lines.length) : offsetOf lines first < offsetOf lines second := by
  induction second with
  | zero => exact absurd below (Nat.not_lt_zero first)
  | succ second ih =>
    have found := List.getElem?_eq_getElem (show second < lines.length from inside)
    have longer := cut.positive _ (mem_of_getElem? found)
    rw [offsetOf_succ found]
    rcases Nat.lt_succ_iff_lt_or_eq.mp below with earlier | rfl
    · omega
    · omega

theorem IsCut.count_le {content : Bytes} {lines : List Line} (cut : IsCut content lines) {count : Nat}
    (inside : count ≤ lines.length) : count ≤ offsetOf lines count := by
  induction count with
  | zero => exact Nat.zero_le _
  | succ count ih =>
    have step := cut.offsetOf_lt (show count < count + 1 by omega) inside
    omega

theorem IsCut.eq_nil {lines : List Line} (cut : IsCut [] lines) : lines = [] := by
  by_contra some_
  have below := cut.offsetOf_lt (length_pos_iff.mpr some_) (le_refl _)
  rw [cut.length] at below
  exact absurd below (Nat.not_lt_zero _)

theorem IsCut.drop {content : Bytes} {lines : List Line} (cut : IsCut content lines)
    (found : lines[index]? = some line) : Plain line.text ∧ (∀ c ∈ line.ending, isNewlineChar c = true) ∧
      ∃ rest, content.drop (offsetOf lines index) = line.text ++ line.ending ++ rest := by
  induction cut generalizing index with
  | nil => cases found
  | @last text nonempty plain =>
    cases index with
    | zero =>
      cases found
      exact ⟨plain, fun _ member => absurd member not_mem_nil, [], by simp⟩
    | succ index => cases found
  | @line text ending rest lines plain ends cut ih =>
    cases index with
    | zero =>
      cases found
      exact ⟨plain, ends.newlines, rest, by simp⟩
    | succ index =>
      obtain ⟨plain', newlines, behind, split⟩ := ih found
      refine ⟨plain', newlines, behind, ?_⟩
      rw [offsetOf_cons, ← drop_drop, ← split]
      congr 1
      exact drop_left' length_append

theorem IsCut.offsetsLoop {content : Bytes} {lines : List Line} (cut : IsCut content lines) {position : Nat}
    (small : position + content.length < 2 ^ 32) :
    offsetsLoop position content ++ (if unended lines then [position + content.length] else []) =
      ends position lines := by
  induction cut generalizing position with
  | nil => rfl
  | @last text nonempty plain =>
    have nothing := offsetsLoop_plain plain position []
    rw [List.append_nil] at nothing
    rw [nothing]
    rfl
  | @line text ending rest lines plain ends cut ih =>
    rw [length_append, length_append] at small
    have next := @ih (position + text.length + ending.length) (by omega)
    rw [List.append_assoc, offsetsLoop_plain plain, offsetsLoop_ending ends, Nat.mod_eq_of_lt (by omega),
      unended_cons ends.ne_nil, cons_append, length_append, length_append]
    rw [Nat.add_assoc] at next
    congr 1
    · exact add_assoc _ _ _
    · rw [Line.length, ← next]
      simp only [add_assoc]

theorem offsetOf_le {lines : List Line} (inside : index ≤ lines.length) {content : Bytes}
    (cut : IsCut content lines) : offsetOf lines index ≤ content.length := by
  rcases lt_or_eq_of_le inside with below | rfl
  · rw [← cut.length]
    exact (cut.offsetOf_lt below (le_refl _)).le
  · exact cut.length.le

/-- With a line ending somewhere, or without any contents, the index has an entry for each line. -/
theorem indexLines_eq {content : Bytes} {lines : List Line} (cut : IsCut content lines)
    (small : content.length < uint32Max) (marked : content = [] ∨ ∃ c ∈ content, isNewlineChar c = true) :
    indexLines content = uint32Max :: ends 0 lines := by
  have max : uint32Max = 2 ^ 32 - 1 := rfl
  have pushed := @cut.offsetsLoop content lines 0 (by omega)
  rw [zero_add] at pushed
  unfold indexLines
  dsimp only
  rcases eq_nil_or_concat' (offsetsLoop 0 content) with nothing | ⟨front, last, split⟩
  · have plain := plain_of_offsetsLoop nothing
    rcases marked with rfl | ⟨c, member, newline⟩
    · rw [cut.eq_nil]
      rfl
    · rw [plain c member] at newline
      cases newline
  · have lastOf : (uint32Max :: offsetsLoop 0 content).getLastD 0 = last := by
      rw [split, ← cons_append, getLastD_concat]
    rw [lastOf]
    have count := congrArg List.length pushed
    rw [length_ends, length_append, split, length_append, length_singleton] at count
    by_cases unfinished : unended lines = true
    · -- The last entry is the offset of the last line, so the end of the file is added.
      rw [if_pos unfinished] at pushed count
      rw [length_singleton] at count
      have found := @getElem?_ends front.length lines (by omega) 0
      rw [← pushed, split, List.append_assoc, List.getElem?_append_right (Nat.le_refl _), Nat.sub_self,
        zero_add] at found
      have same : last = offsetOf lines (front.length + 1) := Option.some.inj found
      have below := cut.offsetOf_lt (show front.length + 1 < lines.length by omega) (le_refl _)
      rw [cut.length] at below
      rw [if_pos (by omega), Nat.mod_eq_of_lt (by omega), ← pushed]
      rfl
    · -- The last entry is the end of the file already.
      rw [if_neg unfinished, List.append_nil] at pushed
      rw [if_neg unfinished, length_nil, add_zero] at count
      have found := @getElem?_ends front.length lines (by omega) 0
      rw [← pushed, split, List.getElem?_append_right (Nat.le_refl _), Nat.sub_self, Nat.zero_add] at found
      have same : last = offsetOf lines (front.length + 1) := Option.some.inj found
      rw [count, cut.length] at same
      rw [if_neg (by omega), pushed]

theorem trimNewlines_text {text tail : Bytes} (plain : Plain text) {count : Nat} (fits : count ≤ tail.length)
    (newlines : ∀ c ∈ tail.take count, isNewlineChar c = true) :
    File.trimNewlines (text ++ tail) (text.length + count) = text.length := by
  induction count with
  | zero =>
    cases length : text.length with
    | zero => rfl
    | succ last =>
      have inside : last < text.length := by omega
      have here : (text ++ tail).getD last 0 = text.get ⟨last, inside⟩ := by
        rw [getD_append _ _ _ _ inside, getD_eq_getElem _ _ inside]
        rfl
      rw [File.trimNewlines, here, plain _ (get_mem _ _), if_neg Bool.false_ne_true]
  | succ count ih =>
    have inside : count < tail.length := fits
    have member : tail.get ⟨count, inside⟩ ∈ tail.take (count + 1) :=
      mem_take_iff_getElem.mpr ⟨count, by omega, rfl⟩
    have here : (text ++ tail).getD (text.length + count) 0 = tail.get ⟨count, inside⟩ := by
      rw [List.getD_append_right _ _ _ _ (Nat.le_add_right _ _), Nat.add_sub_cancel_left,
        getD_eq_getElem _ _ inside]
      rfl
    rw [← add_assoc, File.trimNewlines, here, if_pos (newlines _ member)]
    exact ih inside.le fun c front => newlines c ((List.take_subset_take_left tail (Nat.le_succ count)) front)

/-! The accessors of a file with these contents. -/

theorem head?_indexLines (content : Bytes) : (indexLines content).head? = some uint32Max := by
  unfold indexLines
  dsimp only
  split
  · rfl
  · rfl

namespace Holds

variable {file : File} {content : Bytes}

def indexed (content : Bytes) : File := ⟨some content, indexLines content⟩

theorem calculateLineOffsets_eq (holds : Holds file content) : file.calculateLineOffsets = (true, indexed content) := by
  obtain ⟨data, offsets⟩ := file
  obtain ⟨rfl, rfl | rfl⟩ := holds
  · rfl
  · exact if_pos (head?_indexLines content)

theorem of_indexed (content : Bytes) : Holds (indexed content) content := ⟨rfl, .inr rfl⟩

variable (holds : Holds file content)
include holds

theorem lineIsValid_eq {line : Nat} (positive : line ≠ 0) :
    file.lineIsValid line = (decide (line < (indexLines content).length), indexed content) := by
  rw [File.lineIsValid, if_neg positive, holds.calculateLineOffsets_eq]
  rfl

theorem getLineOffset_eq {line : Nat} (later : 1 < line) :
    file.getLineOffset line = (if line < (indexLines content).length then (indexLines content).getD (line - 1) 0
      else uint32Max, indexed content) := by
  rw [File.getLineOffset, if_neg (by omega), if_neg (by omega), holds.calculateLineOffsets_eq]
  dsimp only
  by_cases inside : line < (indexLines content).length
  · rw [if_pos ⟨rfl, inside⟩, if_pos inside]
    rfl
  · rw [if_neg fun both => inside both.2, if_neg inside]

theorem lineIsValid_holds (line : Nat) : Holds (file.lineIsValid line).2 content := by
  by_cases zero : line = 0
  · rw [File.lineIsValid, if_pos zero]
    exact holds
  · rw [holds.lineIsValid_eq zero]
    exact of_indexed content

theorem getLineOffset_holds (line : Nat) : Holds (file.getLineOffset line).2 content := by
  by_cases zero : line = 0
  · rw [File.getLineOffset, if_pos zero]
    exact holds
  · by_cases one : line = 1
    · rw [File.getLineOffset, if_neg zero, if_pos one]
      exact holds
    · rw [holds.getLineOffset_eq (by omega)]
      exact of_indexed content

omit holds

section Marked

variable {lines : List Line} (holds : Holds file content) (cut : IsCut content lines)
  (small : content.length < uint32Max) (marked : content = [] ∨ ∃ c ∈ content, isNewlineChar c = true)

include holds cut small marked

theorem lineIsValid_iff (line : Nat) : (file.lineIsValid line).1 = true ↔ 1 ≤ line ∧ line ≤ lines.length := by
  by_cases zero : line = 0
  · rw [File.lineIsValid, if_pos zero]
    refine iff_of_false Bool.false_ne_true ?_
    omega
  · rw [holds.lineIsValid_eq zero, indexLines_eq cut small marked, decide_eq_true_eq, length_cons, length_ends]
    omega

theorem getLineOffset_line {index : Nat} (inside : index ≤ lines.length) (some_ : lines ≠ []) :
    (file.getLineOffset (index + 1)).1 = if index < lines.length then offsetOf lines index else uint32Max := by
  cases index with
  | zero =>
    rw [if_pos (length_pos_iff.mpr some_)]
    rfl
  | succ index =>
    rw [holds.getLineOffset_eq (by omega), indexLines_eq cut small marked, length_cons, length_ends]
    by_cases below : index + 1 < lines.length
    · rw [if_pos (by omega), if_pos below, Nat.add_sub_cancel, List.getD_cons_succ, List.getD_eq_getElem?_getD,
        getElem?_ends (by omega), getD_some, zero_add]
    · simp [if_neg (by omega)]

theorem getLineLength_eq {index : Nat} {line : Line} (found : lines[index]? = some line) (includeNewlineChars : Bool) :
    (file.getLineLength (index + 1) includeNewlineChars).1 = if includeNewlineChars then line.length else
      File.trimNewlines (content.drop (offsetOf lines index)) line.length := by
  have max : uint32Max = 2 ^ 32 - 1 := rfl
  have inside : index < lines.length := (List.getElem?_eq_some_iff.mp found).1
  have some_ : lines ≠ [] := ne_nil_of_length_pos (by omega)
  have bound := offsetOf_le (Nat.le_refl lines.length) cut
  have behind := offsetOf_le (show index + 1 ≤ lines.length from inside) cut
  have longer := cut.positive line (mem_of_getElem? found)
  have next := offsetOf_succ found
  have valid := (holds.lineIsValid_iff cut small marked (index + 1)).mpr ⟨by omega, inside⟩
  have first := holds.lineIsValid_holds (index + 1)
  have started := getLineOffset_line first cut small marked inside.le some_
  have second := first.getLineOffset_holds (index + 1)
  have fits := cut.count_le (le_refl lines.length)
  have ended := getLineOffset_line second cut small marked (show index + 1 ≤ lines.length from inside) some_
  rw [if_pos inside] at started
  unfold File.getLineLength
  dsimp only
  rw [if_pos valid, started, Nat.mod_eq_of_lt (by omega), ended, (second.getLineOffset_holds (index + 1 + 1)).data,
    getD_some]
  -- Behind the last line the mark stands for the end of the file.
  have endOffset : (if (if index + 1 < lines.length then offsetOf lines (index + 1) else uint32Max) = uint32Max then
      content.length else if index + 1 < lines.length then offsetOf lines (index + 1) else uint32Max) =
      offsetOf lines (index + 1) := by
    by_cases below : index + 1 < lines.length
    · rw [if_pos below, if_neg (by omega)]
    · simp [← cut.length, show index + 1 = lines.length by omega]
  rw [endOffset, next, if_pos (by omega), Nat.add_sub_cancel_left, Nat.mod_eq_of_lt (by omega)]

end Marked

end Holds

theorem Holds.exact {file : File} {content : Bytes} {lines : List Line} (holds : Holds file content)
    (cut : IsCut content lines) (small : content.length < uint32Max)
    (marked : content = [] ∨ ∃ c ∈ content, isNewlineChar c = true) : Exact file content lines := by
  have offset : ∀ index < lines.length, (file.getLineOffset (index + 1)).1 = offsetOf lines index := by
    intro index inside
    have value := holds.getLineOffset_line cut small marked inside.le (ne_nil_of_length_pos (by omega))
    rwa [if_pos inside] at value
  refine ⟨holds.lineIsValid_iff cut small marked, offset, ?_, ?_, ?_, ?_⟩
  · intro first second below inside
    rw [offset first (below.trans inside), offset second inside]
    exact cut.offsetOf_lt below inside.le
  · intro index line found
    exact holds.getLineLength_eq cut small marked found true
  · intro index line found
    obtain ⟨plain, newlines, rest, split⟩ := cut.drop found
    have trimmed := holds.getLineLength_eq cut small marked found false
    rw [split, append_assoc, Line.length,
      trimNewlines_text plain (by rw [length_append]; omega) (by rwa [take_left' rfl])] at trimmed
    exact trimmed
  · rw [← cut.length, offsetOf, take_length]
    congr 1
    apply ext_getElem?
    intro index
    rw [getElem?_map, getElem?_map]
    by_cases inside : index < lines.length
    · have found := getElem?_eq_getElem inside
      simp [getElem?_range inside, found, holds.getLineLength_eq cut small marked found true]
    · simp [getElem?_eq_none (by rwa [length_range, ← not_lt]), List.getElem?_eq_none (Nat.le_of_not_lt inside)]

theorem Holds.not_exact {file : File} {content : Bytes} {lines : List Line} (holds : Holds file content)
    (cut : IsCut content lines) (small : content.length < uint32Max) (some_ : content ≠ []) (plain : Plain content) :
    ¬ Exact file content lines := by
  intro described
  have nothing := offsetsLoop_plain plain 0 []
  rw [List.append_nil] at nothing
  -- No entry is added, because the mark is not less than the size of the file.
  have index : indexLines content = [uint32Max] := by
    unfold indexLines
    rw [nothing]
    exact if_neg (not_lt.mpr small.le)
  have positive : 0 < lines.length := by
    rw [length_pos_iff]
    rintro rfl
    exact some_ (length_eq_zero_iff.mp cut.length.symm)
  have valid := (described.valid 1).mpr ⟨le_refl 1, positive⟩
  rw [holds.lineIsValid_eq (by decide), index] at valid
  cases valid

theorem lines_exact_iff (file : File) {content : Bytes} (holds : Holds file content) {lines : List Line}
    (cut : IsCut content lines) (small : content.length < uint32Max) :
    Exact file content lines ↔ content = [] ∨ ∃ c ∈ content, isNewlineChar c = true := by
  constructor
  · intro described
    by_contra unmarked
    rw [not_or] at unmarked
    refine holds.not_exact cut small unmarked.1 (fun c member => ?_) described
    rw [← Bool.not_eq_true]
    exact fun newline => unmarked.2 ⟨c, member, newline⟩
  · exact holds.exact cut small

/-- `A\nB\r\n`, not yet indexed. -/
theorem lines_exact_iff_two : Exact ⟨some [0x41, 0x0a, 0x42, 0x0d, 0x0a], []⟩ [0x41, 0x0a, 0x42, 0x0d, 0x0a]
    [⟨[0x41], [0x0a]⟩, ⟨[0x42], [0x0d, 0x0a]⟩] :=
  (lines_exact_iff ⟨some [0x41, 0x0a, 0x42, 0x0d, 0x0a], []⟩ ⟨rfl, .inl rfl⟩
    (@IsCut.line [0x41] [0x0a] [0x42, 0x0d, 0x0a] _ (by simp [Plain, isNewlineChar])
      (.one rfl (by simp [isNewlineChar]))
      (@IsCut.line [0x42] [0x0d, 0x0a] [] _ (by simp [Plain, isNewlineChar]) (.two rfl rfl (by decide)) .nil))
    (by decide)).mpr (.inr ⟨0x0a, by decide, rfl⟩)

/-- Of a file of one line, without a line ending, the first line is not valid. -/
theorem lines_not_exact : IsCut [0x61, 0x62, 0x63] [⟨[0x61, 0x62, 0x63], []⟩] ∧
    ¬ Exact ⟨some [0x61, 0x62, 0x63], []⟩ [0x61, 0x62, 0x63] [⟨[0x61, 0x62, 0x63], []⟩] := by
  refine ⟨.last (by decide) (by simp [Plain, isNewlineChar]), fun described => ?_⟩
  have valid := (described.valid 1).mpr ⟨by decide, by decide⟩
  exact absurd valid (by decide)

end Lldb.SourceManager
