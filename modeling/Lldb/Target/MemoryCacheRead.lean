import Lldb.Target.MemoryCache

/-! What `MemoryCache::Read` returns, against what the inferior holds.

Only the first line a read takes and a line it had to fetch are copied without
looking at their length, so the readable length of at most two lines decides
whether a read stays inside the buffers it copies from.
-/

set_option autoImplicit false

namespace Lldb

open DataBuffer List Option

namespace Inferior

variable (inferior : Inferior)

theorem getElem?_readMemoryFromInferior (address length index : Nat) (byte : UInt8) :
    (inferior.readMemoryFromInferior address length)[index]? = some byte ↔
      index < length ∧ inferior ((address + index) % 2 ^ 64) = some byte ∧
        ∀ before < index, (inferior ((address + before) % 2 ^ 64)).isSome := by
  -- The read stops at the first byte that is not readable, so each byte needs all those before it.
  induction length generalizing address index with
  | zero => simp [readMemoryFromInferior]
  | succ length ih =>
    cases held : inferior (address % 2 ^ 64) with
    | none =>
      simp only [readMemoryFromInferior, held, getElem?_nil, reduceCtorEq, false_iff]
      rintro ⟨_, here, readable⟩
      cases index with
      | zero => exact nomatch held.symm.trans here
      | succ index =>
        have front := readable 0 (Nat.succ_pos index)
        rw [add_zero, held] at front
        cases front
    | some first =>
      simp only [readMemoryFromInferior, held]
      cases index with
      | zero =>
        rw [add_zero address, held]
        exact ⟨fun same => ⟨Nat.succ_pos length, same, nofun⟩, fun inside => inside.2.1⟩
      | succ index =>
        have shift : ∀ offset, address + 1 + offset = address + (offset + 1) := by omega
        rw [getElem?_cons_succ, ih, shift]
        constructor
        · rintro ⟨inside, here, readable⟩
          refine ⟨Nat.succ_lt_succ inside, here, fun before below => ?_⟩
          cases before with
          | zero => rw [add_zero, held, isSome_some]
          | succ before =>
            rw [← shift]
            exact readable before (Nat.lt_of_succ_lt_succ below)
        · rintro ⟨inside, here, readable⟩
          refine ⟨Nat.lt_of_succ_lt_succ inside, here, fun before below => ?_⟩
          rw [shift]
          exact readable (before + 1) (Nat.succ_lt_succ below)

theorem length_readMemoryFromInferior_le (address length : Nat) :
    (inferior.readMemoryFromInferior address length).length ≤ length := by
  by_contra beyond
  have inside : length < (inferior.readMemoryFromInferior address length).length := by omega
  have read := getElem?_eq_getElem inside
  exact absurd ((inferior.getElem?_readMemoryFromInferior address length length _).mp read).1
    (lt_irrefl length)

theorem take_readMemoryFromInferior (address count length : Nat) :
    (inferior.readMemoryFromInferior address length).take count =
      inferior.readMemoryFromInferior address (min length count) := by
  induction length generalizing address count with
  | zero => simp [readMemoryFromInferior]
  | succ length ih =>
    cases count with
    | zero => simp [readMemoryFromInferior]
    | succ count =>
      rw [Nat.succ_min_succ]
      cases held : inferior (address % 2 ^ 64) with
      | none => simp only [readMemoryFromInferior, held, take_nil]
      | some byte => simp only [readMemoryFromInferior, held, take_succ_cons, ih]

theorem readMemoryFromInferior_part {base total offset size : Nat}
    (whole : (inferior.readMemoryFromInferior base total).length = total) (inside : offset + size ≤ total) :
    inferior.readMemoryFromInferior (base + offset) size =
      ((inferior.readMemoryFromInferior base total).drop offset).take size := by
  have readable : ∀ index < total, (inferior ((base + index) % 2 ^ 64)).isSome := by
    intro index below
    have read := getElem?_eq_getElem (show index < (inferior.readMemoryFromInferior base total).length by omega)
    rw [((inferior.getElem?_readMemoryFromInferior base total index _).mp read).2.1]
    rfl
  apply ext_getElem?
  intro index
  apply Option.ext
  intro byte
  rw [getElem?_take]
  by_cases below : index < size
  · rw [if_pos below, getElem?_drop, getElem?_readMemoryFromInferior, getElem?_readMemoryFromInferior,
      add_assoc]
    constructor
    · rintro ⟨-, here, -⟩
      exact ⟨by omega, here, fun before _ => readable before (by omega)⟩
    · rintro ⟨-, here, -⟩
      refine ⟨below, here, fun before _ => ?_⟩
      rw [add_assoc]
      exact readable (offset + before) (by omega)
  · rw [getElem?_readMemoryFromInferior]
    simp [below]

theorem getElem?_readMemoryFromInferior_congr {inferior other : Inferior} {address length index : Nat}
    (same : ∀ before ≤ index, before < length →
      inferior ((address + before) % 2 ^ 64) = other ((address + before) % 2 ^ 64)) :
    (inferior.readMemoryFromInferior address length)[index]? =
      (other.readMemoryFromInferior address length)[index]? := by
  apply Option.ext
  intro byte
  rw [getElem?_readMemoryFromInferior, getElem?_readMemoryFromInferior]
  constructor
  · rintro ⟨inside, here, readable⟩
    refine ⟨inside, same index (le_refl index) inside ▸ here, fun before below => ?_⟩
    rw [← same before (le_of_lt below) (lt_trans below inside)]
    exact readable before below
  · rintro ⟨inside, here, readable⟩
    refine ⟨inside, (same index (le_refl index) inside).symm ▸ here, fun before below => ?_⟩
    rw [same before (le_of_lt below) (lt_trans below inside)]
    exact readable before below

variable (address : Nat)

/-- The memory after the bytes of `data` are stored from `address` on. -/
def write (data : List UInt8) : Inferior :=
  fun other => data[(other + 2 ^ 64 - address % 2 ^ 64) % 2 ^ 64]?.or (inferior other)

theorem write_eq (data : List UInt8) {index : Nat} (bounded : index < 2 ^ 64) :
    inferior.write address data ((address + index) % 2 ^ 64) =
      data[index]?.or (inferior ((address + index) % 2 ^ 64)) := by
  have offset : ((address + index) % 2 ^ 64 + 2 ^ 64 - address % 2 ^ 64) % 2 ^ 64 = index := by omega
  rw [write, offset]

/-- The buffer holds the bytes of the inferior from `address` on. -/
def Reproduces (buffer : DataBuffer) : Prop :=
  ∀ (index : Nat) (byte : UInt8), buffer[index]? = some byte → inferior ((address + index) % 2 ^ 64) = some byte

theorem reproduces_readMemoryFromInferior (address length : Nat) :
    inferior.Reproduces address (inferior.readMemoryFromInferior address length) :=
  fun index byte read =>
    ((inferior.getElem?_readMemoryFromInferior address length index byte).mp read).2.1

/-- Every byte of `dst` has a defined value, and it is the byte of the inferior. -/
def Serves (dst : List (Option UInt8)) : Prop :=
  ∀ (index : Nat) (byte : Option UInt8), dst[index]? = some byte →
    byte.isSome ∧ inferior ((address + index) % 2 ^ 64) = byte

theorem serves_nil : inferior.Serves address [] := by simp [Serves]

theorem serves_append (front back : List (Option UInt8)) : inferior.Serves address (front ++ back) ↔
      inferior.Serves address front ∧ inferior.Serves (address + front.length) back := by
  constructor
  · intro whole
    refine ⟨fun index byte read => ?_, fun index byte read => ?_⟩
    · have inside := (List.getElem?_eq_some_iff.mp read).1
      exact whole index byte (by rw [getElem?_append_left inside]; exact read)
    · have shifted := whole (front.length + index) byte
        (by rw [getElem?_append_right (by omega)]; simpa using read)
      rwa [← add_assoc] at shifted
  · rintro ⟨left, right⟩ index byte read
    by_cases inside : index < front.length
    · rw [getElem?_append_left inside] at read
      exact left index byte read
    · rw [getElem?_append_right (by omega)] at read
      have shifted := right (index - front.length) byte read
      rwa [show address + front.length + (index - front.length) = address + index by omega] at shifted

theorem serves_congr {address other : Nat} (same : address % 2 ^ 64 = other % 2 ^ 64)
    (dst : List (Option UInt8)) : inferior.Serves address dst ↔ inferior.Serves other dst := by
  have shift : ∀ index, (address + index) % 2 ^ 64 = (other + index) % 2 ^ 64 := fun index => by omega
  simp only [Serves, shift]

end Inferior

namespace DataBuffer

@[simp] theorem length_copyOut (buffer : DataBuffer) (offset length : Nat) :
    (buffer.copyOut offset length).length = length := by
  simp [copyOut]

theorem getElem?_copyOut (buffer : DataBuffer) (offset length index : Nat) (byte : Option UInt8) :
    (buffer.copyOut offset length)[index]? = some byte ↔ index < length ∧ buffer[offset + index]? = byte := by
  by_cases inside : index < length <;> simp [copyOut, inside]

theorem copyOut_congr {buffer other : DataBuffer} {offset length : Nat}
    (same : ∀ index < offset + length, buffer[index]? = other[index]?) :
    buffer.copyOut offset length = other.copyOut offset length := by
  apply map_congr_left
  intro index member
  apply same
  have below := mem_range.mp member
  omega

/-- Copying inside a buffer that reproduces the inferior serves the request, and a
copy that leaves the buffer does not. -/
theorem serves_copyOut {inferior : Inferior} {base : Nat} {buffer : DataBuffer}
    (held : inferior.Reproduces base buffer) (offset length : Nat) :
    inferior.Serves (base + offset) (buffer.copyOut offset length) ↔ length = 0 ∨ offset + length ≤ buffer.length := by
  constructor
  · intro served
    by_contra outside
    have last : length - 1 < length := by omega
    have copied := (getElem?_copyOut buffer offset length (length - 1) _).mpr ⟨last, rfl⟩
    have beyond : buffer[offset + (length - 1)]? = none := getElem?_eq_none (by omega)
    simpa [beyond] using (served _ _ copied).1
  · intro inside index byte copied
    obtain ⟨below, rfl⟩ := (getElem?_copyOut buffer offset length index byte).mp copied
    have present : offset + index < buffer.length := by omega
    refine ⟨by simp [present], ?_⟩
    rw [getElem?_eq_getElem present, add_assoc]
    exact held _ _ (getElem?_eq_getElem present)

end DataBuffer

namespace MemoryCache

/-- The cached line right behind `first` in the map, when it is the line `second`. -/
def nextCached (lines : BlockMap) (first second : Nat) : Option DataBuffer :=
  match lines.after first with
  | [] => none
  | (key, line) :: _ => if key = second then some line else none

theorem nextCached_insert (lines : BlockMap) (first second : Nat) (line : DataBuffer) :
    nextCached (lines.insert first line) first second = nextCached lines first second := by
  simp [nextCached, lines.after_insert]

variable {lines : BlockMap} {first : Nat}

theorem after_of_nextCached {second : Nat} {line : DataBuffer} (next : nextCached lines first second = some line) :
    ∃ rest, lines.after first = (second, line) :: rest := by
  unfold nextCached at next
  split at next
  · cases next
  · rename_i key found rest follow
    split at next
    · rename_i same
      cases next
      exact ⟨rest, same ▸ follow⟩
    · cases next

theorem mem_of_nextCached {second : Nat} {line : DataBuffer}
    (next : nextCached lines first second = some line) : (second, line) ∈ lines.entries := by
  obtain ⟨rest, follow⟩ := after_of_nextCached next
  exact lines.mem_of_mem_after (by rw [follow]; exact .head _)

theorem takeLine_past {lineSize : Nat} (cursor : Cursor) (offset : cursor.cacheOffset < lineSize)
    (past : lineSize - cursor.cacheOffset < cursor.bytesLeft) (line : DataBuffer) :
    cursor.takeLine lineSize line =
      ⟨cursor.bytesLeft - (lineSize - cursor.cacheOffset), (cursor.currAddr + lineSize) % 2 ^ 64, 0,
        cursor.dst ++ line.copyOut cursor.cacheOffset (lineSize - cursor.cacheOffset)⟩ := by
  have sum : cursor.currAddr + (lineSize - cursor.cacheOffset) + cursor.cacheOffset =
      cursor.currAddr + lineSize := by omega
  have whole : min (lineSize - cursor.cacheOffset) cursor.bytesLeft = lineSize - cursor.cacheOffset := by omega
  simp [Cursor.takeLine, whole, sum]

theorem takeSequential_done (lineSize : Nat) (entries : List (Nat × DataBuffer)) {cursor : Cursor}
    (done : cursor.bytesLeft = 0) : cursor.takeSequential lineSize entries = (cursor, false) := by
  cases entries <;> simp [Cursor.takeSequential, done]

theorem takeSequential_hit (lineSize : Nat) (entries : List (Nat × DataBuffer)) (cursor : Cursor)
    (line : DataBuffer) (positive : cursor.bytesLeft ≠ 0) (small : cursor.bytesLeft ≤ lineSize) :
    let out := cursor.takeSequential lineSize ((cursor.currAddr, line) :: entries)
    (out.2 = true ∨ out.1.bytesLeft = 0) ∧
      out.1.dst = cursor.dst ++ line.copyOut 0 (min line.length cursor.bytesLeft) := by
  simp only [Cursor.takeSequential, positive, false_or, ne_eq, not_true_eq_false, if_false]
  by_cases short : line.length = lineSize
  · have whole : cursor.bytesLeft - min line.length cursor.bytesLeft = 0 := by omega
    rw [if_neg (by simpa using short), takeSequential_done lineSize entries whole]
    exact ⟨.inr whole, rfl⟩
  · rw [if_pos short]
    exact ⟨.inl rfl, rfl⟩

theorem takeSequential_miss {lineSize : Nat} (cursor : Cursor) (miss : nextCached lines first cursor.currAddr = none) :
    cursor.takeSequential lineSize (lines.after first) = (cursor, false) := by
  unfold nextCached at miss
  split at miss
  · rename_i empty
    rw [empty, Cursor.takeSequential]
  · rename_i key line rest follow
    split at miss
    · cases miss
    · rename_i apart
      rw [follow, Cursor.takeSequential, if_pos (.inr apart)]

section Lines

variable (inferior : Inferior) (invalid : RangeArray) (lineSize : Nat)

variable {lines : BlockMap} {line : DataBuffer} {first offset length : Nat} {trusted : Nat → Nat}

theorem readLines_last (fuel : Nat) (cursor : Cursor)
    (found : lines.find? cursor.currAddr = some line) (positive : 0 < cursor.bytesLeft)
    (fits : cursor.bytesLeft ≤ lineSize - cursor.cacheOffset) :
    readLines inferior invalid lineSize (fuel + 1) lines cursor =
      if (invalid.findEntryThatContains cursor.currAddr).isSome then
        (⟨cursor.dst, some (invalidReadError cursor.currAddr)⟩, lines)
      else (⟨cursor.dst ++ line.copyOut cursor.cacheOffset cursor.bytesLeft, none⟩, lines) := by
  have whole : min (lineSize - cursor.cacheOffset) cursor.bytesLeft = cursor.bytesLeft := by omega
  have done : (cursor.takeLine lineSize line).bytesLeft = 0 := by
    simp only [Cursor.takeLine]
    omega
  simp only [readLines, found, takeSequential_done lineSize _ done]
  rw [if_neg (by omega)]
  simp [Cursor.takeLine, whole]

def secondBytes (lines : BlockMap) (first second rest : Nat) : List (Option UInt8) :=
  match nextCached lines first second with
  | some next => next.copyOut 0 (min next.length rest)
  | none =>
      let next : DataBuffer := inferior.readMemoryFromInferior second lineSize
      if next = [] ∨ (invalid.findEntryThatContains second).isSome then [] else next.copyOut 0 rest

theorem readLines_past (fuel : Nat) (cursor : Cursor) (found : lines.find? cursor.currAddr = some line)
    (valid : ¬ (invalid.findEntryThatContains cursor.currAddr).isSome)
    (offset : cursor.cacheOffset < lineSize) (past : lineSize - cursor.cacheOffset < cursor.bytesLeft)
    (small : cursor.bytesLeft ≤ lineSize) :
    let second := (cursor.currAddr + lineSize) % 2 ^ 64
    let rest := cursor.bytesLeft - (lineSize - cursor.cacheOffset)
    let dst := cursor.dst ++ line.copyOut cursor.cacheOffset (lineSize - cursor.cacheOffset)
    let next := inferior.readMemoryFromInferior second lineSize
    let result := readLines inferior invalid lineSize (fuel + 2) lines cursor
    result.1.dst = dst ++ secondBytes inferior invalid lineSize lines cursor.currAddr second rest ∧
      (result.2 = lines ∨ next ≠ [] ∧ result.2 = lines.insert second next) := by
  intro second rest dst next result
  have moved : cursor.takeLine lineSize line = ⟨rest, second, 0, dst⟩ := takeLine_past cursor offset past line
  have positive : rest ≠ 0 := by omega
  have unfolded : result = readLines inferior invalid lineSize (fuel + 2) lines cursor := rfl
  rw [readLines, if_neg (by omega), if_neg valid] at unfolded
  simp only [found, moved] at unfolded
  -- The second line is next in the map, or is looked up again after it was fetched.
  cases follow : nextCached lines cursor.currAddr second with
  | some next =>
    obtain ⟨others, entries⟩ := after_of_nextCached follow
    have hit := takeSequential_hit lineSize others ⟨rest, second, 0, dst⟩ next positive (by simp only [rest]; omega)
    rw [entries, if_pos hit.1] at unfolded
    rw [unfolded, secondBytes, follow]
    exact ⟨hit.2, .inl rfl⟩
  | none =>
    rw [takeSequential_miss ⟨rest, second, 0, dst⟩ follow, if_neg (by simp [positive])]
      at unfolded
    rw [secondBytes, follow]
    by_cases nothing : next = []
    · simp only [next] at nothing
      simp [unfolded, nothing]
    · have last := readLines_last inferior invalid lineSize fuel ⟨rest, second, 0, dst⟩
        (lines.find?_insert_self second next)
        (Nat.pos_of_ne_zero positive) (by simp only [rest]; omega)
      rw [last] at unfolded
      rw [unfolded]
      by_cases bad : (invalid.findEntryThatContains second).isSome <;> simp [bad, nothing, next]

def spanBytes (lines : BlockMap) (first offset length : Nat) : List (Option UInt8) :=
  let line : DataBuffer := (lines.find? first).getD (inferior.readMemoryFromInferior first lineSize)
  let second := (first + lineSize) % 2 ^ 64
  let taken := min (lineSize - offset) length
  if (invalid.findEntryThatContains first).isSome ∨ line = [] then []
  else line.copyOut offset taken ++ if length = taken then []
    else secondBytes inferior invalid lineSize lines first second (length - taken)

def Fetched (first offset length : Nat) (entry : Nat × DataBuffer) : Prop :=
  entry.2 = inferior.readMemoryFromInferior entry.1 lineSize ∧ entry.2 ≠ [] ∧
    (entry.1 = first ∨ lineSize < offset + length ∧ entry.1 = (first + lineSize) % 2 ^ 64)

theorem readLines_cached {fuel : Nat} (found : lines.find? first = some line) (present : line ≠ [])
    (inside : offset < lineSize) (positive : 0 < length) (small : length ≤ lineSize)
    (enough : lineSize < offset + length → 2 ≤ fuel) (started : 1 ≤ fuel) :
    let result := readLines inferior invalid lineSize fuel lines ⟨length, first, offset, []⟩
    result.1.dst = spanBytes inferior invalid lineSize lines first offset length ∧ ∀ entry ∈ result.2.entries,
        entry ∈ lines.entries ∨ Fetched inferior lineSize first offset length entry := by
  intro result
  by_cases bad : (invalid.findEntryThatContains first).isSome
  · have stopped : result = (⟨[], some (invalidReadError first)⟩, lines) := by
      obtain ⟨fuel, rfl⟩ := Nat.exists_eq_add_of_le' started
      simp only [result, readLines]
      rw [if_neg (by omega), if_pos bad]
    rw [stopped, spanBytes, if_pos (.inl bad)]
    exact ⟨rfl, fun entry => .inl⟩
  -- A request that is not larger than a line takes one line or two.
  by_cases fits : length ≤ lineSize - offset
  · have taken : min (lineSize - offset) length = length := by omega
    obtain ⟨fuel, rfl⟩ := Nat.exists_eq_add_of_le' started
    have last : result = _ := readLines_last inferior invalid lineSize fuel
      ⟨length, first, offset, []⟩ found positive fits
    rw [last, if_neg bad]
    refine ⟨?_, fun entry => .inl⟩
    simp [spanBytes, bad, found, taken, present]
  · have taken : min (lineSize - offset) length = lineSize - offset := by omega
    obtain ⟨fuel, rfl⟩ := Nat.exists_eq_add_of_le' (enough (by omega))
    obtain ⟨copied, added⟩ := readLines_past inferior invalid lineSize fuel
      ⟨length, first, offset, []⟩ found bad inside (by simpa using fits) small
    refine ⟨?_, fun entry member => ?_⟩
    · rw [copied, spanBytes, found]
      simp [bad, present, taken, show length ≠ lineSize - offset by omega]
    · rcases added with same | ⟨nonempty, same⟩
      · rw [same] at member
        exact .inl member
      · rw [same, Library.OrderedMap.mem_insert] at member
        rcases member with fresh | ⟨old, _⟩
        · subst fresh
          exact .inr ⟨rfl, nonempty, .inr ⟨by omega, rfl⟩⟩
        · exact .inl old

theorem readLines_span (first : Nat) (present : ∀ entry ∈ lines.entries, entry.2 ≠ [])
    (inside : offset < lineSize) (positive : 0 < length) (small : length ≤ lineSize) :
    let result := readLines inferior invalid lineSize (length + 2) lines ⟨length, first, offset, []⟩
    result.1.dst = spanBytes inferior invalid lineSize lines first offset length ∧ ∀ entry ∈ result.2.entries,
        entry ∈ lines.entries ∨ Fetched inferior lineSize first offset length entry := by
  cases found : lines.find? first with
  | some line =>
    have member := (lines.find?_eq_some_iff first line).mp found
    exact readLines_cached inferior invalid lineSize found (present _ member) inside positive small
      (fun _ => by omega) (by omega)
  | none =>
    intro result
    have unfolded : result = readLines inferior invalid lineSize (length + 2) lines ⟨length, first, offset, []⟩ := rfl
    rw [readLines, if_neg (show ¬ length = 0 by omega)] at unfolded
    by_cases bad : (invalid.findEntryThatContains first).isSome
    · rw [if_pos bad] at unfolded
      rw [unfolded, spanBytes, if_pos (.inl bad)]
      exact ⟨rfl, fun entry => .inl⟩
    rw [if_neg bad] at unfolded
    simp only [found, Bool.false_eq_true, false_or, show length ≠ 0 by omega, if_false] at unfolded
    by_cases nothing : inferior.readMemoryFromInferior first lineSize = []
    · rw [if_pos (by simpa using nothing)] at unfolded
      rw [unfolded, spanBytes, if_pos (.inr (by simpa [found] using nothing))]
      exact ⟨rfl, fun entry => .inl⟩
    · rw [if_neg (by simpa using nothing)] at unfolded
      -- The first round fetched the line; the next finds it, and what follows it in the map is as before.
      have enough : lineSize < offset + length → 2 ≤ length + 1 := by omega
      obtain ⟨copied, added⟩ := readLines_cached inferior invalid lineSize
        (lines.find?_insert_self first (inferior.readMemoryFromInferior first lineSize)) nothing
        inside positive small enough (by omega)
      rw [unfolded]
      refine ⟨?_, fun entry member => ?_⟩
      · rw [copied]
        simp [spanBytes, secondBytes, found, lines.find?_insert_self, nextCached_insert]
      · rcases added entry member with old | fetched
        · rcases (lines.mem_insert first _ entry).mp old with fresh | ⟨old, _⟩
          · subst fresh
            exact .inr ⟨rfl, nothing, .inl rfl⟩
          · exact .inl old
        · exact .inr fetched

/-- The readable length of the line at `key`. -/
def readable (key : Nat) : Nat := (inferior.readMemoryFromInferior key lineSize).length

/-- No line that is copied without a look at its length is shorter than the copy. -/
def SpanInBounds (lines : BlockMap) (first offset length : Nat) : Prop :=
  let second := (first + lineSize) % 2 ^ 64
  let taken := min (lineSize - offset) length
  length = 0 ∨ (invalid.findEntryThatContains first).isSome ∨ readable inferior lineSize first = 0 ∨
    offset + taken ≤ readable inferior lineSize first ∧ (length = taken ∨ (nextCached lines first second).isSome ∨
        (invalid.findEntryThatContains second).isSome ∨ readable inferior lineSize second = 0 ∨
        length - taken ≤ readable inferior lineSize second)

instance (lines : BlockMap) (first offset length : Nat) :
    Decidable (SpanInBounds inferior invalid lineSize lines first offset length) :=
  inferInstanceAs (Decidable (_ ∨ _ ∨ _ ∨ _ ∧ (_ ∨ _ ∨ _ ∨ _ ∨ _)))

/-- The first `trusted key` bytes of each cached line are those the inferior holds. -/
def Trusted (trusted : Nat → Nat) (lines : BlockMap) : Prop :=
  ∀ entry ∈ lines.entries, entry.2 ≠ [] ∧ ∀ index < trusted entry.1,
    entry.2[index]? = (inferior.readMemoryFromInferior entry.1 lineSize)[index]?

variable {inferior invalid lineSize}

theorem Trusted.found (cached : Trusted inferior lineSize trusted lines) (key : Nat) : ∀ index < trusted key,
      ((lines.find? key).getD (inferior.readMemoryFromInferior key lineSize))[index]? =
        (inferior.readMemoryFromInferior key lineSize)[index]? := by
  intro index below
  cases lookup : lines.find? key with
  | none => rfl
  | some line => exact (cached _ ((lines.find?_eq_some_iff key line).mp lookup)).2 index below

theorem serves_secondBytes {second rest : Nat}
    (cached : Trusted inferior lineSize trusted lines) (inside : rest ≤ trusted second)
    (positive : rest ≠ 0) :
    inferior.Serves second (secondBytes inferior invalid lineSize lines first second rest) ↔
      (nextCached lines first second).isSome ∨ (invalid.findEntryThatContains second).isSome ∨
        readable inferior lineSize second = 0 ∨ rest ≤ readable inferior lineSize second := by
  have held := inferior.reproduces_readMemoryFromInferior second lineSize
  unfold secondBytes
  cases follow : nextCached lines first second with
  | some next =>
    have bytes := (cached _ (mem_of_nextCached follow)).2
    -- A sequential hit copies no more than the line has, and that is what the inferior holds.
    have enough : min next.length rest ≤ readable inferior lineSize second := by
      by_contra beyond
      have present : readable inferior lineSize second < next.length := by omega
      have missing := bytes (readable inferior lineSize second) (by simp only; omega)
      have absent : (inferior.readMemoryFromInferior second lineSize)[readable inferior lineSize second]?
          = none := getElem?_eq_none (le_refl _)
      rw [getElem?_eq_getElem present] at missing
      exact absurd (missing.trans absent) (some_ne_none _)
    have same : next.copyOut 0 (min next.length rest) = copyOut
        (inferior.readMemoryFromInferior second lineSize) 0 (min next.length rest) :=
      copyOut_congr fun index below => bytes index (by simp only; omega)
    have served := (serves_copyOut held 0 (min next.length rest)).mpr
      (.inr (by simpa [readable] using enough))
    simpa [same] using served
  | none =>
    by_cases bad : (invalid.findEntryThatContains second).isSome
    · simp [bad, inferior.serves_nil]
    · by_cases nothing : inferior.readMemoryFromInferior second lineSize = []
      · simp [nothing, inferior.serves_nil, readable]
      · have served := serves_copyOut held 0 rest
        simp only [add_zero, positive] at served
        rw [if_neg (by simp [bad, nothing]), served]
        simp [bad, nothing, readable]

theorem serves_spanBytes (invalid : RangeArray)
    (cached : Trusted inferior lineSize trusted lines) (inside : offset < lineSize)
    (positive : 0 < length)
    (firstTrusted : offset + min (lineSize - offset) length ≤ trusted first)
    (secondTrusted : length ≠ min (lineSize - offset) length →
      length - min (lineSize - offset) length ≤ trusted ((first + lineSize) % 2 ^ 64)) :
    inferior.Serves (first + offset) (spanBytes inferior invalid lineSize lines first offset length) ↔
      SpanInBounds inferior invalid lineSize lines first offset length := by
  have bytes := cached.found first
  have held := inferior.reproduces_readMemoryFromInferior first lineSize
  simp only [spanBytes, SpanInBounds, Nat.pos_iff_ne_zero.mp positive, false_or]
  generalize lineIs : (lines.find? first).getD _ = line at bytes ⊢
  generalize takenIs : min (lineSize - offset) length = taken at *
  by_cases bad : (invalid.findEntryThatContains first).isSome
  · simp [bad, inferior.serves_nil]
  have empty : line = [] ↔ readable inferior lineSize first = 0 := by
    have head := bytes 0 (by omega)
    rw [readable, length_eq_zero_iff]
    cases line <;> cases other : inferior.readMemoryFromInferior first lineSize <;>
      simp [other] at head ⊢
  by_cases nothing : line = []
  · simp [nothing, empty.mp nothing, inferior.serves_nil]
  have same : line.copyOut offset taken = copyOut (inferior.readMemoryFromInferior first lineSize) offset taken :=
    copyOut_congr fun index below => bytes index (by omega)
  have front : inferior.Serves (first + offset) (line.copyOut offset taken) ↔
      offset + taken ≤ readable inferior lineSize first := by
    rw [same, serves_copyOut held, readable]
    omega
  have unreadable : readable inferior lineSize first ≠ 0 := fun zero => nothing (empty.mpr zero)
  rw [if_neg (by simp [bad, nothing]), inferior.serves_append, front]
  simp only [bad, unreadable, Bool.false_eq_true, false_or, length_copyOut]
  apply and_congr_right
  intro _
  by_cases whole : length = taken
  · simp [whole, inferior.serves_nil]
  · have address : (first + offset + taken) % 2 ^ 64 = (first + lineSize) % 2 ^ 64 % 2 ^ 64 := by
      rw [Nat.mod_mod, show first + offset + taken = first + lineSize by omega]
    rw [if_neg whole, inferior.serves_congr address, serves_secondBytes cached (secondTrusted whole) (by omega)]
    simp [whole]

end Lines

end MemoryCache

end Lldb
