import Lldb.Target.ProcessMemory

/-! Strings in the memory of a process: `ReadStringFromMemory` and both `ReadCStringFromMemory`, which read up to the
end of one cache line after another. The destinations are not null and characters have at most 4 bytes, as the
source asserts.
-/

set_option autoImplicit false

namespace Lldb

open Library (Window)
open List Option

/-- What the readers see of a process: `ReadMemory` returns the readable prefix, and sets no error where that is
all up to the end of a line. Where it is less, reading the line has failed somewhere. -/
structure CachedMemory where
  inferior : Inferior
  cacheLineSize : Nat
  cacheLineSize_pos : 0 < cacheLineSize
  readError : Nat → Nat → Option String

namespace CachedMemory

variable (memory : CachedMemory)

def readMemory (address size : Nat) : List UInt8 × Option String :=
  let bytes := memory.inferior.readMemoryFromInferior address size
  let whole := bytes.length = size ∧ (address + size) % memory.cacheLineSize = 0
  (bytes, if whole then none else memory.readError address size)

def bytesToRead (currAddr bytesLeft : Nat) : Nat :=
  min bytesLeft (memory.cacheLineSize - currAddr % memory.cacheLineSize)

structure StringRead where
  length : Nat
  dst : List UInt8
  error : Option String
  deriving DecidableEq, Repr

def TerminatorAt (typeWidth : Nat) (bytes : List UInt8) (i : Nat) : Prop :=
  (bytes.drop i).take typeWidth = replicate typeWidth 0

instance (typeWidth : Nat) (bytes : List UInt8) (i : Nat) : Decidable (TerminatorAt typeWidth bytes i) :=
  inferInstanceAs (Decidable (_ = _))

/-- The search through the bytes read, up to `stop`. -/
def findTerminator (typeWidth : Nat) (dst : List UInt8) (stop : Nat) : Nat → Nat → Option Nat
  | 0, _ => none
  | fuel + 1, i =>
      if i + typeWidth ≤ stop then
        if TerminatorAt typeWidth dst i then some i else findTerminator typeWidth dst stop fuel (i + typeWidth)
      else none

/-- The loop of `ReadStringFromMemory`; every turn but the last reads a byte, so `bytesLeft` turns are enough.
`curr_dst` is `totalBytesRead` bytes into the destination. -/
def readStringLoop (typeWidth : Nat) :
    Nat → (currAddr totalBytesRead bytesLeft : Nat) → List UInt8 → Option String → StringRead
  | 0, _, totalBytesRead, _, dst, error => ⟨totalBytesRead, dst, error⟩
  | fuel + 1, currAddr, totalBytesRead, bytesLeft, dst, error =>
      if 0 < bytesLeft ∧ error = none then
        let (bytes, error) := memory.readMemory currAddr (memory.bytesToRead currAddr bytesLeft)
        if bytes = [] then ⟨totalBytesRead, dst, error⟩
        else
          let dst := Window.overwrite totalBytesRead bytes dst
          let alignedStart := totalBytesRead - totalBytesRead % typeWidth
          let stop := totalBytesRead + bytes.length
          match findTerminator typeWidth dst stop stop alignedStart with
          | some i => ⟨i, dst, none⟩
          | none =>
              readStringLoop typeWidth fuel ((currAddr + bytes.length) % 2 ^ 64) stop (bytesLeft - bytes.length)
                dst error
      else ⟨totalBytesRead, dst, error⟩

/-- Into a destination of `max_bytes` bytes. -/
def readStringFromMemory (address : Nat) (dst : List UInt8) (typeWidth : Nat) : StringRead :=
  if dst ≠ [] ∧ typeWidth ≠ 0 ∧ typeWidth ≤ dst.length then
    let bytesLeft := dst.length - typeWidth
    memory.readStringLoop typeWidth bytesLeft address 0 bytesLeft (replicate dst.length 0) none
  else ⟨0, dst, if dst ≠ [] then some "invalid arguments" else none⟩

/-- `none` without a terminator, where the bytes behind the destination are looked at. -/
def strlen (bytes : List UInt8) : Option Nat :=
  if 0 ∈ bytes then some (bytes.takeWhile (· ≠ 0)).length else none

/-- The loop of `ReadCStringFromMemory`. -/
def readCStringLoop : Nat → (currAddr totalCstrLen currDst bytesLeft : Nat) → List UInt8 → Option StringRead
  | 0, _, totalCstrLen, _, _, dst => some ⟨totalCstrLen, dst, none⟩
  | fuel + 1, currAddr, totalCstrLen, currDst, bytesLeft, dst =>
      if 0 < bytesLeft then
        let bytesToRead := memory.bytesToRead currAddr bytesLeft
        let (bytes, error) := memory.readMemory currAddr bytesToRead
        if bytes = [] then some ⟨totalCstrLen, dst.set totalCstrLen 0, error⟩
        else do
          let dst := Window.overwrite currDst bytes dst
          let len ← strlen (dst.drop currDst)
          if len < bytesToRead then return ⟨totalCstrLen + len, dst, none⟩
          else
            readCStringLoop fuel ((currAddr + bytes.length) % 2 ^ 64) (totalCstrLen + len) (currDst + bytes.length)
              (bytesLeft - bytes.length) dst
      else some ⟨totalCstrLen, dst, none⟩

def readCStringFromMemory (address : Nat) (dst : List UInt8) : Option StringRead :=
  if dst ≠ [] then
    let bytesLeft := dst.length - 1
    memory.readCStringLoop bytesLeft address 0 0 bytesLeft (replicate dst.length 0)
  else some ⟨0, dst, none⟩

/-- The overload for `std::string`, with a turn of its loop for each unit of fuel. -/
def readCStringToString : Nat → Nat → List UInt8 → Option (List UInt8)
  | 0, _, _ => none
  | fuel + 1, currAddr, outStr => do
      let buf := replicate 256 0
      let read ← memory.readCStringFromMemory currAddr buf
      if read.length = 0 then return outStr
      else
        let outStr := outStr ++ read.dst.take read.length
        if read.length = buf.length - 1 then readCStringToString fuel ((currAddr + read.length) % 2 ^ 64) outStr
        else return outStr

end CachedMemory

/-! Reading on from where an earlier read ended. -/

namespace Inferior

variable {inferior : Inferior} {address size count : Nat}

theorem readMemoryFromInferior_congr {address other : Nat} (same : address % 2 ^ 64 = other % 2 ^ 64) (size : Nat) :
    inferior.readMemoryFromInferior address size = inferior.readMemoryFromInferior other size := by
  induction size generalizing address other with
  | zero => rfl
  | succ size ih =>
    have rest : (address + 1) % 2 ^ 64 = (other + 1) % 2 ^ 64 := by omega
    have next := ih rest
    simp only [readMemoryFromInferior, same, next]

theorem readMemoryFromInferior_short {larger : Nat}
    (short : (inferior.readMemoryFromInferior address size).length < size)
    (le : size ≤ larger) :
    inferior.readMemoryFromInferior address larger = inferior.readMemoryFromInferior address size := by
  have taken := inferior.take_readMemoryFromInferior address size larger
  rw [min_eq_right le] at taken
  rw [← taken, take_of_length_le]
  by_contra beyond
  rw [← taken, length_take] at short
  omega

theorem readMemoryFromInferior_append (reached : (inferior.readMemoryFromInferior address count).length = count)
    (size : Nat) : inferior.readMemoryFromInferior address (count + size) =
      inferior.readMemoryFromInferior address count ++ inferior.readMemoryFromInferior (address + count) size := by
  have taken := inferior.take_readMemoryFromInferior address count (count + size)
  rw [Nat.min_eq_right (Nat.le_add_right ..)] at taken
  have whole : count ≤ (inferior.readMemoryFromInferior address (count + size)).length := by
    have bound := congrArg length taken
    rw [length_take] at bound
    omega
  have split := ProcessMemory.readMemoryFromInferior_split inferior whole
  rwa [taken, Nat.add_sub_cancel_left] at split

end Inferior

namespace CachedMemory

variable {memory : CachedMemory} {address limit typeWidth currAddr total bytesLeft : Nat} {dst : List UInt8}

/-- A turn of a loop begins with `total` bytes read and zeros behind them. -/
structure Reached (memory : CachedMemory) (address limit currAddr total bytesLeft : Nat) (dst : List UInt8) :
    Prop where
  reached : (memory.inferior.readMemoryFromInferior address total).length = total
  place : currAddr % 2 ^ 64 = (address + total) % 2 ^ 64
  left : total + bytesLeft = limit
  buffer : ∃ zeros, dst = memory.inferior.readMemoryFromInferior address total ++ replicate (bytesLeft + zeros) 0 ∧
    0 < zeros

theorem bytesToRead_pos (positive : 0 < bytesLeft) : 0 < memory.bytesToRead currAddr bytesLeft := by
  have inside := Nat.mod_lt currAddr memory.cacheLineSize_pos
  exact Nat.lt_min.mpr ⟨positive, by omega⟩

theorem bytesToRead_le : memory.bytesToRead currAddr bytesLeft ≤ bytesLeft := min_le_left ..

variable {bytes content front string : List UInt8} {i stop fuel found : Nat} {error : Option String}

/-- What a turn reads goes on where the bytes read end, and a read that falls short is the last. -/
theorem Reached.next (state : memory.Reached address limit currAddr total bytesLeft dst)
    (read : bytes = (memory.readMemory currAddr (memory.bytesToRead currAddr bytesLeft)).1) :
    memory.Reached address limit ((currAddr + bytes.length) % 2 ^ 64) (total + bytes.length) (bytesLeft - bytes.length)
        (Window.overwrite total bytes dst) ∧
      memory.inferior.readMemoryFromInferior address (total + bytes.length) =
        memory.inferior.readMemoryFromInferior address total ++ bytes ∧
      bytes.length ≤ bytesLeft ∧
      (bytes.length < memory.bytesToRead currAddr bytesLeft → memory.inferior.readMemoryFromInferior address limit =
        memory.inferior.readMemoryFromInferior address (total + bytes.length)) := by
  obtain ⟨reached, addr, left, zeros, buffer, positive⟩ := state
  have toRead : memory.bytesToRead currAddr bytesLeft ≤ bytesLeft := memory.bytesToRead_le
  generalize memory.bytesToRead currAddr bytesLeft = size at read toRead ⊢
  have bytes_eq : bytes = memory.inferior.readMemoryFromInferior (address + total) size :=
    read.trans (Inferior.readMemoryFromInferior_congr addr size)
  have bounded : bytes.length ≤ size := bytes_eq ▸ memory.inferior.length_readMemoryFromInferior_le _ _
  have both := Inferior.readMemoryFromInferior_append reached size
  rw [← bytes_eq] at both
  have front : memory.inferior.readMemoryFromInferior address (total + bytes.length) =
      memory.inferior.readMemoryFromInferior address total ++ bytes := by
    have taken := memory.inferior.take_readMemoryFromInferior address (total + bytes.length) (total + size)
    rw [min_eq_right (by omega), both, take_of_length_le (by simp [reached])] at taken
    exact taken.symm
  refine ⟨⟨?_, ?_, ?_, zeros, ?_, positive⟩, front, bounded.trans toRead, ?_⟩
  · simp [front, reached]
  · omega
  · omega
  · have room : total + bytes.length ≤ dst.length := by
      rw [buffer, length_append, length_replicate]
      omega
    rw [Window.overwrite_eq room, front, buffer, take_left' reached]
    congr 1
    rw [drop_append, drop_eq_nil_of_le (by omega), nil_append, drop_replicate]
    congr 1
    omega
  · intro short
    rw [front, ← both]
    apply Inferior.readMemoryFromInferior_short _ (by omega)
    rw [both, length_append]
    omega

def Unterminated (typeWidth : Nat) (bytes : List UInt8) (stop : Nat) : Prop :=
  ∀ i, typeWidth ∣ i → i + typeWidth ≤ stop → ¬ TerminatorAt typeWidth bytes i

theorem next_aligned {typeWidth j : Nat} (aligned : typeWidth ∣ i) (other : typeWidth ∣ j) (below : i < j) :
    i + typeWidth ≤ j := by
  have step := Nat.le_of_dvd (by omega) (Nat.dvd_sub other aligned)
  omega

theorem findTerminator_none {start : Nat} (aligned : typeWidth ∣ start) (positive : 0 < typeWidth)
    (enough : stop ≤ start + fuel) (none : findTerminator typeWidth dst stop fuel start = none)
    (other : typeWidth ∣ i) (le : start ≤ i) (inside : i + typeWidth ≤ stop) : ¬ TerminatorAt typeWidth dst i := by
  induction fuel generalizing start with
  | zero => omega
  | succ fuel ih =>
    unfold findTerminator at none
    split_ifs at none with room here
    · rcases eq_or_lt_of_le le with rfl | later
      · exact here
      · exact ih ((Nat.dvd_add_right aligned).mpr (Nat.dvd_refl typeWidth)) (by omega) none
          (next_aligned aligned other later)
    · omega

theorem findTerminator_some {start : Nat} (aligned : typeWidth ∣ start)
    (some : findTerminator typeWidth dst stop fuel start = some found) :
    typeWidth ∣ found ∧ found + typeWidth ≤ stop ∧ TerminatorAt typeWidth dst found ∧
      ∀ i, typeWidth ∣ i → start ≤ i → i < found → ¬ TerminatorAt typeWidth dst i := by
  induction fuel generalizing start with
  | zero => exact nomatch some
  | succ fuel ih =>
    unfold findTerminator at some
    split_ifs at some with room here
    · cases some
      exact ⟨aligned, room, here, fun i _ le below => absurd below (not_lt.mpr le)⟩
    · obtain ⟨divides, inside, terminates, first⟩ :=
        ih ((Nat.dvd_add_right aligned).mpr (Nat.dvd_refl typeWidth)) some
      refine ⟨divides, inside, terminates, fun i other le below => ?_⟩
      rcases eq_or_lt_of_le le with rfl | later
      · exact here
      · exact first i other (next_aligned aligned other later) below

/-- The bytes of the content up to its first terminator that is aligned, or all of them. -/
structure StringRead.Holds (typeWidth : Nat) (content : List UInt8) (read : StringRead) : Prop where
  bytes : read.dst.take read.length = content.take read.length
  stop : typeWidth ∣ read.length ∧ TerminatorAt typeWidth content read.length ∨ read.length = content.length
  first : ∀ i < read.length, typeWidth ∣ i → ¬ TerminatorAt typeWidth content i

theorem length_of_terminatorAt (positive : 0 < typeWidth)
    (terminates : TerminatorAt typeWidth content i) : i + typeWidth ≤ content.length := by
  have length := congrArg length terminates
  rw [length_take, length_drop, length_replicate] at length
  omega

theorem terminatorAt_take (count : Nat) (inside : i + typeWidth ≤ count) :
    TerminatorAt typeWidth (content.take count) i ↔ TerminatorAt typeWidth content i := by
  unfold TerminatorAt
  rw [drop_take, take_take, min_eq_left (by omega)]

theorem StringRead.holds_all (positive : 0 < typeWidth)
    (length : content.length = total) (buffer : dst.take total = content)
    (searched : Unterminated typeWidth content total) : (⟨total, dst, error⟩ : StringRead).Holds typeWidth content where
  bytes := buffer.trans (take_of_length_le length.le).symm
  stop := .inr length.symm
  first i _ aligned terminates :=
    searched i aligned ((length_of_terminatorAt positive terminates).trans length.le) terminates

theorem searched_behind (le : total ≤ stop)
    (searched : Unterminated typeWidth (dst.take total) total) (aligned : typeWidth ∣ i)
    (front : i < total - total % typeWidth) : ¬ TerminatorAt typeWidth (dst.take stop) i := by
  have inside := next_aligned aligned (Nat.dvd_sub_mod total) front
  intro terminates
  apply searched i aligned (by omega)
  rw [terminatorAt_take _ (by omega)] at terminates
  exact (terminatorAt_take _ (by omega)).mpr terminates

theorem unterminated_next (positive : 0 < typeWidth) (le : total ≤ stop)
    (searched : Unterminated typeWidth (dst.take total) total)
    (none : findTerminator typeWidth dst stop stop (total - total % typeWidth) = none) :
    Unterminated typeWidth (dst.take stop) stop := by
  intro i aligned inside
  rcases lt_or_ge i (total - total % typeWidth) with front | behind
  · exact searched_behind le searched aligned front
  · rw [terminatorAt_take _ inside]
    exact findTerminator_none (Nat.dvd_sub_mod total) positive (by omega) none aligned behind inside

theorem first_terminator (le : total ≤ stop) (searched : Unterminated typeWidth (dst.take total) total)
    (some : findTerminator typeWidth dst stop stop (total - total % typeWidth) = some found) :
    typeWidth ∣ found ∧ found + typeWidth ≤ stop ∧ TerminatorAt typeWidth (dst.take stop) found ∧
      ∀ i < found, typeWidth ∣ i → ¬ TerminatorAt typeWidth (dst.take stop) i := by
  obtain ⟨aligned, inside, terminates, first⟩ := findTerminator_some (Nat.dvd_sub_mod total) some
  refine ⟨aligned, inside, (terminatorAt_take _ inside).mpr terminates, fun i below divides => ?_⟩
  rcases lt_or_ge i (total - total % typeWidth) with front | behind
  · exact searched_behind le searched divides front
  · rw [terminatorAt_take _ (by omega)]
    exact first i divides behind below

theorem Reached.take_dst (state : memory.Reached address limit currAddr total bytesLeft dst) :
    dst.take total = memory.inferior.readMemoryFromInferior address total := by
  obtain ⟨zeros, buffer, -⟩ := state.buffer
  rw [buffer, take_left' state.reached]

theorem readMemory_failed (read : memory.readMemory currAddr (memory.bytesToRead currAddr bytesLeft) = (bytes, error))
    (failed : error ≠ none) : bytes.length < memory.bytesToRead currAddr bytesLeft ∨ bytes.length = bytesLeft := by
  obtain ⟨rfl, rfl⟩ := Prod.mk.inj read
  have most := memory.inferior.length_readMemoryFromInferior_le currAddr (memory.bytesToRead currAddr bytesLeft)
  by_contra whole
  apply failed
  apply if_pos
  have inside := Nat.mod_lt currAddr memory.cacheLineSize_pos
  have split := Nat.mod_add_div currAddr memory.cacheLineSize
  have size : memory.bytesToRead currAddr bytesLeft =
      min bytesLeft (memory.cacheLineSize - currAddr % memory.cacheLineSize) := rfl
  have line : currAddr + memory.bytesToRead currAddr bytesLeft =
      memory.cacheLineSize * (currAddr / memory.cacheLineSize + 1) := by
    rw [Nat.mul_succ]
    omega
  exact ⟨by omega, by simp [line]⟩

theorem holds_first {nextAddr left : Nat} (limits : total + bytesLeft = limit)
    (fits : bytes.length ≤ bytesLeft) (next : memory.Reached address limit nextAddr (total + bytes.length) left dst)
    (first : typeWidth ∣ found ∧ found + typeWidth ≤ total + bytes.length ∧
      TerminatorAt typeWidth (dst.take (total + bytes.length)) found ∧
      ∀ i < found, typeWidth ∣ i → ¬ TerminatorAt typeWidth (dst.take (total + bytes.length)) i) :
    (⟨found, dst, none⟩ : StringRead).Holds typeWidth (memory.inferior.readMemoryFromInferior address limit) := by
  obtain ⟨aligned, inside, terminates, before⟩ := first
  have part := memory.inferior.take_readMemoryFromInferior address (total + bytes.length) limit
  rw [min_eq_right (by omega), ← next.take_dst] at part
  rw [← part] at terminates before
  refine ⟨?_, .inl ⟨aligned, (terminatorAt_take _ inside).mp terminates⟩, fun i below divides => ?_⟩
  · have cut := congrArg (take found) part
    rw [take_take, take_take, min_eq_left (by omega)] at cut
    exact cut.symm
  · have room := next_aligned divides aligned below
    rw [← terminatorAt_take (total + bytes.length) (by omega)]
    exact before i below divides

/-- A turn preserves what has been read and searched, until a terminator is found or a read falls short. -/
theorem readStringLoop_holds (positive : 0 < typeWidth)
    (state : memory.Reached address limit currAddr total bytesLeft dst) (enough : bytesLeft ≤ fuel)
    (searched : Unterminated typeWidth (dst.take total) total)
    (stopped : error ≠ none → memory.inferior.readMemoryFromInferior address limit =
      memory.inferior.readMemoryFromInferior address total) :
    (memory.readStringLoop typeWidth fuel currAddr total bytesLeft dst error).Holds typeWidth
      (memory.inferior.readMemoryFromInferior address limit) := by
  induction fuel generalizing currAddr total bytesLeft dst error with
  | zero =>
    have last : limit = total := by have left := state.left; omega
    rw [last]
    exact StringRead.holds_all positive state.reached state.take_dst (state.take_dst ▸ searched)
  | succ fuel ih =>
    have whole (last : memory.inferior.readMemoryFromInferior address limit =
        memory.inferior.readMemoryFromInferior address total) (error : Option String) :
        (⟨total, dst, error⟩ : StringRead).Holds typeWidth (memory.inferior.readMemoryFromInferior address limit) :=
      last ▸ StringRead.holds_all positive state.reached state.take_dst (state.take_dst ▸ searched)
    unfold readStringLoop
    by_cases turn : 0 < bytesLeft ∧ error = none
    · rw [if_pos turn]
      have toRead : 0 < memory.bytesToRead currAddr bytesLeft := memory.bytesToRead_pos turn.1
      generalize read : memory.readMemory currAddr (memory.bytesToRead currAddr bytesLeft) = result
      obtain ⟨bytes, failed⟩ := result
      obtain ⟨next, front, fits, short⟩ := state.next (congrArg Prod.fst read).symm
      dsimp only at next front fits short ⊢
      by_cases empty : bytes = []
      · cases empty
        exact whole (short toRead) failed
      · rw [if_neg empty]
        have same : (Window.overwrite total bytes dst).take total = dst.take total := by
          have later := congrArg (take total) next.take_dst
          rw [take_take, Nat.min_eq_left (Nat.le_add_right ..), front, take_left' state.reached] at later
          exact later.trans state.take_dst.symm
        rw [← same] at searched
        cases found : findTerminator typeWidth (Window.overwrite total bytes dst) (total + bytes.length)
            (total + bytes.length) (total - total % typeWidth) with
        | some i => exact holds_first state.left fits next (first_terminator (Nat.le_add_right ..) searched found)
        | none =>
          have some := length_pos_iff.mpr empty
          apply ih next (by omega) (unterminated_next positive (Nat.le_add_right ..) searched found)
          intro error
          rcases readMemory_failed read error with less | filled
          · exact short less
          · rw [filled, state.left]
    · rw [if_neg turn]
      apply whole
      by_cases failed : error = none
      · have none : ¬ 0 < bytesLeft := fun more => turn ⟨more, failed⟩
        rw [show limit = total by have left := state.left; omega]
      · exact stopped failed

theorem readStringFromMemory_holds (memory : CachedMemory) (address : Nat) (dst : List UInt8) {typeWidth : Nat}
    (positive : 0 < typeWidth) : (memory.readStringFromMemory address dst typeWidth).Holds typeWidth
      (memory.inferior.readMemoryFromInferior address (dst.length - typeWidth)) := by
  unfold readStringFromMemory
  split
  · have start : memory.Reached address (dst.length - typeWidth) address 0 (dst.length - typeWidth)
        (replicate dst.length 0) :=
      ⟨rfl, rfl, zero_add _, typeWidth, congrArg (replicate · 0) (by omega), positive⟩
    apply readStringLoop_holds positive start (le_refl _) _ (absurd rfl)
    intro i _ inside
    omega
  · rename_i invalid
    have short : dst.length - typeWidth = 0 := by
      rw [not_and, not_and] at invalid
      by_cases empty : dst = []
      · simp [empty]
      · have small := invalid empty positive.ne'
        omega
    rw [short]
    exact ⟨rfl, .inr rfl, fun i below => absurd below (Nat.not_lt_zero i)⟩

/-! Characters of one byte. -/

def chars (content : List UInt8) : List UInt8 := content.takeWhile (· ≠ 0)

theorem chars_append (nonzero : ∀ byte ∈ front, byte ≠ 0) (rest : List UInt8) :
    chars (front ++ rest) = front ++ chars rest := by
  apply takeWhile_append_of_pos
  intro byte member
  exact decide_eq_true (nonzero byte member)

theorem chars_of_nonzero (nonzero : ∀ byte ∈ content, byte ≠ 0) : chars content = content := by
  have whole := chars_append nonzero []
  rwa [show chars [] = [] from rfl, append_nil] at whole

theorem chars_append_of_zero (zero : 0 ∈ front) (rest : List UInt8) : chars (front ++ rest) = chars front := by
  induction front with
  | nil => exact absurd zero not_mem_nil
  | cons byte front ih =>
    unfold chars at ih ⊢
    rw [cons_append, takeWhile_cons, takeWhile_cons]
    split
    · rename_i other
      have later : 0 ∈ front := (mem_cons.mp zero).resolve_left fun same =>
        absurd same.symm (of_decide_eq_true other)
      rw [ih later]
    · rfl

theorem take_chars (bytes : List UInt8) : bytes.take (chars bytes).length = chars bytes :=
  (prefix_iff_eq_take.mp (List.takeWhile_prefix _)).symm

theorem length_chars_le (bytes : List UInt8) : (chars bytes).length ≤ bytes.length :=
  (List.takeWhile_prefix _).length_le

theorem nonzero_of_length (whole : bytes.length ≤ (chars bytes).length) : ∀ byte ∈ bytes, byte ≠ 0 := by
  have same : chars bytes = bytes := by
    have taken := take_chars bytes
    rw [take_of_length_le whole] at taken
    exact taken.symm
  intro byte member
  rw [← same] at member
  exact of_decide_eq_true (all_eq_true.mp all_takeWhile byte member)

/-- The zeros behind the bytes are where `strlen` ends, if no byte is zero. -/
theorem strlen_eq (bytes : List UInt8) {count : Nat} (positive : 0 < count) :
    strlen (bytes ++ replicate count 0) = some (chars bytes).length := by
  have zero : (0 : UInt8) ∈ bytes ++ replicate count 0 :=
    mem_append_right _ (mem_replicate.mpr ⟨positive.ne', rfl⟩)
  refine (if_pos zero).trans (congrArg (fun string : List UInt8 => some string.length) ?_)
  change chars (bytes ++ replicate count 0) = chars bytes
  by_cases inside : 0 ∈ bytes
  · exact chars_append_of_zero inside _
  · have nonzero : ∀ byte ∈ bytes, byte ≠ 0 := fun byte member same => inside (same ▸ member)
    obtain ⟨count, rfl⟩ := Nat.exists_eq_succ_of_ne_zero positive.ne'
    rw [chars_append nonzero _, chars_of_nonzero nonzero]
    exact append_nil bytes

structure StringRead.HoldsChars (content : List UInt8) (read : StringRead) : Prop where
  length : read.length = (chars content).length
  bytes : read.dst.take read.length = chars content

/-- The characters end among the bytes read by the last turn, or where the readable bytes end. -/
theorem chars_last {size : Nat} (nonzero : ∀ byte ∈ front, byte ≠ 0)
    (part : content.take (front ++ bytes).length = front ++ bytes) (ends : (chars bytes).length < size)
    (short : bytes.length < size → content = front ++ bytes) : chars content = front ++ chars bytes := by
  by_cases zero : 0 ∈ bytes
  · rw [← take_append_drop (front ++ bytes).length content, part, append_assoc, chars_append nonzero _,
      chars_append_of_zero zero]
  · have whole := chars_of_nonzero fun byte member same => zero (same ▸ member)
    rw [short (whole ▸ ends), chars_append nonzero _]

theorem readCStringLoop_holds (state : memory.Reached address limit currAddr total bytesLeft dst)
    (enough : bytesLeft ≤ fuel)
    (nonzero : ∀ byte ∈ memory.inferior.readMemoryFromInferior address total, byte ≠ 0) :
    ∃ read, memory.readCStringLoop fuel currAddr total total bytesLeft dst = some read ∧
      read.HoldsChars (memory.inferior.readMemoryFromInferior address limit) := by
  induction fuel generalizing currAddr total bytesLeft dst with
  | zero =>
    have last : limit = total := by have left := state.left; omega
    refine ⟨_, rfl, ?_⟩
    rw [last]
    exact ⟨by rw [chars_of_nonzero nonzero, state.reached], by rw [chars_of_nonzero nonzero, state.take_dst]⟩
  | succ fuel ih =>
    unfold readCStringLoop
    by_cases more : 0 < bytesLeft
    · rw [if_pos more]
      dsimp only
      have toRead : 0 < memory.bytesToRead currAddr bytesLeft := memory.bytesToRead_pos more
      generalize read : memory.readMemory currAddr (memory.bytesToRead currAddr bytesLeft) = result
      obtain ⟨bytes, failed⟩ := result
      obtain ⟨next, front, fits, short⟩ := state.next (congrArg Prod.fst read).symm
      dsimp only at next front fits short ⊢
      by_cases empty : bytes = []
      · cases empty
        refine ⟨_, rfl, ?_⟩
        rw [short toRead, length_nil, add_zero]
        exact ⟨by rw [chars_of_nonzero nonzero, state.reached],
          by rw [chars_of_nonzero nonzero, take_set_of_le (le_refl _), state.take_dst]⟩
      · rw [if_neg empty]
        obtain ⟨zeros, buffer, positive⟩ := next.buffer
        have behind : (Window.overwrite total bytes dst).drop total =
            bytes ++ replicate (bytesLeft - bytes.length + zeros) 0 := by
          simp [buffer, front, drop_left' state.reached]
        rw [behind, strlen_eq bytes (by omega)]
        simp only [bind_eq_bind, bind_some]
        by_cases ends : (chars bytes).length < memory.bytesToRead currAddr bytesLeft
        · rw [if_pos ends]
          have part := memory.inferior.take_readMemoryFromInferior address (total + bytes.length) limit
          have inside := state.left
          rw [min_eq_right (by omega), front] at part
          have whole : (memory.inferior.readMemoryFromInferior address total ++ bytes).length =
              total + bytes.length := by
            simp [state.reached]
          have last := chars_last nonzero (whole.symm ▸ part) ends fun less => (short less).trans front
          have taken := congrArg (take (total + (chars bytes).length)) next.take_dst
          have fewer := length_chars_le bytes
          have before : (memory.inferior.readMemoryFromInferior address total).take (total + (chars bytes).length) =
              memory.inferior.readMemoryFromInferior address total :=
            take_of_length_le (state.reached.trans_le (Nat.le_add_right ..))
          rw [take_take, Nat.min_eq_left (by omega), front, take_append, state.reached, Nat.add_sub_cancel_left,
            take_chars, before] at taken
          refine ⟨_, rfl, ?_, ?_⟩
          · simp [last, state.reached]
          · exact taken.trans last.symm
        · rw [if_neg ends]
          have fewer := length_chars_le bytes
          have most : bytes.length ≤ memory.bytesToRead currAddr bytesLeft :=
            (congrArg (fun result => result.1.length) read).symm.trans_le
              (memory.inferior.length_readMemoryFromInferior_le _ _)
          have whole : (chars bytes).length = bytes.length := by omega
          rw [whole]
          apply ih next (by omega)
          rw [front]
          intro byte member
          rcases mem_append.mp member with before | here
          · exact nonzero byte before
          · exact nonzero_of_length whole.ge byte here
    · rw [if_neg more]
      have last : limit = total := by have left := state.left; omega
      refine ⟨_, rfl, ?_⟩
      rw [last]
      exact ⟨by rw [chars_of_nonzero nonzero, state.reached], by rw [chars_of_nonzero nonzero, state.take_dst]⟩

theorem readCStringFromMemory_holds (memory : CachedMemory) (address : Nat) (dst : List UInt8) :
    ∃ read, memory.readCStringFromMemory address dst = some read ∧
      read.HoldsChars (memory.inferior.readMemoryFromInferior address (dst.length - 1)) := by
  unfold readCStringFromMemory
  split
  · rename_i nonempty
    have some := length_pos_iff.mpr nonempty
    have start : memory.Reached address (dst.length - 1) address 0 (dst.length - 1) (replicate dst.length 0) :=
      ⟨rfl, rfl, zero_add _, 1, congrArg (replicate · 0) (by omega), one_pos⟩
    exact readCStringLoop_holds start (le_refl _) fun byte member => absurd member not_mem_nil
  · rename_i empty
    rw [not_not.mp empty]
    exact ⟨_, rfl, rfl, rfl⟩

theorem StringRead.Holds.chars {read : StringRead} (holds : read.Holds 1 content) : read.HoldsChars content := by
  have le : read.length ≤ content.length := by
    rcases holds.stop with ⟨-, terminates⟩ | all
    · exact Nat.le_of_succ_le (length_of_terminatorAt Nat.one_pos terminates)
    · exact all.le
  have unit {i : Nat} (inside : i < content.length) (zero : content[i] = 0) : TerminatorAt 1 content i := by
    unfold TerminatorAt
    rw [drop_eq_getElem_cons inside, zero]
    rfl
  have nonzero : ∀ byte ∈ content.take read.length, byte ≠ 0 := by
    intro byte member zero
    obtain ⟨i, below, rfl⟩ := mem_take_iff_getElem.mp member
    have bounds := Nat.lt_min.mp below
    exact holds.first i bounds.1 (one_dvd i) (unit bounds.2 zero)
  have ended : CachedMemory.chars (content.drop read.length) = [] := by
    rcases holds.stop with ⟨-, terminates⟩ | all
    · cases behind : content.drop read.length with
      | nil => rfl
      | cons byte rest =>
        unfold TerminatorAt at terminates
        rw [behind] at terminates
        obtain rfl : byte = 0 := (cons.inj terminates).1
        rfl
    · rw [drop_eq_nil_of_le all.ge]
      rfl
  have whole : CachedMemory.chars content = content.take read.length := by
    conv_lhs => rw [← take_append_drop read.length content]
    rw [chars_append nonzero _, ended, append_nil]
  exact ⟨by rw [whole, length_take_of_le le], holds.bytes.trans whole.symm⟩

/-- A string in memory: readable bytes other than zero, and a zero or an unreadable byte behind them. -/
structure IsString (inferior : Inferior) (address : Nat) (string : List UInt8) : Prop where
  reads : inferior.readMemoryFromInferior address string.length = string
  nonzero : ∀ byte ∈ string, byte ≠ 0
  ends : ∀ byte, inferior ((address + string.length) % 2 ^ 64) = some byte → byte = 0

theorem IsString.chars {inferior : Inferior} (isString : IsString inferior address string)
    (size : Nat) : CachedMemory.chars (inferior.readMemoryFromInferior address size) = string.take size := by
  have length : (inferior.readMemoryFromInferior address string.length).length = string.length :=
    congrArg length isString.reads
  rcases le_total size string.length with inside | beyond
  · have taken := inferior.take_readMemoryFromInferior address size string.length
    rw [min_eq_right inside, isString.reads] at taken
    rw [← taken]
    exact chars_of_nonzero fun byte member => isString.nonzero byte (mem_of_mem_take member)
  · have both := Inferior.readMemoryFromInferior_append length (size - string.length)
    rw [Nat.add_sub_cancel' beyond, isString.reads] at both
    rw [both, chars_append isString.nonzero, take_of_length_le beyond]
    have ended : CachedMemory.chars (inferior.readMemoryFromInferior (address + string.length) (size - string.length)) =
        [] := by
      cases size - string.length with
      | zero => rfl
      | succ more =>
        cases held : inferior ((address + string.length) % 2 ^ 64) with
        | none => simp only [Inferior.readMemoryFromInferior, held, CachedMemory.chars, takeWhile_nil]
        | some byte =>
          obtain rfl := isString.ends byte held
          simp only [Inferior.readMemoryFromInferior, held]
          rfl
    rw [ended, append_nil]

theorem IsString.drop {inferior : Inferior} (isString : IsString inferior address string)
    {count : Nat} (le : count ≤ string.length) :
    IsString inferior ((address + count) % 2 ^ 64) (string.drop count) where
  reads := by
    have taken := inferior.take_readMemoryFromInferior address count string.length
    rw [min_eq_right le, isString.reads] at taken
    have reached : (inferior.readMemoryFromInferior address count).length = count := by
      rw [← taken, length_take_of_le le]
    have both := Inferior.readMemoryFromInferior_append reached (string.length - count)
    rw [Nat.add_sub_cancel' le, isString.reads, ← taken] at both
    have split := append_cancel_left ((take_append_drop count string).trans both)
    rw [length_drop, Inferior.readMemoryFromInferior_congr (Nat.mod_mod _ _)]
    exact split.symm
  nonzero byte member := isString.nonzero byte (mem_of_mem_drop member)
  ends := by
    rw [length_drop, show ((address + count) % 2 ^ 64 + (string.length - count)) % 2 ^ 64 =
      (address + string.length) % 2 ^ 64 by omega]
    exact isString.ends

/-- Each turn but the last appends 255 characters. -/
theorem readCStringToString_eq (memory : CachedMemory) {address : Nat}
    (isString : IsString memory.inferior address string) (enough : string.length / 255 < fuel) (outStr : List UInt8) :
    memory.readCStringToString fuel address outStr = some (outStr ++ string) := by
  induction fuel generalizing address string outStr with
  | zero => exact absurd enough (Nat.not_lt_zero _)
  | succ fuel ih =>
    obtain ⟨read, eq, length, bytes⟩ := memory.readCStringFromMemory_holds address (replicate 256 0)
    rw [length_replicate, isString.chars] at length bytes
    rw [length_take] at length
    unfold readCStringToString
    dsimp only
    rw [eq, length_replicate]
    simp only [bind_eq_bind, bind_some]
    by_cases none : read.length = 0
    · have empty : string = [] := length_eq_zero_iff.mp (by omega)
      simp [if_pos none, empty]
    · rw [if_neg none, bytes]
      by_cases full : read.length = 256 - 1
      · rw [full]
        refine (ih (isString.drop (by omega)) ?_ _).trans ?_
        · rw [length_drop]
          omega
        · simp
      · rw [if_neg full, take_of_length_le (by omega)]
        rfl

theorem strings_read_exactly (memory : CachedMemory) (address : Nat) (dst : List UInt8) :
    (∀ typeWidth ∈ [1, 2, 4], (memory.readStringFromMemory address dst typeWidth).Holds typeWidth
      (memory.inferior.readMemoryFromInferior address (dst.length - typeWidth))) ∧
    (∃ read, memory.readCStringFromMemory address dst = some read ∧
      let string := memory.readStringFromMemory address dst 1
      read.length = string.length ∧ read.dst.take read.length = string.dst.take string.length) ∧
    ∀ string, IsString memory.inferior address string →
      (∀ fuel, string.length / 255 < fuel → memory.readCStringToString fuel address [] = some string) ∧
      (string.length < dst.length → let read := memory.readStringFromMemory address dst 1
        read.length = string.length ∧ read.dst.take read.length = string) := by
  have byte := memory.readStringFromMemory_holds address dst one_pos
  refine ⟨?_, ?_, fun string isString => ⟨?_, ?_⟩⟩
  · have positive : ∀ typeWidth ∈ [1, 2, 4], 0 < typeWidth := by decide
    exact fun typeWidth width => memory.readStringFromMemory_holds address dst (positive typeWidth width)
  · obtain ⟨read, eq, holds⟩ := memory.readCStringFromMemory_holds address dst
    exact ⟨read, eq, holds.length.trans byte.chars.length.symm, holds.bytes.trans byte.chars.bytes.symm⟩
  · intro fuel enough
    exact memory.readCStringToString_eq isString enough []
  · intro fits
    have whole := byte.chars
    have all := isString.chars (dst.length - 1)
    rw [take_of_length_le (by omega)] at all
    exact ⟨whole.length.trans (congrArg length all), whole.bytes.trans all⟩

def threeReadable : CachedMemory := ⟨fun place => if place < 3 then some 7 else none, 2, by decide, fun _ _ => none⟩

theorem strings_read_exactly_three : threeReadable.readCStringToString 1 0 [] = some [7, 7, 7] :=
  ((strings_read_exactly threeReadable 0 []).2.2 [7, 7, 7] ⟨rfl, by simp, nofun⟩).1 1 (by decide)

end CachedMemory

end Lldb
