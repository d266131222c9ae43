import Lldb.Target.InvalidRanges

/-! Reads of lines among invalid ranges, over runs of a memory cache. -/

set_option autoImplicit false

namespace Lldb

open List

namespace MemoryCache

/-- What a read does with a line: it stops at it because it is invalid, copies it from the cache or reads it from the
inferior.
-/
inductive LineAccess where
  | refused (line : Nat)
  | copied (line : Nat)
  | fetched (line : Nat)
  deriving DecidableEq, Repr

namespace LineAccess

def line : LineAccess → Nat
  | refused line | copied line | fetched line => line

def error : LineAccess → Option String
  | refused line => some (invalidReadError line)
  | copied _ | fetched _ => none

end LineAccess

def Cursor.sequentialLines (lineSize : Nat) : List (Nat × DataBuffer) → Cursor → List Nat
  | [], _ => []
  | (key, line) :: rest, cursor =>
      if cursor.bytesLeft = 0 ∨ key ≠ cursor.currAddr then []
      else
        let readSize := min line.length cursor.bytesLeft
        let next : Cursor :=
          { bytesLeft := cursor.bytesLeft - readSize
            currAddr := (cursor.currAddr + readSize) % 2 ^ 64
            cacheOffset := cursor.cacheOffset
            dst := cursor.dst ++ line.copyOut 0 readSize }
        if line.length ≠ lineSize then [key] else key :: sequentialLines lineSize rest next

/-- Where the cached lines leave the cursor, whether they end the read, and which they are. -/
def lineHits (lineSize : Nat) (lines : BlockMap) (cursor : Cursor) : (Cursor × Bool) × List Nat :=
  match lines.find? cursor.currAddr with
  | some line =>
      let taken := cursor.takeLine lineSize line
      (taken.takeSequential lineSize (lines.after cursor.currAddr),
        cursor.currAddr :: taken.sequentialLines lineSize (lines.after cursor.currAddr))
  | none => ((cursor, false), [])

def lineAccesses (inferior : Inferior) (invalid : RangeArray) (lineSize : Nat) :
    Nat → BlockMap → Cursor → List LineAccess
  | 0, _, _ => []
  | fuel + 1, lines, cursor =>
      if cursor.bytesLeft = 0 then []
      else if (invalid.findEntryThatContains cursor.currAddr).isSome then [.refused cursor.currAddr]
      else
        let ((next, ended), hits) := lineHits lineSize lines cursor
        hits.map .copied ++ if ended ∨ next.bytesLeft = 0 then []
          else
            let line := inferior.readMemoryFromInferior next.currAddr lineSize
            .fetched next.currAddr ::
              if line.isEmpty then []
              else lineAccesses inferior invalid lineSize fuel (lines.insert next.currAddr line) next

section Lines

variable (inferior : Inferior) (invalid : RangeArray) (lineSize : Nat)

theorem findSome?_copied (hits : List Nat) (accesses : List LineAccess) :
    (hits.map LineAccess.copied ++ accesses).findSome? LineAccess.error = accesses.findSome? LineAccess.error := by
  induction hits with
  | nil => rfl
  | cons hit hits ih => exact ih

theorem lines_round (fuel : Nat) (lines : BlockMap) {cursor : Cursor} (left : cursor.bytesLeft ≠ 0)
    (valid : ¬ (invalid.findEntryThatContains cursor.currAddr).isSome) {next : Cursor} {ended : Bool} {hits : List Nat}
    (hit : lineHits lineSize lines cursor = ((next, ended), hits)) :
    let line := inferior.readMemoryFromInferior next.currAddr lineSize
    readLines inferior invalid lineSize (fuel + 1) lines cursor =
        (if ended ∨ next.bytesLeft = 0 then (⟨next.dst, none⟩, lines)
        else if line.isEmpty then (⟨next.dst, none⟩, lines)
        else readLines inferior invalid lineSize fuel (lines.insert next.currAddr line) next) ∧
      lineAccesses inferior invalid lineSize (fuel + 1) lines cursor = hits.map .copied ++
          if ended ∨ next.bytesLeft = 0 then []
          else .fetched next.currAddr ::
            if line.isEmpty then []
            else lineAccesses inferior invalid lineSize fuel (lines.insert next.currAddr line) next := by
  constructor
  · unfold lineHits at hit
    rw [readLines, if_neg left, if_neg valid]
    cases found : lines.find? cursor.currAddr with
    | none =>
      rw [found] at hit
      cases hit
      rfl
    | some line =>
      rw [found] at hit
      have same := congrArg Prod.fst hit
      dsimp only at same ⊢
      rw [same]
  · rw [lineAccesses, if_neg left, if_neg valid, hit]

variable (fuel : Nat)

theorem error_readLines (lines : BlockMap) (cursor : Cursor) :
    (readLines inferior invalid lineSize fuel lines cursor).1.error =
      (lineAccesses inferior invalid lineSize fuel lines cursor).findSome? LineAccess.error := by
  induction fuel generalizing lines cursor with
  | zero => rfl
  | succ fuel ih =>
    by_cases done : cursor.bytesLeft = 0
    · simp [readLines, lineAccesses, if_pos done]
    · by_cases bad : (invalid.findEntryThatContains cursor.currAddr).isSome
      · rw [readLines, lineAccesses, if_neg done, if_neg done, if_pos bad, if_pos bad]
        rfl
      · rcases hit : lineHits lineSize lines cursor with ⟨⟨next, ended⟩, hits⟩
        obtain ⟨read, accesses⟩ := lines_round inferior invalid lineSize fuel lines done bad hit
        rw [read, accesses, findSome?_copied]
        split_ifs with stops nothing
        · rfl
        · rfl
        · exact ih _ _

variable {cursor : Cursor}

theorem lineAccesses_refused (lines : BlockMap) (left : cursor.bytesLeft ≠ 0)
    (bad : (invalid.findEntryThatContains cursor.currAddr).isSome) :
    lineAccesses inferior invalid lineSize (fuel + 1) lines cursor = [.refused cursor.currAddr] := by
  rw [lineAccesses, if_neg left, if_pos bad]

variable (entries : List (Nat × DataBuffer))

theorem sequentialLines_done (done : cursor.bytesLeft = 0) :
    cursor.sequentialLines lineSize entries = [] := by
  cases entries with
  | nil => rfl
  | cons entry rest => rw [Cursor.sequentialLines, if_pos (.inl done)]

theorem sequentialLines_hit (cursor : Cursor) (line : DataBuffer)
    (left : cursor.bytesLeft ≠ 0) (small : cursor.bytesLeft ≤ lineSize) :
    cursor.sequentialLines lineSize ((cursor.currAddr, line) :: entries) = [cursor.currAddr] := by
  unfold Cursor.sequentialLines
  rw [if_neg (by simpa using left)]
  dsimp only
  split_ifs with short
  · rfl
  · rw [sequentialLines_done]
    dsimp only
    omega

theorem sequentialLines_miss {lines : BlockMap} {first : Nat} (miss : nextCached lines first cursor.currAddr = none) :
    cursor.sequentialLines lineSize (lines.after first) = [] := by
  unfold nextCached at miss
  split at miss
  case h_1 empty_ => rw [empty_, Cursor.sequentialLines]
  case h_2 key line rest follow =>
    split_ifs at miss with same
    rw [follow, Cursor.sequentialLines, if_pos (.inr same)]

theorem lineAccesses_last {lines : BlockMap} (cursor : Cursor) {line : DataBuffer}
    (found : lines.find? cursor.currAddr = some line) (left : cursor.bytesLeft ≠ 0)
    (fits : cursor.bytesLeft ≤ lineSize - cursor.cacheOffset)
    (valid : ¬ (invalid.findEntryThatContains cursor.currAddr).isSome) :
    lineAccesses inferior invalid lineSize (fuel + 1) lines cursor = [.copied cursor.currAddr] := by
  have done : (cursor.takeLine lineSize line).bytesLeft = 0 := by
    unfold Cursor.takeLine
    dsimp only
    omega
  have hit : lineHits lineSize lines cursor = ((cursor.takeLine lineSize line, false), [cursor.currAddr]) := by
    unfold lineHits
    rw [found]
    dsimp only
    rw [takeSequential_done lineSize _ done, sequentialLines_done lineSize _ done]
  rw [(lines_round inferior invalid lineSize fuel lines left valid hit).2, if_pos (.inr done)]
  rfl

theorem lineAccesses_fetched (lines : BlockMap) (cursor : Cursor) (line : DataBuffer)
    (left : cursor.bytesLeft ≠ 0) (fits : cursor.bytesLeft ≤ lineSize - cursor.cacheOffset) {access : LineAccess}
    (member : access ∈ lineAccesses inferior invalid lineSize (fuel + 1) (lines.insert cursor.currAddr line) cursor) :
    access.line = cursor.currAddr := by
  by_cases bad : (invalid.findEntryThatContains cursor.currAddr).isSome
  · rw [lineAccesses_refused inferior invalid lineSize fuel _ left bad] at member
    rw [mem_singleton.mp member]
    rfl
  · have found := lines.find?_insert_self cursor.currAddr line
    rw [lineAccesses_last inferior invalid lineSize fuel cursor found left fits bad] at member
    rw [mem_singleton.mp member]
    rfl

section Past

variable {lines : BlockMap} {first second offset length rest : Nat} {dst : List (Option UInt8)} {line : DataBuffer}

theorem lineHits_missing (found : lines.find? first = some line)
    (moved : (⟨length, first, offset, []⟩ : Cursor).takeLine lineSize line = ⟨rest, second, 0, dst⟩)
    (miss : nextCached lines first second = none) :
    lineHits lineSize lines ⟨length, first, offset, []⟩ = ((⟨rest, second, 0, dst⟩, false), [first]) := by
  unfold lineHits
  rw [found]
  dsimp only
  rw [moved, takeSequential_miss ⟨rest, second, 0, dst⟩ miss, sequentialLines_miss lineSize miss]

theorem lineHits_cached (found : lines.find? first = some line)
    (moved : (⟨length, first, offset, []⟩ : Cursor).takeLine lineSize line = ⟨rest, second, 0, dst⟩)
    {next : DataBuffer} (follow : nextCached lines first second = some next) (more : rest ≠ 0) (few : rest ≤ lineSize) :
    ∃ after ended, lineHits lineSize lines ⟨length, first, offset, []⟩ = ((after, ended), [first, second]) ∧
      (ended = true ∨ after.bytesLeft = 0) := by
  obtain ⟨others, entries⟩ := after_of_nextCached follow
  have stops := (takeSequential_hit lineSize others ⟨rest, second, 0, dst⟩ next more few).1
  have sequential := sequentialLines_hit lineSize others ⟨rest, second, 0, dst⟩ next more few
  rcases taken : Cursor.takeSequential lineSize ((second, next) :: others) ⟨rest, second, 0, dst⟩ with ⟨after, ended⟩
  rw [taken] at stops
  refine ⟨after, ended, ?_, stops⟩
  unfold lineHits
  rw [found]
  dsimp only
  rw [moved, entries, taken, sequential]

end Past

/-- A read gets to its first line, and to the second where it goes on; it gets to no others. -/
structure Gets (first second : Nat) (past : Prop) (accesses : List LineAccess) : Prop where
  begins : ∃ access ∈ accesses, access.line = first ∧ access ≠ .refused first
  goesOn : past → ∃ access ∈ accesses, access.line = second ∧ access ≠ .refused second
  only : ∀ access ∈ accesses, access.line = first ∨ past ∧ access.line = second

/-- No line that is got to lies in an added range, but those that are refused. -/
theorem Gets.avoids_iff {first second : Nat} {past : Prop} {accesses : List LineAccess}
    (gets : Gets first second past accesses) (added : List Range) {fails : LineAccess → Prop} :
    (∀ access ∈ accesses, ∀ range ∈ added, range.Holds access.line → access = .refused access.line ∧ fails access) ↔
        (∀ range ∈ added, ¬ range.Holds first) ∧ (past → ∀ range ∈ added, ¬ range.Holds second) := by
  constructor
  · intro meets
    constructor
    · intro range listed holds
      obtain ⟨access, member, same, notRefused⟩ := gets.begins
      rw [← same] at holds notRefused
      exact notRefused (meets access member range listed holds).1
    · intro past range listed holds
      obtain ⟨access, member, same, notRefused⟩ := gets.goesOn past
      rw [← same] at holds notRefused
      exact notRefused (meets access member range listed holds).1
  · intro ⟨first, second⟩ access member range listed holds
    rcases gets.only access member with same | ⟨past, same⟩
    · exact absurd (same ▸ holds) (first range listed)
    · exact absurd (same ▸ holds) (second past range listed)

theorem gets_cached {lines : BlockMap} {first offset length : Nat} {line : DataBuffer}
    (found : lines.find? first = some line) (valid : ¬ (invalid.findEntryThatContains first).isSome)
    (inside : offset < lineSize) (positive : 0 < length) (small : length ≤ lineSize)
    (enough : lineSize < offset + length → 2 ≤ fuel) (started : 1 ≤ fuel) :
    Gets first ((first + lineSize) % 2 ^ 64) (lineSize < offset + length)
      (lineAccesses inferior invalid lineSize fuel lines ⟨length, first, offset, []⟩) := by
  have left : length ≠ 0 := ne_of_gt positive
  by_cases fits : length ≤ lineSize - offset
  · obtain ⟨fuel, rfl⟩ := Nat.exists_eq_add_of_le' started
    have last := lineAccesses_last inferior invalid lineSize fuel ⟨length, first, offset, []⟩ found left fits valid
    rw [last]
    refine ⟨⟨_, mem_cons_self, rfl, nofun⟩, fun past => by omega, fun access member => ?_⟩
    rw [mem_singleton.mp member]
    exact .inl rfl
  · have past : lineSize < offset + length := by omega
    obtain ⟨fuel, rfl⟩ := Nat.exists_eq_add_of_le' (enough past)
    have moved := takeLine_past ⟨length, first, offset, []⟩ inside (Nat.lt_of_not_le fits) line
    generalize (first + lineSize) % 2 ^ 64 = second at moved ⊢
    have more : length - (lineSize - offset) ≠ 0 := by omega
    have few : length - (lineSize - offset) ≤ lineSize := by omega
    generalize length - (lineSize - offset) = rest at moved more few
    have round := @lines_round inferior invalid lineSize (fuel + 1) lines ⟨length, first, offset, []⟩ left valid
    cases follow : nextCached lines first second with
    | some next =>
      obtain ⟨after, ended, hit, stops⟩ := lineHits_cached lineSize found moved follow more few
      rw [(round hit).2, if_pos stops]
      refine ⟨⟨.copied first, by simp, rfl, nofun⟩, fun _ => ⟨.copied second, by simp, rfl, nofun⟩, ?_⟩
      intro access member
      rcases mem_pair.mp (List.append_nil _ ▸ member) with rfl | rfl
      · exact .inl rfl
      · exact .inr ⟨past, rfl⟩
    | none =>
      rw [(round (lineHits_missing lineSize found moved follow)).2, if_neg (by simpa using more)]
      refine ⟨⟨.copied first, by simp, rfl, nofun⟩, fun _ => ⟨.fetched second, by simp, rfl, nofun⟩, ?_⟩
      intro access member
      rcases mem_cons.mp member with rfl | behind
      · exact .inl rfl
      · refine .inr ⟨past, ?_⟩
        rcases mem_cons.mp behind with rfl | again
        · rfl
        · split_ifs at again with nothing
          · cases again
          · exact lineAccesses_fetched inferior invalid lineSize fuel lines ⟨rest, second, 0, _⟩ _ more few again

theorem gets_lines (lines : BlockMap) {first offset length : Nat}
    (valid : ¬ (invalid.findEntryThatContains first).isSome)
    (inside : offset < lineSize) (positive : 0 < length) (small : length ≤ lineSize) :
    Gets first ((first + lineSize) % 2 ^ 64)
      (lineSize < offset + length ∧ ((lines.find? first).isSome ∨ inferior.readMemoryFromInferior first lineSize ≠ []))
      (lineAccesses inferior invalid lineSize (length + 2) lines ⟨length, first, offset, []⟩) := by
  have left : length ≠ 0 := ne_of_gt positive
  cases found : lines.find? first with
  | some line =>
    have gets := gets_cached inferior invalid lineSize (length + 2) found valid inside positive small
      (fun _ => by omega) (by omega)
    simpa using gets
  | none =>
    have hit : lineHits lineSize lines ⟨length, first, offset, []⟩ = ((⟨length, first, offset, []⟩, false), []) := by
      unfold lineHits
      dsimp only
      rw [found]
    rw [(lines_round inferior invalid lineSize (length + 1) lines left valid hit).2, if_neg (by simpa using left)]
    by_cases nothing : inferior.readMemoryFromInferior first lineSize = []
    · dsimp only
      rw [nothing]
      refine ⟨⟨.fetched first, by simp, rfl, nofun⟩, fun past => absurd past.2 (by simp), fun access member => ?_⟩
      rw [mem_singleton.mp member]
      exact .inl rfl
    · -- The line is looked up again after it was fetched.
      have gets := gets_cached inferior invalid lineSize (length + 1)
        (lines.find?_insert_self first (inferior.readMemoryFromInferior first lineSize)) valid inside positive small
        (fun _ => by omega) (by omega)
      rw [if_neg (by simpa using nothing)]
      refine ⟨⟨.fetched first, by simp, rfl, nofun⟩, fun past => ?_, fun access member => ?_⟩
      · obtain ⟨access, member, other⟩ := gets.goesOn past.1
        exact ⟨access, .tail _ member, other⟩
      · rcases mem_cons.mp member with rfl | later
        · exact .inl rfl
        · exact (gets.only access later).imp_right fun past => ⟨⟨past.1, .inr nothing⟩, past.2⟩

end Lines

/-- What a read does with lines: nothing where a chunk holds the request, or where that is larger than a line. -/
def accesses (cache : MemoryCache) (inferior : Inferior) (address dstLen : Nat) : List LineAccess :=
  match cache.l1Lookup address dstLen with
  | some _ => []
  | none =>
      let lineSize := cache.l2CacheLineByteSize
      if dstLen > lineSize then []
      else
        lineAccesses inferior cache.invalidRanges lineSize (dstLen + 2) cache.l2Cache
          ⟨dstLen, address - address % lineSize, address % lineSize, []⟩

theorem error_read (cache : MemoryCache) (inferior : Inferior) (address dstLen : Nat) :
    (cache.read inferior address dstLen).1.error =
      (cache.accesses inferior address dstLen).findSome? LineAccess.error := by
  unfold read accesses
  cases cache.l1Lookup address dstLen with
  | some entry => rfl
  | none =>
    by_cases large : dstLen > cache.l2CacheLineByteSize
    · simp [if_pos large]
    · rw [if_neg large, if_neg large]
      exact error_readLines inferior cache.invalidRanges _ _ _ _

theorem invalidRanges_read (cache : MemoryCache) (inferior : Inferior) (address dstLen : Nat) :
    (cache.read inferior address dstLen).2.invalidRanges = cache.invalidRanges := by
  unfold read
  cases cache.l1Lookup address dstLen with
  | some entry => rfl
  | none =>
    dsimp only
    split_ifs <;> rfl

/-! Runs. -/

/-- A call of a memory cache, a read with the memory of the inferior at that time. -/
inductive Call where
  | addInvalidRange (baseAddr byteSize : UInt64)
  | removeInvalidRange (baseAddr byteSize : UInt64)
  | read (inferior : Inferior) (addr dstLen : UInt64)
  | addL1CacheData (addr : UInt64) (data : DataBuffer)
  | flush (addr size : UInt64)
  | clear (clearInvalidRanges : Bool) (cacheLineSize : UInt32)

def call (cache : MemoryCache) : Call → MemoryCache
  | .addInvalidRange baseAddr byteSize => cache.addInvalidRange baseAddr.toNat byteSize.toNat
  | .removeInvalidRange baseAddr byteSize => (cache.removeInvalidRange baseAddr.toNat byteSize.toNat).2
  | .read inferior addr dstLen => (cache.read inferior addr.toNat dstLen.toNat).2
  | .addL1CacheData addr data => cache.addL1CacheData addr.toNat data
  | .flush addr size => cache.flush addr.toNat size.toNat
  | .clear clearInvalidRanges cacheLineSize => cache.clear clearInvalidRanges cacheLineSize.toNat

def Call.onAdded (added : List Range) : Call → List Range
  | .addInvalidRange baseAddr byteSize =>
      if byteSize.toNat > 0 then ⟨baseAddr.toNat, byteSize.toNat⟩ :: added else added
  | .removeInvalidRange baseAddr byteSize => added.erase ⟨baseAddr.toNat, byteSize.toNat⟩
  | .clear clearInvalidRanges _ => if clearInvalidRanges then [] else added
  | .read _ _ _ | .addL1CacheData _ _ | .flush _ _ => added

/-- A line in an added range is refused, and the read fails; a range is removed, and only once, just if it is there. -/
def Meets (cache : MemoryCache) (added : List Range) : Call → Prop
  | .read inferior addr dstLen =>
      ∀ access ∈ cache.accesses inferior addr.toNat dstLen.toNat, ∀ range ∈ added, range.Holds access.line →
        access = .refused access.line ∧
          (cache.read inferior addr.toNat dstLen.toNat).1.error = some (invalidReadError access.line)
  | .removeInvalidRange baseAddr byteSize =>
      let (removed, after) := cache.removeInvalidRange baseAddr.toNat byteSize.toNat
      (removed ↔ ⟨baseAddr.toNat, byteSize.toNat⟩ ∈ added) ∧
        after.invalidRanges.entries.Perm (added.erase ⟨baseAddr.toNat, byteSize.toNat⟩)
  | .addInvalidRange _ _ | .addL1CacheData _ _ | .flush _ _ | .clear _ _ => True

/-- Where the first line of a read is not found in an added range it lies in none, and neither does the second one, if
the read goes on to it. What is removed while it is there is found.
-/
def Suits (cache : MemoryCache) (added : List Range) : Call → Prop
  | .read inferior addr dstLen =>
      let lineSize := cache.l2CacheLineByteSize
      let first := addr.toNat - addr.toNat % lineSize
      cache.l1Lookup addr.toNat dstLen.toNat = none → 0 < dstLen.toNat → dstLen.toNat ≤ lineSize →
        ¬ Visible added first → (∀ range ∈ added, ¬ range.Holds first) ∧
            (lineSize < addr.toNat % lineSize + dstLen.toNat ∧
                ((cache.l2Cache.find? first).isSome ∨ inferior.readMemoryFromInferior first lineSize ≠ []) →
              ∀ range ∈ added, ¬ range.Holds ((first + lineSize) % 2 ^ 64))
  | .removeInvalidRange baseAddr byteSize =>
      ⟨baseAddr.toNat, byteSize.toNat⟩ ∈ added → Removable added ⟨baseAddr.toNat, byteSize.toNat⟩
  | .addInvalidRange _ _ | .addL1CacheData _ _ | .flush _ _ | .clear _ _ => True

structure Follows (cache : MemoryCache) (added : List Range) : Prop where
  ordered : RangeArray.Ordered cache.invalidRanges.entries
  perm : cache.invalidRanges.entries.Perm added

variable {baseAddr byteSize : Nat}

theorem removeInvalidRange_of_removable {cache : MemoryCache} (ordered : RangeArray.Ordered cache.invalidRanges.entries)
    (member : ⟨baseAddr, byteSize⟩ ∈ cache.invalidRanges.entries)
    (removable : Removable cache.invalidRanges.entries ⟨baseAddr, byteSize⟩) :
    ∃ idx, cache.invalidRanges.entries[idx]? = some ⟨baseAddr, byteSize⟩ ∧ cache.removeInvalidRange baseAddr byteSize =
        (true, { cache with invalidRanges := ⟨cache.invalidRanges.entries.eraseIdx idx⟩ }) := by
  have sized := (ordered.sized _ member).1
  obtain ⟨some_, listed⟩ := (RangeArray.indexed_iff_removable ordered _ sized).mpr ⟨member, removable⟩
  refine ⟨_, listed, ?_⟩
  unfold removeInvalidRange
  rw [if_pos sized, if_pos some_, listed]
  dsimp only
  rw [if_pos ⟨rfl, rfl⟩, RangeArray.removeEntrtAtIndex, if_pos (List.getElem?_eq_some_iff.mp listed).1]

theorem removeInvalidRange_of_not {cache : MemoryCache} (ordered : RangeArray.Ordered cache.invalidRanges.entries)
    (not_ : ¬ (⟨baseAddr, byteSize⟩ ∈ cache.invalidRanges.entries ∧
      Removable cache.invalidRanges.entries ⟨baseAddr, byteSize⟩)) :
    cache.removeInvalidRange baseAddr byteSize = (false, cache) := by
  unfold removeInvalidRange
  by_cases sized : byteSize > 0
  · have indexed := mt (RangeArray.indexed_iff_removable ordered ⟨baseAddr, byteSize⟩ sized).mp not_
    rw [if_pos sized]
    generalize cache.invalidRanges.findEntryIndexThatContains baseAddr = idx at indexed ⊢
    by_cases none_ : idx = RangeArray.indexNotFound
    · rw [if_neg fun some_ => some_ none_]
    · rw [if_pos none_]
      cases listed : cache.invalidRanges.entries[idx]? with
      | none => rfl
      | some entry =>
        have other : ¬ (entry.base = baseAddr ∧ entry.size = byteSize) := by
          rintro ⟨rfl, rfl⟩
          exact indexed ⟨none_, listed⟩
        exact if_neg other
  · exact if_neg sized

variable {cache : MemoryCache} {added : List Range}

theorem Follows.addInvalidRange (follows : cache.Follows added) (sized : byteSize < 2 ^ 64) :
    (cache.addInvalidRange baseAddr byteSize).Follows
      (if byteSize > 0 then ⟨baseAddr, byteSize⟩ :: added else added) := by
  unfold MemoryCache.addInvalidRange
  split_ifs with some_
  · have perm : (sortRanges (cache.invalidRanges.entries ++ [⟨baseAddr, byteSize⟩])).Perm
        (⟨baseAddr, byteSize⟩ :: cache.invalidRanges.entries) :=
      (sortRanges_perm _).trans (perm_append_singleton _ _)
    refine ⟨⟨sortRanges_sorted _, fun entry member => ?_⟩, perm.trans (follows.perm.cons _)⟩
    rcases mem_cons.mp (perm.mem_iff.mp member) with rfl | old
    · exact ⟨some_, sized⟩
    · exact follows.ordered.sized entry old
  · exact follows

theorem Follows.removeInvalidRange_iff (follows : cache.Follows added) (baseAddr byteSize : Nat) :
    (((cache.removeInvalidRange baseAddr byteSize).1 ↔ ⟨baseAddr, byteSize⟩ ∈ added) ∧
        (cache.removeInvalidRange baseAddr byteSize).2.invalidRanges.entries.Perm
          (added.erase ⟨baseAddr, byteSize⟩)) ↔
      (⟨baseAddr, byteSize⟩ ∈ added → Removable added ⟨baseAddr, byteSize⟩) := by
  by_cases both : ⟨baseAddr, byteSize⟩ ∈ cache.invalidRanges.entries ∧
      Removable cache.invalidRanges.entries ⟨baseAddr, byteSize⟩
  · obtain ⟨idx, listed, removed⟩ := removeInvalidRange_of_removable follows.ordered both.1 both.2
    rw [follows.perm.mem_iff, Removable.perm follows.perm] at both
    rw [removed]
    refine iff_of_true ⟨iff_of_true rfl both.1, ?_⟩ fun _ => both.2
    obtain ⟨inside, here⟩ := List.getElem?_eq_some_iff.mp listed
    have front := getElem_cons_eraseIdx_perm inside
    rw [here] at front
    exact (cons_perm_iff_perm_erase.mp (front.trans follows.perm)).2
  · rw [removeInvalidRange_of_not follows.ordered both]
    rw [follows.perm.mem_iff, Removable.perm follows.perm] at both
    constructor
    · intro meets member
      exact absurd (meets.1.mpr member) nofun
    · intro suits
      have absent : ⟨baseAddr, byteSize⟩ ∉ added := fun member => both ⟨member, suits member⟩
      rw [erase_of_not_mem absent]
      exact ⟨iff_of_false nofun absent, follows.perm⟩

theorem accesses_lines {address dstLen : Nat} (inferior : Inferior) (miss : cache.l1Lookup address dstLen = none)
    (small : dstLen ≤ cache.l2CacheLineByteSize) :
    cache.accesses inferior address dstLen =
      lineAccesses inferior cache.invalidRanges cache.l2CacheLineByteSize (dstLen + 2) cache.l2Cache
        ⟨dstLen, address - address % cache.l2CacheLineByteSize, address % cache.l2CacheLineByteSize, []⟩ := by
  unfold accesses
  rw [miss]
  exact if_neg (not_lt.mpr small)

variable (follows : cache.Follows added)
include follows

theorem Follows.read_iff (inferior : Inferior) (addr dstLen : UInt64) :
    cache.Meets added (.read inferior addr dstLen) ↔ cache.Suits added (.read inferior addr dstLen) := by
  unfold Meets Suits
  dsimp only
  generalize addr.toNat = address
  generalize dstLen.toNat = length
  cases lookup : cache.l1Lookup address length with
  | some entry =>
    have nothing : cache.accesses inferior address length = [] := by
      unfold accesses
      rw [lookup]
    rw [nothing]
    exact iff_of_true nofun nofun
  | none =>
    by_cases small : length ≤ cache.l2CacheLineByteSize
    · by_cases positive : 0 < length
      · have error := error_read cache inferior address length
        rw [error, accesses_lines inferior lookup small]
        have inside := Nat.mod_lt address (Nat.lt_of_lt_of_le positive small)
        generalize address % cache.l2CacheLineByteSize = offset at inside ⊢
        have found := RangeArray.found_iff_visible follows.ordered (address - offset)
        rw [Visible.perm follows.perm] at found
        rw [← found]
        by_cases bad : (cache.invalidRanges.findEntryThatContains (address - offset)).isSome
        · rw [lineAccesses_refused inferior _ _ _ _ (ne_of_gt positive) bad]
          refine iff_of_true (fun access member range _ _ => ?_) fun _ _ _ valid => absurd bad valid
          rw [mem_singleton.mp member]
          exact ⟨rfl, rfl⟩
        · have gets := gets_lines inferior cache.invalidRanges cache.l2CacheLineByteSize cache.l2Cache bad inside
            positive small
          rw [gets.avoids_iff added]
          exact ⟨fun avoids _ _ _ _ => avoids, fun suits => suits rfl positive small bad⟩
      · obtain rfl : length = 0 := Nat.eq_zero_of_not_pos positive
        rw [accesses_lines inferior lookup small]
        exact iff_of_true nofun fun _ some_ => absurd some_ (Nat.lt_irrefl 0)
    · have nothing : cache.accesses inferior address length = [] := by
        unfold accesses
        rw [lookup]
        exact if_pos (Nat.lt_of_not_le small)
      rw [nothing]
      exact iff_of_true nofun fun _ _ few => absurd few small

theorem Follows.meets_iff (call : Call) : cache.Meets added call ↔ cache.Suits added call := by
  cases call with
  | addInvalidRange baseAddr byteSize => rfl
  | removeInvalidRange baseAddr byteSize => exact follows.removeInvalidRange_iff baseAddr.toNat byteSize.toNat
  | read inferior addr dstLen => exact follows.read_iff inferior addr dstLen
  | addL1CacheData addr data => rfl
  | flush addr size => rfl
  | clear clearInvalidRanges cacheLineSize => rfl

theorem Follows.call {call : Call} (meets : cache.Meets added call) :
    (cache.call call).Follows (call.onAdded added) := by
  cases call with
  | addInvalidRange baseAddr byteSize => exact follows.addInvalidRange byteSize.toNat_lt
  | removeInvalidRange baseAddr byteSize =>
    refine ⟨?_, meets.2⟩
    change RangeArray.Ordered (cache.removeInvalidRange baseAddr.toNat byteSize.toNat).2.invalidRanges.entries
    by_cases both : ⟨baseAddr.toNat, byteSize.toNat⟩ ∈ cache.invalidRanges.entries ∧
        Removable cache.invalidRanges.entries ⟨baseAddr.toNat, byteSize.toNat⟩
    · obtain ⟨idx, -, removed⟩ := removeInvalidRange_of_removable follows.ordered both.1 both.2
      rw [removed]
      exact follows.ordered.eraseIdx idx
    · rw [removeInvalidRange_of_not follows.ordered both]
      exact follows.ordered
  | read inferior addr dstLen =>
    have same := invalidRanges_read cache inferior addr.toNat dstLen.toNat
    exact ⟨same ▸ follows.ordered, same ▸ follows.perm⟩
  | addL1CacheData addr data => exact ⟨follows.ordered, follows.perm⟩
  | flush addr size =>
    have same : (cache.flush addr.toNat size.toNat).invalidRanges = cache.invalidRanges := by
      unfold MemoryCache.flush
      split_ifs <;> rfl
    exact ⟨same ▸ follows.ordered, same ▸ follows.perm⟩
  | clear clearInvalidRanges cacheLineSize =>
    cases clearInvalidRanges with
    | false => exact ⟨follows.ordered, follows.perm⟩
    | true => exact ⟨⟨.nil, nofun⟩, .nil⟩

/-- A property of every call of a run, with the cache and the added ranges before it. -/
def Throughout (holds : MemoryCache → List Range → Call → Prop) : MemoryCache → List Range → List Call → Prop
  | _, _, [] => True
  | cache, added, call :: rest =>
      holds cache added call ∧ Throughout holds (cache.call call) (call.onAdded added) rest

theorem Follows.throughout_iff (calls : List Call) :
    Throughout Meets cache added calls ↔ Throughout Suits cache added calls := by
  induction calls generalizing cache added with
  | nil => rfl
  | cons call rest ih =>
    unfold Throughout
    rw [follows.meets_iff call]
    exact and_congr_right fun suits => ih (follows.call ((follows.meets_iff call).mpr suits))

omit follows

theorem follows_new (lineSize : Nat) : (new lineSize ⟨[]⟩).Follows [] := ⟨⟨.nil, nofun⟩, .nil⟩

/-- Invalid ranges are respected throughout a run of a fresh cache just if every read of lines and every removal in it
suits the ranges that are added at that time.
-/
theorem invalidRanges_respected_iff (lineSize : UInt32) (calls : List Call) :
    Throughout Meets (new lineSize.toNat ⟨[]⟩) [] calls ↔ Throughout Suits (new lineSize.toNat ⟨[]⟩) [] calls :=
  (follows_new lineSize.toNat).throughout_iff calls

/-- A range that lies within another one hides the rest of that. -/
theorem invalidRanges_not_respected : ¬ ∀ (lineSize : UInt32) (calls : List Call),
    Throughout Meets (new lineSize.toNat ⟨[]⟩) [] calls := by
  intro claim
  have run := claim 16 [.addInvalidRange 0 1000, .addInvalidRange 16 16, .read (fun _ => some 0) 512 1]
  rw [(follows_new _).throughout_iff] at run
  obtain ⟨-, -, read, -⟩ := run
  have hidden : ¬ Visible [⟨16, 16⟩, ⟨0, 1000⟩] 512 := by
    rintro ⟨range, member, holds, -, visible⟩
    simp only [mem_cons, not_mem_nil, or_false] at member
    rcases member with rfl | rfl
    · exact absurd holds.2 (by decide)
    · have furthest := visible.resolve_left (by decide)
      exact absurd (furthest ⟨16, 16⟩ mem_cons_self (by decide)) (by decide)
  have holds := (read rfl (by decide) (by decide) hidden).1 ⟨0, 1000⟩ (.tail _ mem_cons_self)
  exact holds ⟨by decide, by decide⟩

end MemoryCache

end Lldb
