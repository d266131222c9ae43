import Lldb.Target.MemoryCacheRead

/-! Coherence of the memory cache with the inferior: over an inferior that does not
change, and over runs that write to it and flush what they wrote. -/

set_option autoImplicit false

namespace Lldb

open Library.OrderedMap

namespace MemoryCache

variable {inferior : Inferior}

def ReadInBounds (cache : MemoryCache) (inferior : Inferior) (address dstLen : Nat) : Prop :=
  match cache.l1Lookup address dstLen with
  | some (base, chunk) => address - base + dstLen ≤ chunk.length
  | none =>
      let lineSize := cache.l2CacheLineByteSize
      dstLen ≤ lineSize → SpanInBounds inferior cache.invalidRanges lineSize cache.l2Cache
        (address - address % lineSize) (address % lineSize) dstLen

instance (cache : MemoryCache) (inferior : Inferior) (address dstLen : Nat) :
    Decidable (cache.ReadInBounds inferior address dstLen) :=
  match hit : cache.l1Lookup address dstLen with
  | some (base, chunk) =>
      decidable_of_iff (address - base + dstLen ≤ chunk.length) (by simp [ReadInBounds, hit])
  | none =>
      let lineSize := cache.l2CacheLineByteSize
      decidable_of_iff (dstLen ≤ lineSize → SpanInBounds inferior cache.invalidRanges lineSize
        cache.l2Cache (address - address % lineSize) (address % lineSize) dstLen)
        (by simp [ReadInBounds, hit, lineSize])

variable {cache : MemoryCache} {address dstLen : Nat}

theorem l1Lookup_mem {entry : Nat × DataBuffer} (hit : cache.l1Lookup address dstLen = some entry) :
    entry ∈ cache.l1Cache.entries ∧ entry.1 ≤ address ∧ address < (entry.1 + entry.2.length) % 2 ^ 64 := by
  obtain ⟨found, inside⟩ := Option.filter_eq_some_iff.mp hit
  refine ⟨List.mem_of_getElem? found, ?_⟩
  simp only [Range.containsRange, Range.contains, Bool.and_eq_true] at inside
  exact ⟨of_decide_eq_true inside.1.1, of_decide_eq_true inside.1.2⟩

theorem serves_hit {base : Nat} {chunk : DataBuffer} (held : inferior.Reproduces base chunk) (below : base ≤ address)
    (inside : address - base ≤ chunk.length) :
    inferior.Serves address (chunk.copyOut (address - base) dstLen) ↔ address - base + dstLen ≤ chunk.length := by
  have served := DataBuffer.serves_copyOut held (address - base) dstLen
  rw [show base + (address - base) = address by omega] at served
  rw [served]
  omega

theorem serves_direct (address dstLen : Nat) :
    inferior.Serves address ((inferior.readMemoryFromInferior address dstLen).map some) := by
  intro index byte read
  rw [List.getElem?_map, Option.map_eq_some_iff] at read
  obtain ⟨value, read, rfl⟩ := read
  exact ⟨rfl, inferior.reproduces_readMemoryFromInferior address dstLen index value read⟩

theorem read_hit {entry : Nat × DataBuffer} (hit : cache.l1Lookup address dstLen = some entry) :
    cache.read inferior address dstLen = (⟨entry.2.copyOut (address - entry.1) dstLen, none⟩, cache) := by
  simp [read, hit]

theorem read_direct (miss : cache.l1Lookup address dstLen = none) (large : cache.l2CacheLineByteSize < dstLen) :
    let data := inferior.readMemoryFromInferior address dstLen
    cache.read inferior address dstLen =
      (⟨data.map some, none⟩, if data.isEmpty then cache else cache.addL1CacheData address data) := by
  simp [read, miss, if_pos large]

theorem read_span (inferior : Inferior) (present : ∀ entry ∈ cache.l2Cache.entries, entry.2 ≠ [])
    (miss : cache.l1Lookup address dstLen = none) (small : dstLen ≤ cache.l2CacheLineByteSize)
    (positive : 0 < dstLen) :
    let lineSize := cache.l2CacheLineByteSize
    let first := address - address % lineSize
    let result := cache.read inferior address dstLen
    result.1.dst = spanBytes inferior cache.invalidRanges lineSize cache.l2Cache first
        (address % lineSize) dstLen ∧
      ∃ lines : BlockMap, result.2 = { cache with l2Cache := lines } ∧ ∀ entry ∈ lines.entries,
        entry ∈ cache.l2Cache.entries ∨ Fetched inferior lineSize first (address % lineSize) dstLen entry := by
  intro lineSize first result
  have inside : address % lineSize < lineSize := Nat.mod_lt _ (Nat.lt_of_lt_of_le positive small)
  obtain ⟨copied, added⟩ := readLines_span inferior cache.invalidRanges lineSize first
    present inside positive small
  have unfolded : result = cache.read inferior address dstLen := rfl
  simp only [read, miss, if_neg (not_lt.mpr small)] at unfolded
  rw [unfolded]
  exact ⟨copied, _, rfl, added⟩

theorem read_nothing (miss : cache.l1Lookup address 0 = none) : cache.read inferior address 0 = (⟨[], none⟩, cache) := by
  simp [read, miss, readLines]

theorem read_cases (inferior : Inferior) (address dstLen : Nat)
    (present : ∀ entry ∈ cache.l2Cache.entries, entry.2 ≠ []) :
    let lineSize := cache.l2CacheLineByteSize
    let after := (cache.read inferior address dstLen).2
    after = cache ∨ after = cache.addL1CacheData address (inferior.readMemoryFromInferior address dstLen) ∨
      dstLen ≤ lineSize ∧ 0 < dstLen ∧ ∃ lines : BlockMap, after = { cache with l2Cache := lines } ∧
        ∀ entry ∈ lines.entries, entry ∈ cache.l2Cache.entries ∨
          Fetched inferior lineSize (address - address % lineSize) (address % lineSize) dstLen entry := by
  intro lineSize after
  have unfolded : after = (cache.read inferior address dstLen).2 := rfl
  cases lookup : cache.l1Lookup address dstLen with
  | some entry =>
    rw [read_hit lookup] at unfolded
    exact .inl unfolded
  | none =>
    by_cases large : lineSize < dstLen
    · rw [read_direct lookup large] at unfolded
      split at unfolded
      · exact .inl unfolded
      · exact .inr (.inl unfolded)
    by_cases nothing : dstLen = 0
    · subst nothing
      rw [read_nothing lookup] at unfolded
      exact .inl unfolded
    have small : dstLen ≤ lineSize := not_lt.mp large
    have positive := Nat.pos_of_ne_zero nothing
    exact .inr (.inr ⟨small, positive, (read_span inferior present lookup small positive).2⟩)

/-- A read serves the request exactly when it stays inside the buffers it copies from,
provided these hold bytes of the inferior. -/
theorem read_serves_iff {trusted : Nat → Nat} (chunks : ∀ entry, cache.l1Lookup address dstLen = some entry →
      inferior.Reproduces entry.1 entry.2)
    (lines : Trusted inferior cache.l2CacheLineByteSize trusted cache.l2Cache)
    (bytes : dstLen ≤ cache.l2CacheLineByteSize → 0 < dstLen → let lineSize := cache.l2CacheLineByteSize
      let first := address - address % lineSize
      let taken := min (lineSize - address % lineSize) dstLen
      address % lineSize + taken ≤ trusted first ∧
        (dstLen ≠ taken → dstLen - taken ≤ trusted ((first + lineSize) % 2 ^ 64))) :
    inferior.Serves address (cache.read inferior address dstLen).1.dst ↔
      cache.ReadInBounds inferior address dstLen := by
  unfold ReadInBounds
  -- The three ways of `Read`: an L1 hit, a read past the cache, and the line loop.
  cases lookup : cache.l1Lookup address dstLen with
  | some entry =>
    obtain ⟨_, below, inside⟩ := l1Lookup_mem lookup
    rw [read_hit lookup]
    exact serves_hit (chunks entry lookup) below (by omega)
  | none =>
    by_cases large : cache.l2CacheLineByteSize < dstLen
    · rw [read_direct lookup large]
      exact ⟨fun _ small => absurd large (not_lt.mpr small), fun _ => serves_direct address dstLen⟩
    have small : dstLen ≤ cache.l2CacheLineByteSize := not_lt.mp large
    simp only [small, true_imp_iff]
    by_cases nothing : dstLen = 0
    · subst nothing
      rw [read_nothing lookup]
      exact ⟨fun _ => .inl rfl, fun _ => inferior.serves_nil address⟩
    have positive := Nat.pos_of_ne_zero nothing
    obtain ⟨firstTrusted, secondTrusted⟩ := bytes small positive
    have inside : address % cache.l2CacheLineByteSize < cache.l2CacheLineByteSize :=
      Nat.mod_lt _ (Nat.lt_of_lt_of_le positive small)
    have served := serves_spanBytes cache.invalidRanges lines inside positive
      firstTrusted secondTrusted
    rw [Nat.sub_add_cancel (Nat.mod_le _ _)] at served
    rw [(read_span inferior (fun entry member => (lines entry member).1) lookup small positive).1]
    exact served

section Unchanging

inductive ReachedByReads (inferior : Inferior) (lineSize : Nat) (invalid : RangeArray) :
    MemoryCache → Prop where
  | new : ReachedByReads inferior lineSize invalid (.new lineSize invalid)
  | read {cache : MemoryCache} (address dstLen : Nat) :
      ReachedByReads inferior lineSize invalid cache →
      ReachedByReads inferior lineSize invalid (cache.read inferior address dstLen).2

/-- Every buffer holds what the inferior holds, and every line all that is readable of it. -/
structure Faithful (inferior : Inferior) (cache : MemoryCache) : Prop where
  chunks : ∀ entry ∈ cache.l1Cache.entries, inferior.Reproduces entry.1 entry.2
  lines : ∀ entry ∈ cache.l2Cache.entries, entry.2 ≠ [] ∧
    entry.2 = inferior.readMemoryFromInferior entry.1 cache.l2CacheLineByteSize

theorem Faithful.trusted {cache : MemoryCache} (faithful : cache.Faithful inferior) :
    Trusted inferior cache.l2CacheLineByteSize (fun _ => cache.l2CacheLineByteSize) cache.l2Cache := by
  intro entry member
  obtain ⟨present, same⟩ := faithful.lines entry member
  exact ⟨present, fun index _ => congrArg (·[index]?) same⟩

theorem Faithful.read {cache : MemoryCache} (faithful : cache.Faithful inferior)
    (address dstLen : Nat) : (cache.read inferior address dstLen).2.Faithful inferior := by
  rcases read_cases inferior address dstLen fun entry member => (faithful.lines entry member).1 with
    same | same | ⟨-, -, lines, same, added⟩
  · rw [same]
    exact faithful
  · rw [same]
    refine ⟨fun entry member => ?_, faithful.lines⟩
    rcases (cache.l1Cache.mem_insert address _ entry).mp member with fresh | ⟨old, _⟩
    · subst fresh
      exact inferior.reproduces_readMemoryFromInferior address dstLen
    · exact faithful.chunks entry old
  · rw [same]
    refine ⟨faithful.chunks, fun entry member => ?_⟩
    rcases added entry member with old | fetched
    · exact faithful.lines entry old
    · exact ⟨fetched.2.1, fetched.1⟩

theorem ReachedByReads.faithful {lineSize : Nat} {invalid : RangeArray} {cache : MemoryCache}
    (reached : ReachedByReads inferior lineSize invalid cache) : cache.Faithful inferior := by
  induction reached with
  | new => exact ⟨by simp [MemoryCache.new, empty],
      by simp [MemoryCache.new, empty]⟩
  | read address dstLen _ ih => exact ih.read address dstLen

/-- Over an inferior that does not change, a cached read agrees with a direct one exactly
when it stays inside the buffers it copies from. -/
theorem cached_read_agrees_iff {lineSize : Nat} {invalid : RangeArray} {cache : MemoryCache}
    (reached : ReachedByReads inferior lineSize invalid cache) (address dstLen : Nat) :
    inferior.Serves address (cache.read inferior address dstLen).1.dst ↔
      cache.ReadInBounds inferior address dstLen := by
  have faithful := reached.faithful
  refine read_serves_iff (fun entry hit => faithful.chunks entry (l1Lookup_mem hit).1)
    faithful.trusted fun small positive => ?_
  have inside : address % cache.l2CacheLineByteSize < cache.l2CacheLineByteSize :=
    Nat.mod_lt _ (Nat.lt_of_lt_of_le positive small)
  omega

def endsInLine : Inferior :=
  fun address => if 0x1000 ≤ address ∧ address < 0x1004 then some 7 else none

theorem cached_read_agrees_iff_endsInLine :
    endsInLine.Serves 0x1001 (((MemoryCache.new 512 ⟨[]⟩).read endsInLine 0x1000 4).2.read
      endsInLine 0x1001 3).1.dst :=
  (cached_read_agrees_iff (.read 0x1000 4 .new) 0x1001 3).mpr (by decide)

/-- A request for eight bytes of that memory is answered with eight bytes: the last four
come from beyond the four bytes of the line. -/
theorem cached_read_not_always_agrees :
    ¬ ∀ (inferior : Inferior) (lineSize : Nat) (invalid : RangeArray) (cache : MemoryCache),
      ReachedByReads inferior lineSize invalid cache → ∀ address dstLen : Nat,
        inferior.Serves address (cache.read inferior address dstLen).1.dst := by
  intro always
  have served := always endsInLine 512 ⟨[]⟩ _ .new 0x1000 8 4 none (by decide)
  exact Bool.false_ne_true served.1

end Unchanging

section Flushing

/-- `[base, base + length)` and `[address, address + size)` share a byte. -/
def Overlaps (base length address size : Nat) : Prop :=
  base < address + size ∧ address < base + length ∧ 0 < length ∧ 0 < size

/-- The walk over L1 gets to every chunk that overlaps the flushed range, and the range
spans fewer lines than a `uint32_t` counts. -/
structure FlushReaches (cache : MemoryCache) (address size : Nat) : Prop where
  bounded : address + size ≤ 2 ^ 64
  chunks : ∀ entry ∈ cache.l1Cache.entries, Overlaps entry.1 entry.2.length address size →
    entry ∈ cache.l1Cache.entries.drop (cache.l1Position address) ∧
      ∀ other ∈ cache.l1Cache.entries.drop (cache.l1Position address), other.1 ≤ entry.1 →
        (chunkRange other).doesIntersect ⟨address, size⟩ = true
  lines : cache.l2Cache.entries = [] ∨
    (address + size - 1) / cache.l2CacheLineByteSize - address / cache.l2CacheLineByteSize + 1 < 2 ^ 32

theorem flushL1_clean_iff (cache : MemoryCache) (address size : Nat) : (∀ entry ∈ (cache.flushL1 address size).entries,
        ¬ Overlaps entry.1 entry.2.length address size) ↔
      ∀ entry ∈ cache.l1Cache.entries, Overlaps entry.1 entry.2.length address size →
        entry ∈ cache.l1Cache.entries.drop (cache.l1Position address) ∧
          ∀ other ∈ cache.l1Cache.entries.drop (cache.l1Position address), other.1 ≤ entry.1 →
            (chunkRange other).doesIntersect ⟨address, size⟩ = true := by
  simp only [flushL1, mem_eraseWhile]
  constructor
  · intro clean entry member overlap
    by_contra missed
    exact clean entry ⟨member, missed⟩ overlap
  · rintro reached entry ⟨member, missed⟩ overlap
    exact missed (reached entry member overlap)

theorem mem_eraseLines (lines : BlockMap) (lineSize count address : Nat) (bounded : address < 2 ^ 64)
    (entry : Nat × DataBuffer) :
    entry ∈ (eraseLines lines lineSize count address).entries ↔
      entry ∈ lines.entries ∧ ∀ index < count, entry.1 ≠ (address + index * lineSize) % 2 ^ 64 := by
  -- Each round erases one key, and the rounds after it start a line further on.
  induction count generalizing lines address with
  | zero => simp [eraseLines]
  | succ count ih =>
    have shift : ∀ index, ((address + lineSize) % 2 ^ 64 + index * lineSize) % 2 ^ 64 =
        (address + (index + 1) * lineSize) % 2 ^ 64 := by
      intro index
      simp [Nat.add_mul, Nat.add_assoc, Nat.add_comm lineSize]
    rw [eraseLines, ih _ _ (Nat.mod_lt _ (by decide)), mem_erase]
    simp only [shift]
    constructor
    · rintro ⟨⟨member, apart⟩, others⟩
      refine ⟨member, fun index below => ?_⟩
      cases index with
      | zero => rwa [Nat.zero_mul, Nat.add_zero, Nat.mod_eq_of_lt bounded]
      | succ index => exact others index (Nat.lt_of_succ_lt_succ below)
    · rintro ⟨member, apart⟩
      refine ⟨⟨member, ?_⟩, fun index below => apart (index + 1) (Nat.succ_lt_succ below)⟩
      have here := apart 0 (Nat.succ_pos count)
      rwa [Nat.zero_mul, Nat.add_zero, Nat.mod_eq_of_lt bounded] at here

def Aligned (cache : MemoryCache) : Prop :=
  ∀ entry ∈ cache.l2Cache.entries, entry.1 < 2 ^ 64 ∧
    0 < cache.l2CacheLineByteSize ∧ cache.l2CacheLineByteSize ∣ entry.1

variable {address : Nat}

theorem mem_of_mem_flushL2 {cache : MemoryCache} {size : Nat} (bounded : address < 2 ^ 64)
    {entry : Nat × DataBuffer} (member : entry ∈ (cache.flushL2 address size).entries) :
    entry ∈ cache.l2Cache.entries := by
  unfold flushL2 at member
  split at member
  · exact member
  · have start : address - address % cache.l2CacheLineByteSize < 2 ^ 64 := by omega
    exact ((mem_eraseLines _ _ _ _ start entry).mp member).1

theorem lineStart_eq (lineSize address : Nat) : address - address % lineSize = lineSize * (address / lineSize) := by
  have parts := Nat.div_add_mod address lineSize
  omega

theorem numCacheLines_eq {lineSize size : Nat} (bounded : address + size ≤ 2 ^ 64)
    (positive : 0 < size) (some : 0 < lineSize)
    (few : (address + size - 1) / lineSize - address / lineSize + 1 < 2 ^ 32) :
    numCacheLines lineSize address size = (address + size - 1) / lineSize - address / lineSize + 1 := by
  have last : (address + size - 1) % 2 ^ 64 = address + size - 1 := Nat.mod_eq_of_lt (by omega)
  have ordered : address / lineSize ≤ (address + size - 1) / lineSize :=
    Nat.div_le_div_right (by omega)
  have starts : lineSize * (address / lineSize) ≤ lineSize * ((address + size - 1) / lineSize) :=
    Nat.mul_le_mul_left lineSize ordered
  simp only [numCacheLines, last, lineStart_eq]
  rw [if_pos starts, ← Nat.mul_sub, Nat.mul_div_cancel_left _ some, Nat.mod_eq_of_lt few]

theorem flushL2_clean {cache : MemoryCache} (aligned : cache.Aligned) {size : Nat} (bounded : address + size ≤ 2 ^ 64)
    (few : cache.l2Cache.entries = [] ∨ (address + size - 1) / cache.l2CacheLineByteSize -
      address / cache.l2CacheLineByteSize + 1 < 2 ^ 32)
    {entry : Nat × DataBuffer} (member : entry ∈ (cache.flushL2 address size).entries) :
    ¬ Overlaps entry.1 cache.l2CacheLineByteSize address size := by
  rintro ⟨below, above, some, positive⟩
  have old := mem_of_mem_flushL2 (by omega) member
  obtain ⟨inside, _, multiple, start⟩ := aligned entry old
  have few := few.resolve_left fun empty => by simp [empty] at old
  have nonempty : cache.l2Cache.isEmpty = false := by
    simpa [isEmpty] using List.ne_nil_of_mem old
  simp only [flushL2, nonempty,
    numCacheLines_eq bounded positive some few, lineStart_eq] at member
  have lower : address / cache.l2CacheLineByteSize < multiple + 1 := by
    rw [Nat.div_lt_iff_lt_mul some, Nat.add_mul, Nat.mul_comm multiple]
    omega
  have upper : multiple ≤ (address + size - 1) / cache.l2CacheLineByteSize := by
    rw [Nat.le_div_iff_mul_le some, Nat.mul_comm]
    omega
  have first : cache.l2CacheLineByteSize * (address / cache.l2CacheLineByteSize) < 2 ^ 64 := by
    have whole := Nat.mul_div_le address cache.l2CacheLineByteSize
    omega
  -- An overlapping line is one of those that the walk erases, at this index.
  have apart := ((mem_eraseLines _ _ _ _ first entry).mp member).2
    (multiple - address / cache.l2CacheLineByteSize) (by omega)
  have reached : cache.l2CacheLineByteSize * (address / cache.l2CacheLineByteSize) +
      (multiple - address / cache.l2CacheLineByteSize) * cache.l2CacheLineByteSize = entry.1 := by
    rw [Nat.mul_comm (multiple - _), ← Nat.mul_add, start]
    congr 1
    omega
  rw [reached, Nat.mod_eq_of_lt inside] at apart
  exact apart rfl

end Flushing

end MemoryCache

/-! Runs of reads, fills and flushed writes. -/

structure World where
  inferior : Inferior
  cache : MemoryCache

/-- A write is followed at once by the flush of its range; `written` is the memory it leaves. -/
inductive Operation where
  | read (address dstLen : Nat)
  | addL1CacheData (address : Nat) (data : DataBuffer)
  | write (address size : Nat) (written : Inferior)

namespace World

open MemoryCache

def perform (world : World) : Operation → World
  | .read address dstLen =>
      { world with cache := (world.cache.read world.inferior address dstLen).2 }
  | .addL1CacheData address data =>
      { world with cache := world.cache.addL1CacheData address data }
  | .write address size written => ⟨written, world.cache.flush address size⟩

/-- Operations with 64-bit arguments: fills carry the bytes memory holds, and a write
changes nothing outside its range. -/
def Allowed (world : World) : Operation → Prop
  | .read address dstLen => address < 2 ^ 64 ∧ dstLen < 2 ^ 64
  | .addL1CacheData address data =>
      address < 2 ^ 64 ∧ data.length < 2 ^ 64 ∧ world.inferior.Reproduces address data
  | .write address size written => address < 2 ^ 64 ∧ size < 2 ^ 64 ∧
      ∀ other < 2 ^ 64, (∀ index < size, (address + index) % 2 ^ 64 ≠ other) → written other = world.inferior other

/-- The operations that the cache carries out as intended: reads inside the buffers they
copy from, whose lines do not run past the end of the address space, and flushes that reach
what they must delete. -/
def Handled (world : World) : Operation → Prop
  | .read address dstLen =>
      world.cache.ReadInBounds world.inferior address dstLen ∧ (dstLen ≤ world.cache.l2CacheLineByteSize →
          address + dstLen ≤ 2 ^ 64 ∨ world.cache.l2CacheLineByteSize ∣ 2 ^ 64)
  | .addL1CacheData _ _ => True
  | .write address size _ => size = 0 ∨ world.cache.FlushReaches address size

def Step (world next : World) : Prop :=
  ∃ operation, world.Allowed operation ∧ world.Handled operation ∧ next = world.perform operation

/-- What every run keeps: the cached bytes that a read can use are those of the inferior. -/
structure Coherent (world : World) : Prop where
  sized : ∀ entry ∈ world.cache.l1Cache.entries, entry.1 < 2 ^ 64 ∧ entry.2.length < 2 ^ 64
  chunks : ∀ entry ∈ world.cache.l1Cache.entries, entry.1 + entry.2.length < 2 ^ 64 →
    world.inferior.Reproduces entry.1 entry.2
  lines : Trusted world.inferior world.cache.l2CacheLineByteSize (fun key => 2 ^ 64 - key)
    world.cache.l2Cache
  aligned : world.cache.Aligned

theorem coherent_new (inferior : Inferior) (lineSize : Nat) (invalid : RangeArray) :
    Coherent ⟨inferior, .new lineSize invalid⟩ := by
  constructor <;> simp [MemoryCache.new, empty, Trusted, Aligned]

/-- A chunk that reaches the end of the address space is never hit. -/
theorem Coherent.hit {world : World} (coherent : world.Coherent) {address dstLen : Nat}
    {entry : Nat × DataBuffer} (hit : world.cache.l1Lookup address dstLen = some entry) :
    world.inferior.Reproduces entry.1 entry.2 := by
  obtain ⟨member, below, inside⟩ := l1Lookup_mem hit
  obtain ⟨start, size⟩ := coherent.sized entry member
  exact coherent.chunks entry member (by omega)

variable {address : Nat} {world : World}

/-- The second line of a request starts at a multiple of the line size inside the address space. -/
theorem second_line {lineSize dstLen : Nat} (some : 0 < lineSize) (past : lineSize < address % lineSize + dstLen)
    (inside : address + dstLen ≤ 2 ^ 64 ∨ lineSize ∣ 2 ^ 64) :
    lineSize ∣ (address - address % lineSize + lineSize) % 2 ^ 64 ∧ (address + dstLen ≤ 2 ^ 64 →
        (address - address % lineSize + lineSize) % 2 ^ 64 = address - address % lineSize + lineSize) := by
  have below := Nat.mod_le address lineSize
  have start : lineSize ∣ address - address % lineSize + lineSize :=
    Nat.dvd_add (Nat.dvd_sub_mod address) (Nat.dvd_refl lineSize)
  have unwrapped : address + dstLen ≤ 2 ^ 64 →
      (address - address % lineSize + lineSize) % 2 ^ 64 = address - address % lineSize + lineSize :=
    fun within => Nat.mod_eq_of_lt (by omega)
  refine ⟨?_, unwrapped⟩
  rcases inside with within | whole
  · rwa [unwrapped within]
  · exact (Nat.dvd_mod_iff whole).mpr start

theorem line_inside {lineSize key : Nat} (whole : lineSize ∣ 2 ^ 64) (start : lineSize ∣ key)
    (bounded : key < 2 ^ 64) : key + lineSize ≤ 2 ^ 64 := by
  obtain ⟨count, total⟩ := whole
  obtain ⟨index, rfl⟩ := start
  have below : index < count := by
    rw [total] at bounded
    exact Nat.lt_of_mul_lt_mul_left bounded
  rw [total]
  calc lineSize * index + lineSize = lineSize * (index + 1) := (Nat.mul_succ ..).symm
    _ ≤ lineSize * count := Nat.mul_le_mul_left lineSize below

theorem Coherent.serves (coherent : world.Coherent) {dstLen : Nat}
    (allowed : world.Allowed (.read address dstLen)) (handled : world.Handled (.read address dstLen)) :
    world.inferior.Serves address (world.cache.read world.inferior address dstLen).1.dst := by
  obtain ⟨bounded, _⟩ := allowed
  obtain ⟨inBounds, inside⟩ := handled
  refine (read_serves_iff (fun entry => coherent.hit) coherent.lines fun small positive => ?_).mpr inBounds
  generalize world.cache.l2CacheLineByteSize = lineSize at small inside ⊢
  have some : 0 < lineSize := lt_of_lt_of_le positive small
  have below := Nat.mod_le address lineSize
  constructor
  · rcases inside small with within | whole
    · omega
    · have first := line_inside whole (Nat.dvd_sub_mod address) (by omega)
      omega
  · intro past
    obtain ⟨start, unwrapped⟩ := second_line some (by omega) (inside small)
    rcases inside small with within | whole
    · omega
    · have second := line_inside whole start (Nat.mod_lt _ (by decide))
      omega

theorem Coherent.fill (coherent : world.Coherent) {data : DataBuffer}
    (allowed : world.Allowed (.addL1CacheData address data)) :
    (world.perform (.addL1CacheData address data)).Coherent := by
  obtain ⟨bounded, sized, held⟩ := allowed
  refine ⟨fun entry member => ?_, fun entry member => ?_, coherent.lines, coherent.aligned⟩
  · rcases (world.cache.l1Cache.mem_insert address data entry).mp member with fresh | ⟨old, _⟩
    · subst fresh
      exact ⟨bounded, sized⟩
    · exact coherent.sized entry old
  · rcases (world.cache.l1Cache.mem_insert address data entry).mp member with fresh | ⟨old, _⟩
    · subst fresh
      exact fun _ => held
    · exact coherent.chunks entry old

theorem Coherent.read {world : World} (coherent : world.Coherent) {address dstLen : Nat}
    (allowed : world.Allowed (.read address dstLen)) (handled : world.Handled (.read address dstLen)) :
    (world.perform (.read address dstLen)).Coherent := by
  obtain ⟨bounded, sized⟩ := allowed
  have inside := handled.2
  rcases read_cases world.inferior address dstLen fun entry member => (coherent.lines entry member).1 with
    same | same | ⟨small, positive, lines, same, added⟩
  · simp only [perform, same]
    exact coherent
  · simp only [perform, same]
    have length := world.inferior.length_readMemoryFromInferior_le address dstLen
    exact coherent.fill ⟨bounded, lt_of_le_of_lt length sized,
      world.inferior.reproduces_readMemoryFromInferior address dstLen⟩
  · simp only [perform, same]
    refine ⟨coherent.sized, coherent.chunks, fun entry member => ?_, fun entry member => ?_⟩
    · rcases added entry member with old | fetched
      · exact coherent.lines entry old
      · exact ⟨fetched.2.1, fun index _ => congrArg (·[index]?) fetched.1⟩
    · rcases added entry member with old | ⟨_, _, key⟩
      · exact coherent.aligned entry old
      · have some : 0 < world.cache.l2CacheLineByteSize := lt_of_lt_of_le positive small
        rcases key with first | ⟨past, second⟩
        · rw [first]
          exact ⟨by omega, some, Nat.dvd_sub_mod address⟩
        · rw [second]
          exact ⟨Nat.mod_lt _ (by decide), some, (second_line some past (inside small)).1⟩

theorem Coherent.flushed (coherent : world.Coherent) {size : Nat}
    (reaches : size = 0 ∨ world.cache.FlushReaches address size) :
    (∀ entry ∈ (world.cache.flush address size).l1Cache.entries,
      entry ∈ world.cache.l1Cache.entries ∧ ¬ Overlaps entry.1 entry.2.length address size) ∧
    (∀ entry ∈ (world.cache.flush address size).l2Cache.entries, entry ∈ world.cache.l2Cache.entries ∧
        ¬ Overlaps entry.1 world.cache.l2CacheLineByteSize address size) := by
  by_cases nothing : size = 0
  · subst nothing
    exact ⟨fun entry member => ⟨member, fun overlap => absurd overlap.2.2.2 (lt_irrefl 0)⟩,
      fun entry member => ⟨member, fun overlap => absurd overlap.2.2.2 (lt_irrefl 0)⟩⟩
  have reaches := reaches.resolve_left nothing
  have clean := (flushL1_clean_iff world.cache address size).mpr reaches.chunks
  have bounded := reaches.bounded
  simp only [flush, nothing]
  refine ⟨fun entry member => ⟨?_, clean entry member⟩, fun entry member =>
    ⟨mem_of_mem_flushL2 (by omega) member, flushL2_clean coherent.aligned reaches.bounded reaches.lines member⟩⟩
  exact ((world.cache.l1Cache.mem_eraseWhile _ _ entry).mp member).1

theorem Coherent.write (coherent : world.Coherent) {size : Nat}
    {written : Inferior} (allowed : world.Allowed (.write address size written))
    (handled : world.Handled (.write address size written)) :
    (world.perform (.write address size written)).Coherent := by
  obtain ⟨chunksKept, linesKept⟩ := coherent.flushed handled
  have lineSize : (world.cache.flush address size).l2CacheLineByteSize = world.cache.l2CacheLineByteSize := by
    unfold flush
    split <;> rfl
  -- The range does not wrap, so a byte outside it keeps its value.
  have frame : ∀ other < 2 ^ 64, ¬ (address ≤ other ∧ other < address + size) →
      written other = world.inferior other := by
    intro other inside outside
    apply allowed.2.2 other inside
    intro index below
    rcases handled with nothing | reaches
    · omega
    · have bounded := reaches.bounded
      rw [Nat.mod_eq_of_lt (by omega)]
      omega
  refine ⟨fun entry member => coherent.sized entry (chunksKept entry member).1,
    fun entry member below index byte held => ?_, fun entry member => ?_, fun entry member => ?_⟩
  · obtain ⟨old, apart⟩ := chunksKept entry member
    have present := (List.getElem?_eq_some_iff.mp held).1
    have before := coherent.chunks entry old below index byte held
    simp only [perform]
    rw [Nat.mod_eq_of_lt (by omega)] at before ⊢
    rw [frame _ (by omega) (by simp only [Overlaps] at apart; omega)]
    exact before
  · obtain ⟨old, apart⟩ := linesKept entry member
    obtain ⟨nonempty, same⟩ := coherent.lines entry old
    refine ⟨nonempty, fun index trusted => ?_⟩
    have below : index < 2 ^ 64 - entry.1 := trusted
    simp only [perform, lineSize]
    rw [same index trusted]
    apply Inferior.getElem?_readMemoryFromInferior_congr
    intro before upTo within
    rw [Nat.mod_eq_of_lt (by omega)]
    exact (frame _ (by omega) (by simp only [Overlaps] at apart; omega)).symm
  · obtain ⟨bounded, some, multiple⟩ := coherent.aligned entry (linesKept entry member).1
    simp only [perform, lineSize]
    exact ⟨bounded, some, multiple⟩

theorem Coherent.step {world next : World} (coherent : world.Coherent) (step : world.Step next) : next.Coherent := by
  obtain ⟨operation, allowed, handled, rfl⟩ := step
  -- One lemma for each operation; a flush is part of the write.
  cases operation with
  | read address dstLen => exact coherent.read allowed handled
  | addL1CacheData address data => exact coherent.fill allowed
  | write address size written => exact coherent.write allowed handled

theorem run_coherent {last : World} (coherent : world.Coherent)
    (run : Relation.ReflTransGen Step world last) : last.Coherent := by
  induction run with
  | refl => exact coherent
  | tail _ step ih => exact ih.step step

/-- In every run of handled operations from an empty cache, a read reports the bytes that the
inferior holds then, and a flush leaves nothing that overlaps its range. -/
theorem reads_current_memory {inferior : Inferior} {lineSize : Nat} {invalid : RangeArray}
    {world : World} (run : Relation.ReflTransGen Step ⟨inferior, .new lineSize invalid⟩ world) :
    (∀ address dstLen : Nat, world.Allowed (.read address dstLen) → world.Handled (.read address dstLen) →
      world.inferior.Serves address (world.cache.read world.inferior address dstLen).1.dst) ∧
    (∀ address size : Nat, world.cache.FlushReaches address size →
      (∀ entry ∈ (world.cache.flush address size).l1Cache.entries, ¬ Overlaps entry.1 entry.2.length address size) ∧
      (∀ entry ∈ (world.cache.flush address size).l2Cache.entries,
        ¬ Overlaps entry.1 world.cache.l2CacheLineByteSize address size)) := by
  have coherent := run_coherent (coherent_new inferior lineSize invalid) run
  refine ⟨fun address dstLen => coherent.serves, fun address size reaches => ?_⟩
  obtain ⟨chunks, lines⟩ := coherent.flushed (.inr reaches)
  exact ⟨fun entry member => (chunks entry member).2, fun entry member => (lines entry member).2⟩

/-- Memory whose bytes in `[start, stop)` are one, and zero elsewhere. -/
def oneBetween (start stop : Nat) : Inferior :=
  fun address => some (if start ≤ address ∧ address < stop then 1 else 0)

theorem oneBetween_frame {start size : Nat} (bounded : start + size < 2 ^ 64) :
    ∀ other < 2 ^ 64, (∀ index < size, (start + index) % 2 ^ 64 ≠ other) →
      oneBetween start (start + size) other = oneBetween 0 0 other := by
  intro other inside apart
  have outside : ¬ (start ≤ other ∧ other < start + size) := by
    intro between
    apply apart (other - start) (by omega)
    omega
  simp [oneBetween, outside]

theorem reads_current_memory_after_write : (oneBetween 0x1002 0x1004).Serves 0x1000
      ((((MemoryCache.new 16 ⟨[]⟩).read (oneBetween 0 0) 0x1000 8).2.flush 0x1002 2).read
        (oneBetween 0x1002 0x1004) 0x1000 8).1.dst := by
  have filled : Step ⟨oneBetween 0 0, .new 16 ⟨[]⟩⟩ _ :=
    ⟨.read 0x1000 8, ⟨by decide, by decide⟩, ⟨by decide, fun _ => .inl (by decide)⟩, rfl⟩
  have chunks : ((MemoryCache.new 16 ⟨[]⟩).read (oneBetween 0 0) 0x1000 8).2.l1Cache.entries = [] := rfl
  have reaches : ((MemoryCache.new 16 ⟨[]⟩).read (oneBetween 0 0) 0x1000 8).2.FlushReaches 0x1002 2 :=
    ⟨by decide, by simp [chunks], .inr (by decide)⟩
  have flushed : Step (World.perform ⟨oneBetween 0 0, .new 16 ⟨[]⟩⟩ (.read 0x1000 8)) _ :=
    ⟨.write 0x1002 2 (oneBetween 0x1002 0x1004),
      ⟨by decide, by decide, oneBetween_frame (by decide)⟩, .inr reaches, rfl⟩
  exact (reads_current_memory (.tail (.single filled) flushed)).1 0x1000 8
    ⟨by decide, by decide⟩ ⟨by decide, fun _ => .inl (by decide)⟩

/-- A chunk in front of the flushed range that does not reach it stops the walk, and the
chunk behind it stays: a later read returns its stale bytes. -/
theorem reads_not_always_current : ¬ ∀ (inferior : Inferior) (lineSize : Nat) (invalid : RangeArray) (world : World),
      Relation.ReflTransGen
          (fun world next => ∃ operation, world.Allowed operation ∧ next = world.perform operation)
          ⟨inferior, .new lineSize invalid⟩ world →
        ∀ address dstLen : Nat, world.Allowed (.read address dstLen) →
          world.inferior.Serves address (world.cache.read world.inferior address dstLen).1.dst := by
  intro always
  have zero : ∀ address, (oneBetween 0 0).Reproduces address [0, 0, 0, 0] := by
    intro address index byte held
    have member : byte ∈ [(0 : UInt8), 0, 0, 0] := List.mem_of_getElem? held
    simp at member
    simp [oneBetween, member]
  have served := always (oneBetween 0 0) 512 ⟨[]⟩ _
    (.tail (.tail (.single
        ⟨.addL1CacheData 0x1000 [0, 0, 0, 0], ⟨by decide, by decide, zero _⟩, rfl⟩)
        ⟨.addL1CacheData 0x2000 [0, 0, 0, 0], ⟨by decide, by decide, zero _⟩, rfl⟩)
      ⟨.write 0x1ffc 8 (oneBetween 0x1ffc 0x2004), ⟨by decide, by decide, oneBetween_frame (by decide)⟩, rfl⟩)
    0x2000 4 ⟨by decide, by decide⟩ 0 (some 0) (by decide)
  exact absurd served.2 (by decide)

end World

end Lldb
