import Lldb.Core.Range
import Lldb.Library.OrderedMap

/-! The cache of inferior memory: an L1 cache of chunks of any size, used only when
a request lies inside one chunk, and an L2 cache of lines of a fixed size.

Addresses are 64-bit and wrap. A byte copied from beyond the end of a buffer has
no defined value; such a byte is `none` in a destination.
-/

set_option autoImplicit false

namespace Lldb

/-- The byte at each address of the inferior, `none` where it is unreadable. -/
abbrev Inferior := Nat → Option UInt8

/-- `Process::ReadMemoryFromInferior`: the readable prefix of the request. -/
def Inferior.readMemoryFromInferior (inferior : Inferior) (address : Nat) : Nat → List UInt8
  | 0 => []
  | length + 1 =>
      match inferior (address % 2 ^ 64) with
      | none => []
      | some byte => byte :: inferior.readMemoryFromInferior (address + 1) length

abbrev DataBuffer := List UInt8

/-- `memcpy` of `length` bytes from `buffer + offset`. -/
def DataBuffer.copyOut (buffer : DataBuffer) (offset length : Nat) : List (Option UInt8) :=
  (List.range length).map fun index => buffer[offset + index]?

abbrev BlockMap := Library.OrderedMap Nat DataBuffer

structure MemoryCache where
  l1Cache : BlockMap
  l2Cache : BlockMap
  invalidRanges : RangeArray
  l2CacheLineByteSize : Nat

namespace MemoryCache

def new (cacheLineSize : Nat) (invalidRanges : RangeArray) : MemoryCache :=
  ⟨.empty, .empty, invalidRanges, cacheLineSize⟩

variable (cache : MemoryCache)

def addL1CacheData (address : Nat) (data : DataBuffer) : MemoryCache :=
  { cache with l1Cache := cache.l1Cache.insert address data }

def chunkRange (entry : Nat × DataBuffer) : Range := ⟨entry.1, entry.2.length⟩

/-- Where both `Flush` and `Read` enter the L1 map: the chunk before `upper_bound`,
or the first chunk when there is none before it. -/
def l1Position (address : Nat) : Nat :=
  cache.l1Cache.upperBound address - 1

def flushL1 (address size : Nat) : BlockMap :=
  cache.l1Cache.eraseWhile (cache.l1Position address) fun entry =>
    (chunkRange entry).doesIntersect ⟨address, size⟩

/-- The `uint32_t` number of lines that the second half of `Flush` walks over. -/
def numCacheLines (lineSize address size : Nat) : Nat :=
  let endAddress := (address + size - 1) % 2 ^ 64
  let first := address - address % lineSize
  let last := endAddress - endAddress % lineSize
  -- Where the end wraps, the lines up to the end of the address space are counted.
  if last ≥ first then ((last - first) / lineSize + 1) % 2 ^ 32
  else ((2 ^ 64 - first) % 2 ^ 64 / lineSize) % 2 ^ 32

def eraseLines (lines : BlockMap) (lineSize : Nat) : Nat → Nat → BlockMap
  | 0, _ => lines
  | count + 1, address =>
      eraseLines (lines.erase address) lineSize count ((address + lineSize) % 2 ^ 64)

def flushL2 (address size : Nat) : BlockMap :=
  if cache.l2Cache.isEmpty then cache.l2Cache
  else
    let lineSize := cache.l2CacheLineByteSize
    eraseLines cache.l2Cache lineSize (numCacheLines lineSize address size)
      (address - address % lineSize)

def flush (address size : Nat) : MemoryCache :=
  if size = 0 then cache
  else { cache with
    l1Cache := cache.flushL1 address size
    l2Cache := cache.flushL2 address size }

/-- What a read returns: the bytes written to `dst`, whose number is the result, and
the text of the error it sets itself. -/
structure ReadResult where
  dst : List (Option UInt8)
  error : Option String
  deriving DecidableEq, Repr

/-- The locals of the line loop; `dst` holds the bytes copied so far. -/
structure Cursor where
  bytesLeft : Nat
  currAddr : Nat
  cacheOffset : Nat
  dst : List (Option UInt8)

def Cursor.takeLine (cursor : Cursor) (lineSize : Nat) (line : DataBuffer) : Cursor :=
  let readSize := min (lineSize - cursor.cacheOffset) cursor.bytesLeft
  { bytesLeft := cursor.bytesLeft - readSize
    currAddr := (cursor.currAddr + readSize + cursor.cacheOffset) % 2 ^ 64
    cacheOffset := 0
    dst := cursor.dst ++ line.copyOut cursor.cacheOffset readSize }

/-- Sequential cache page hits; the flag says that a short line ended the read. -/
def Cursor.takeSequential (lineSize : Nat) : List (Nat × DataBuffer) → Cursor → Cursor × Bool
  | [], cursor => (cursor, false)
  | (key, line) :: rest, cursor =>
      if cursor.bytesLeft = 0 ∨ key ≠ cursor.currAddr then (cursor, false)
      else
        -- Here, and only here, the length of the line bounds the copy.
        let readSize := min line.length cursor.bytesLeft
        let next : Cursor :=
          { bytesLeft := cursor.bytesLeft - readSize
            currAddr := (cursor.currAddr + readSize) % 2 ^ 64
            cacheOffset := cursor.cacheOffset
            dst := cursor.dst ++ line.copyOut 0 readSize }
        if line.length ≠ lineSize then (next, true) else takeSequential lineSize rest next

def invalidReadError (address : Nat) : String :=
  "memory read failed for 0x" ++ String.ofList (Nat.toDigits 16 address)

/-- The line loop of `Read`. `fuel` bounds its iterations: each but the first either
copies a byte or is the last, so `bytesLeft + 2` are always enough. -/
def readLines (inferior : Inferior) (invalid : RangeArray) (lineSize : Nat) :
    Nat → BlockMap → Cursor → ReadResult × BlockMap
  | 0, lines, cursor => (⟨cursor.dst, none⟩, lines)
  | fuel + 1, lines, cursor =>
      if cursor.bytesLeft = 0 then (⟨cursor.dst, none⟩, lines)
      else if (invalid.findEntryThatContains cursor.currAddr).isSome then
        (⟨cursor.dst, some (invalidReadError cursor.currAddr)⟩, lines)
      else
        let (next, ended) :=
          match lines.find? cursor.currAddr with
          | some line =>
              (cursor.takeLine lineSize line).takeSequential lineSize (lines.after cursor.currAddr)
          | none => (cursor, false)
        if ended ∨ next.bytesLeft = 0 then (⟨next.dst, none⟩, lines)
        else
          -- The bytes of the next line are not in the cache, or not next to the last hit.
          let line := inferior.readMemoryFromInferior next.currAddr lineSize
          if line.isEmpty then (⟨next.dst, none⟩, lines)
          else readLines inferior invalid lineSize fuel (lines.insert next.currAddr line) next

def l1Lookup (address dstLen : Nat) : Option (Nat × DataBuffer) :=
  cache.l1Cache.entries[cache.l1Position address]?.filter fun entry =>
    (chunkRange entry).containsRange ⟨address, dstLen⟩

/-- `Read` into a destination that is not null. -/
def read (inferior : Inferior) (address dstLen : Nat) : ReadResult × MemoryCache :=
  match cache.l1Lookup address dstLen with
  -- All the bytes of the request, even past the end of the chunk.
  | some (base, chunk) => (⟨chunk.copyOut (address - base) dstLen, none⟩, cache)
  | none =>
      let lineSize := cache.l2CacheLineByteSize
      if dstLen > lineSize then
        -- A request for more than a line goes to the process, and what it reads becomes an L1 chunk.
        let data := inferior.readMemoryFromInferior address dstLen
        (⟨data.map some, none⟩, if data.isEmpty then cache else cache.addL1CacheData address data)
      else
        let (result, lines) :=
          readLines inferior cache.invalidRanges lineSize (dstLen + 2) cache.l2Cache
            ⟨dstLen, address - address % lineSize, address % lineSize, []⟩
        (result, { cache with l2Cache := lines })

end MemoryCache

end Lldb
