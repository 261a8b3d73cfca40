import Mathlib.Algebra.Ring.Nat
import TfReading.Library.SortedSet

/-!
# Chunks, bins and regions of `common_runtime/bfc_allocator`

The data that every path of the allocator rewrites: the chunks and the list of recycled
chunk slots, the regions with their map from addresses to chunk handles, and the bins of
free chunks.  A pointer is an address and a `size_t` is a number below `2 ^ 64`.

A `Fault` is a way for the program not to go on: undefined behaviour and failed checks
are told apart, so that a theorem can say which of them cannot happen.
-/

namespace TfReading.Bfc

def kMinAllocationBits : Nat := 8

def kMinAllocationSize : Nat := 1 <<< kMinAllocationBits

def kNumBins : Nat := 21

def wordSize : Nat := 2 ^ 64

inductive Fault
  /-- `ChunkFromHandle` of a handle outside `chunks_`. -/
  | badHandle
  /-- A `CHECK` fails. -/
  | checkFailed
  /-- `RegionFor` finds no region, `LOG(FATAL)`. -/
  | noRegion
  /-- `IndexFor` of an address before the region. -/
  | badIndex
  /-- A walk along `next` that takes more steps than there are chunks. -/
  | endlessChain
  /-- A loop of `Extend` has not ended within the rounds it was given. -/
  | noReturn
  deriving DecidableEq, Repr

def check (b : Bool) : Except Fault Unit := if b then .ok () else .error .checkFailed

abbrev ChunkHandle := Nat
abbrev BinNum := Nat

/-- `kInvalidChunkHandle` and `kInvalidBinNum` are `none`. -/
structure Chunk where
  size : Nat := 0
  requestedSize : Nat := 0
  /-- `-1` when the chunk is not in use. -/
  allocationId : Int := -1
  ptr : Nat := 0
  prev : Option ChunkHandle := none
  next : Option ChunkHandle := none
  binNum : Option BinNum := none
  freedAtCount : Nat := 0
  deriving DecidableEq, Repr

def Chunk.inUse (c : Chunk) : Bool := c.allocationId != -1

def roundedBytes (bytes : Nat) : Nat :=
  kMinAllocationSize * ((bytes + kMinAllocationSize - 1) % wordSize / kMinAllocationSize)

def binNumForSize (bytes : Nat) : BinNum :=
  min (kNumBins - 1) (Nat.log2 (max bytes 256 >>> kMinAllocationBits))

/-! ## Regions -/

structure AllocationRegion where
  ptr : Nat
  memorySize : Nat
  deriving DecidableEq, Repr

namespace AllocationRegion

/-- A region never ends past the address space, so no carry is lost. -/
def endPtr (r : AllocationRegion) : Nat := r.ptr + r.memorySize

def extend (r : AllocationRegion) (size : Nat) : AllocationRegion :=
  { r with memorySize := r.memorySize + size }

/-- The address whose slot `handles_[IndexFor(p)]` is. -/
def slotFor (r : AllocationRegion) (p : Nat) : Except Fault Nat :=
  if r.ptr ≤ p then
    .ok (r.ptr + kMinAllocationSize * ((p - r.ptr) / kMinAllocationSize))
  else .error .badIndex

end AllocationRegion

/-- `regions` is sorted by `endPtr`.  The arrays `handles_` of all regions are one map, from
the address that a slot stands for.  An array that is too large to be allocated, which ends the
program, is left out. -/
structure RegionManager where
  regions : List AllocationRegion
  handles : Nat → Option ChunkHandle

namespace RegionManager

/-- The slots for `[lo, hi)` as `resize` makes them. -/
def clear (m : RegionManager) (lo hi : Nat) : Nat → Option ChunkHandle :=
  fun a => if lo ≤ a ∧ a < hi then none else m.handles a

/-- The regions before `std::upper_bound` of `ptr`. -/
def before (m : RegionManager) (ptr : Nat) : List AllocationRegion :=
  m.regions.takeWhile fun r => r.endPtr ≤ ptr

/-- The regions from `std::upper_bound` of `ptr` on. -/
def after (m : RegionManager) (ptr : Nat) : List AllocationRegion :=
  m.regions.dropWhile fun r => r.endPtr ≤ ptr

def addAllocationRegion (m : RegionManager) (ptr memorySize : Nat) : RegionManager :=
  { regions := m.before ptr ++ ⟨ptr, memorySize⟩ :: m.after ptr
    handles := m.clear ptr (ptr + memorySize) }

/-- Also returns the region that was extended, if one was. -/
def addOrExtendAllocationRegion (m : RegionManager) (ptr memorySize : Nat) :
    Option AllocationRegion × RegionManager :=
  match (m.before ptr).getLast? with
  | some preceding =>
    if preceding.endPtr = ptr then
      (some (preceding.extend memorySize),
        { regions := (m.before ptr).dropLast ++ preceding.extend memorySize :: m.after ptr
          handles := m.clear ptr (ptr + memorySize) })
    else (none, m.addAllocationRegion ptr memorySize)
  | none => (none, m.addAllocationRegion ptr memorySize)

def removeAllocationRegion (m : RegionManager) (r : AllocationRegion) : RegionManager :=
  { m with regions := m.regions.erase r }

def regionFor (m : RegionManager) (p : Nat) : Except Fault AllocationRegion :=
  match m.regions.find? fun r => p < r.endPtr with
  | some r => .ok r
  | none => .error .noRegion

def getHandle (m : RegionManager) (p : Nat) : Except Fault (Option ChunkHandle) := do
  let r ← m.regionFor p
  let a ← r.slotFor p
  .ok (m.handles a)

def setHandle (m : RegionManager) (p : Nat) (h : Option ChunkHandle) :
    Except Fault RegionManager := do
  let r ← m.regionFor p
  let a ← r.slotFor p
  .ok { m with handles := Function.update m.handles a h }

def erase (m : RegionManager) (p : Nat) : Except Fault RegionManager := m.setHandle p none

end RegionManager

/-! ## Chunks -/

structure Heap where
  chunks : ChunkHandle → Chunk
  /-- `chunks_.size()` -/
  numChunks : Nat
  freeChunksList : Option ChunkHandle
  regionManager : RegionManager
  bins : BinNum → List ChunkHandle

namespace Heap

def empty : Heap where
  chunks := fun _ => {}
  numChunks := 0
  freeChunksList := none
  regionManager := ⟨[], fun _ => none⟩
  bins := fun _ => []

def chunkFromHandle (s : Heap) (h : ChunkHandle) : Except Fault Chunk :=
  if h < s.numChunks then .ok (s.chunks h) else .error .badHandle

/-- A write through the pointer that `ChunkFromHandle` returns. -/
def setChunk (s : Heap) (h : ChunkHandle) (c : Chunk) : Heap :=
  { s with chunks := Function.update s.chunks h c }

def setHandle (s : Heap) (p : Nat) (h : Option ChunkHandle) : Except Fault Heap := do
  let m ← s.regionManager.setHandle p h
  .ok { s with regionManager := m }

def allocateChunk (s : Heap) : Except Fault (ChunkHandle × Heap) :=
  match s.freeChunksList with
  | some h => do
    let c ← s.chunkFromHandle h
    .ok (h, { s with freeChunksList := c.next })
  | none =>
    .ok (s.numChunks,
      { s with numChunks := s.numChunks + 1, chunks := Function.update s.chunks s.numChunks {} })

def deallocateChunk (s : Heap) (h : ChunkHandle) : Except Fault Heap := do
  let c ← s.chunkFromHandle h
  .ok { s.setChunk h { c with allocationId := -1, binNum := none, next := s.freeChunksList } with
    freeChunksList := some h }

def deleteChunk (s : Heap) (h : ChunkHandle) : Except Fault Heap := do
  let c ← s.chunkFromHandle h
  let s ← s.setHandle c.ptr none
  s.deallocateChunk h

/-! ## Bins -/

def chunkComparator (s : Heap) (ha hb : ChunkHandle) : Bool :=
  if (s.chunks ha).size ≠ (s.chunks hb).size then (s.chunks ha).size < (s.chunks hb).size
  else (s.chunks ha).ptr < (s.chunks hb).ptr

def insertFreeChunkIntoBin (s : Heap) (h : ChunkHandle) : Except Fault Heap := do
  let c ← s.chunkFromHandle h
  check (!c.inUse && c.binNum.isNone)
  let b := binNumForSize c.size
  let s := s.setChunk h { c with binNum := some b }
  .ok { s with
    bins := Function.update s.bins b (SortedSet.insert s.chunkComparator h (s.bins b)) }

/-- `RemoveFreeChunkIterFromBin`, the iterator being at `h` in bin `b`. -/
def removeFreeChunkIterFromBin (s : Heap) (b : BinNum) (h : ChunkHandle) : Except Fault Heap := do
  let c ← s.chunkFromHandle h
  check (!c.inUse && c.binNum.isSome)
  .ok { s.setChunk h { c with binNum := none } with
    bins := Function.update s.bins b ((s.bins b).erase h) }

def removeFreeChunkFromBin (s : Heap) (h : ChunkHandle) : Except Fault Heap := do
  let c ← s.chunkFromHandle h
  match c.binNum with
  | none => .error .checkFailed
  | some b => do
    check (!c.inUse && SortedSet.contains s.chunkComparator h (s.bins b))
    .ok { s.setChunk h { c with binNum := none } with
      bins := Function.update s.bins b (SortedSet.erase s.chunkComparator h (s.bins b)) }

/-! ## Splitting and merging -/

/-- `ChunkFromHandle(h)->prev = p`, unless `h` is `kInvalidChunkHandle`. -/
def setPrev (s : Heap) (h : Option ChunkHandle) (p : ChunkHandle) : Except Fault Heap :=
  match h with
  | none => .ok s
  | some n => do
    let c ← s.chunkFromHandle n
    .ok (s.setChunk n { c with prev := some p })

def splitChunk (s : Heap) (h : ChunkHandle) (numBytes : Nat) : Except Fault Heap := do
  let (hNewChunk, s) ← s.allocateChunk
  let c ← s.chunkFromHandle h
  check (!c.inUse && c.binNum.isNone)
  -- a new chunk starting `numBytes` after `c`
  let newChunk ← s.chunkFromHandle hNewChunk
  let s ← s.setHandle (c.ptr + numBytes) (some hNewChunk)
  let s := s.setChunk hNewChunk
    { newChunk with
      ptr := c.ptr + numBytes
      size := (c.size + wordSize - numBytes) % wordSize
      allocationId := -1
      freedAtCount := c.freedAtCount
      prev := some h
      next := c.next }
  let s := s.setChunk h { c with size := numBytes, next := some hNewChunk }
  let s ← s.setPrev c.next hNewChunk
  s.insertFreeChunkIntoBin hNewChunk

def merge (s : Heap) (h1 h2 : ChunkHandle) : Except Fault Heap := do
  let c1 ← s.chunkFromHandle h1
  let c2 ← s.chunkFromHandle h2
  check (!c1.inUse && !c2.inUse)
  let s := s.setChunk h1 { c1 with next := c2.next }
  check (c2.prev == some h1)
  let s ← s.setPrev c2.next h1
  let c1 ← s.chunkFromHandle h1
  let s := s.setChunk h1
    { c1 with
      size := (c1.size + c2.size) % wordSize
      freedAtCount := max c1.freedAtCount c2.freedAtCount }
  s.deleteChunk h2

/-- May `TryToCoalesce` take the neighbour `n` in? -/
def mergeable (n : Chunk) (ignoreFreedAt : Bool) : Bool :=
  !n.inUse && (n.freedAtCount == 0 || ignoreFreedAt)

/-- The first half of `TryToCoalesce`: merge the next chunk into `h`. -/
def mergeNext (s : Heap) (h : ChunkHandle) (ignoreFreedAt : Bool) : Except Fault Heap := do
  let c ← s.chunkFromHandle h
  match c.next with
  | none => .ok s
  | some n => do
    let cn ← s.chunkFromHandle n
    if mergeable cn ignoreFreedAt then do
      let s ← s.removeFreeChunkFromBin n
      s.merge h n
    else .ok s

/-- The second half of `TryToCoalesce`: merge `h` into the previous chunk. -/
def mergePrev (s : Heap) (h : ChunkHandle) (ignoreFreedAt : Bool) :
    Except Fault (ChunkHandle × Heap) := do
  let c ← s.chunkFromHandle h
  match c.prev with
  | none => .ok (h, s)
  | some p => do
    let cp ← s.chunkFromHandle p
    if mergeable cp ignoreFreedAt then do
      let s ← s.removeFreeChunkFromBin p
      let s ← s.merge p h
      .ok (p, s)
    else .ok (h, s)

def tryToCoalesce (s : Heap) (h : ChunkHandle) (ignoreFreedAt : Bool) :
    Except Fault (ChunkHandle × Heap) := do
  let c ← s.chunkFromHandle h
  if !ignoreFreedAt && decide (0 < c.freedAtCount) then .ok (h, s)
  else do
    let s ← s.mergeNext h ignoreFreedAt
    s.mergePrev h ignoreFreedAt

/-- `InsertFreeChunkIntoBin(TryToCoalesce(h, ignore_freed_at))` -/
def coalesceIntoBin (s : Heap) (h : ChunkHandle) (ignoreFreedAt : Bool) :
    Except Fault (ChunkHandle × Heap) := do
  let (h', s) ← s.tryToCoalesce h ignoreFreedAt
  let s ← s.insertFreeChunkIntoBin h'
  .ok (h', s)

/-! ## Adding memory -/

def lastChunk (s : Heap) : Nat → ChunkHandle → Except Fault ChunkHandle
  | 0, _ => .error .endlessChain
  | fuel + 1, h => do
    let c ← s.chunkFromHandle h
    match c.next with
    | none => .ok h
    | some n => s.lastChunk fuel n

def linkToRegion (s : Heap) (r : AllocationRegion) (h : ChunkHandle) : Except Fault Heap := do
  let a ← r.slotFor r.ptr
  match s.regionManager.handles a with
  | none => .error .badHandle
  | some first => do
    let prev ← s.lastChunk s.numChunks first
    let c ← s.chunkFromHandle h
    let s := s.setChunk h { c with prev := some prev }
    let prevChunk ← s.chunkFromHandle prev
    .ok (s.setChunk prev { prevChunk with next := some h })

def linkToExtended (s : Heap) (r : Option AllocationRegion) (h : ChunkHandle) :
    Except Fault Heap :=
  match r with
  | none => .ok s
  | some r => s.linkToRegion r h

def initChunk (s : Heap) (h : ChunkHandle) (memAddr bytesReceived : Nat) : Except Fault Heap := do
  let c ← s.chunkFromHandle h
  let s := s.setChunk h
    { c with
      ptr := memAddr
      size := bytesReceived
      allocationId := -1
      prev := none
      next := none
      freedAtCount := 0 }
  s.setHandle memAddr (some h)

/-- The part of `Extend` after the sub-allocator has returned memory. -/
def addMemory (s : Heap) (coalesceRegions : Bool) (memAddr bytesReceived : Nat) :
    Except Fault Heap := do
  let added :=
    if coalesceRegions then s.regionManager.addOrExtendAllocationRegion memAddr bytesReceived
    else (none, s.regionManager.addAllocationRegion memAddr bytesReceived)
  let (h, s) ← { s with regionManager := added.2 }.allocateChunk
  let s ← s.initChunk h memAddr bytesReceived
  let s ← s.linkToExtended added.1 h
  let (_, s) ← s.coalesceIntoBin h false
  .ok s

/-! ## Giving memory back -/

/-- Is a chunk in use among those that `next` leads to? -/
def anyUse (s : Heap) : Nat → Option ChunkHandle → Except Fault Bool
  | _, none => .ok false
  | 0, some _ => .error .endlessChain
  | fuel + 1, some h => do
    let c ← s.chunkFromHandle h
    if c.inUse then .ok true else s.anyUse fuel c.next

def freeRegions (s : Heap) : List AllocationRegion → Except Fault (List AllocationRegion)
  | [] => .ok []
  | r :: rest => do
    let h ← s.regionManager.getHandle r.ptr
    let used ← s.anyUse s.numChunks h
    let free ← s.freeRegions rest
    .ok (if used then free else r :: free)

/-- `if (c->bin_num != kInvalidBinNum) RemoveFreeChunkFromBin(h)` -/
def removeIfBinned (s : Heap) (h : ChunkHandle) (c : Chunk) : Except Fault Heap :=
  if c.binNum.isSome then s.removeFreeChunkFromBin h else .ok s

/-- Delete the chunks that `next` leads to, and take them out of their bins. -/
def deleteChunks : Nat → Option ChunkHandle → Heap → Except Fault Heap
  | _, none, s => .ok s
  | 0, some _, _ => .error .endlessChain
  | fuel + 1, some h, s => do
    let c ← s.chunkFromHandle h
    let s ← s.removeIfBinned h c
    let s ← s.deleteChunk h
    deleteChunks fuel c.next s

end Heap
end TfReading.Bfc
