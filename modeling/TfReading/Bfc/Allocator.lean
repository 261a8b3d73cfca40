import Mathlib.Algebra.Order.Ring.Int
import TfReading.Bfc.Heap

/-!
# `BFCAllocator`

The calls of the allocator, over a sub-allocator that is any object which hands out memory
the way `SubAllocator` promises.  Logging, tracing and the memory-debug fields are left out.

`retry_helper_` repeats `AllocateRawInternal` while other threads may call in between, so one
attempt is one step here.  The two loops of `Extend` need not end: they are given a number of
rounds, and `noReturn` says that the rounds did not suffice.
-/

namespace TfReading.Bfc

/-- A `SubAllocator`.  `owns s a` says that the byte at `a` is lent out in state `s`. -/
structure SubAllocator where
  State : Type
  initial : State
  /-- `Alloc(alignment, num_bytes, &bytes_received)`: the address and `bytes_received`. -/
  alloc : State → Nat → Nat → Option (Nat × Nat) × State
  /-- `Free(ptr, num_bytes)` -/
  free : State → Nat → Nat → State
  supportsCoalescing : Bool
  owns : State → Nat → Prop
  not_owns_initial : ∀ a, ¬owns initial a
  /-- A region is aligned, in units of 256 bytes, at least as large as asked, and disjoint
  from what is lent out already. -/
  alloc_some : ∀ {s alignment numBytes p n s'},
    alloc s alignment numBytes = (some (p, n), s') →
      p ≠ 0 ∧ kMinAllocationSize ∣ p ∧ kMinAllocationSize ∣ n ∧ numBytes ≤ n ∧ p + n < wordSize ∧
        (∀ a, p ≤ a → a < p + n → ¬owns s a) ∧
        ∀ a, owns s' a ↔ owns s a ∨ (p ≤ a ∧ a < p + n)
  alloc_none : ∀ {s alignment numBytes s'}, alloc s alignment numBytes = (none, s') →
    ∀ a, owns s' a ↔ owns s a
  free_owns : ∀ s p n a, owns (free s p n) a ↔ owns s a ∧ ¬(p ≤ a ∧ a < p + n)

structure Config where
  memoryLimit : Nat
  allowGrowth : Bool
  garbageCollection : Bool
  /-- Is `timing_counter_` set? -/
  timingCounter : Bool
  /-- `kMaxInternalFragmentation`, which a subclass may set to a fraction of the limit. -/
  maxInternalFragmentation : Nat := 128 <<< 20

def toInt64 (n : Int) : Int := Int.bmod n wordSize

structure AllocatorStats where
  numAllocs : Int := 0
  bytesInUse : Int := 0
  peakBytesInUse : Int := 0
  /-- Compared and stored through its unsigned value. -/
  largestAllocSize : Nat := 0
  deriving DecidableEq, Repr

def AllocatorStats.addChunk (t : AllocatorStats) (size : Nat) : AllocatorStats :=
  { numAllocs := t.numAllocs + 1
    bytesInUse := toInt64 (t.bytesInUse + size)
    peakBytesInUse := max t.peakBytesInUse (toInt64 (t.bytesInUse + size))
    largestAllocSize := max t.largestAllocSize size }

def AllocatorStats.freeChunk (t : AllocatorStats) (size : Nat) : AllocatorStats :=
  { t with bytesInUse := toInt64 (t.bytesInUse - size) }

structure State (sub : SubAllocator) where
  heap : Heap
  stats : AllocatorStats
  nextAllocationId : Int
  totalRegionAllocatedBytes : Nat
  currRegionAllocationBytes : Nat
  startedBackpedal : Bool
  /-- `timestamped_chunks_`, front first. -/
  timestampedChunks : List ChunkHandle
  safeFrontier : Nat
  subAllocator : sub.State

namespace State

variable {sub : SubAllocator} (cfg : Config)

/-- The constructor. -/
def initial (sub : SubAllocator) (cfg : Config) : State sub where
  heap := Heap.empty
  stats := {}
  nextAllocationId := 1
  totalRegionAllocatedBytes := 0
  currRegionAllocationBytes :=
    roundedBytes (if cfg.allowGrowth then min cfg.memoryLimit (2 <<< 20) else cfg.memoryLimit)
  startedBackpedal := false
  timestampedChunks := []
  safeFrontier := 0
  subAllocator := sub.initial

/-! ## `FindChunkPtr` -/

def fits (c : Chunk) (roundedBytes freedBefore : Nat) : Bool :=
  !(decide (0 < freedBefore) && decide (freedBefore < c.freedAtCount)) &&
    decide (roundedBytes ≤ c.size)

/-- The chunk that the two loops of `FindChunkPtr` stop at, and its bin. -/
def firstFit (s : Heap) (binNum : BinNum) (roundedBytes freedBefore : Nat) :
    Option (BinNum × ChunkHandle) :=
  (List.range' binNum (kNumBins - binNum)).findSome? fun b =>
    ((s.bins b).find? fun h => fits (s.chunks h) roundedBytes freedBefore).map fun h => (b, h)

/-- Is the chunk split before use?  Both sides are `size_t`. -/
def splits (size roundedBytes : Nat) : Bool :=
  decide (roundedBytes * 2 % wordSize ≤ size) ||
    decide (cfg.maxInternalFragmentation ≤ (size + wordSize - roundedBytes) % wordSize)

def splitIfLarge (s : Heap) (h : ChunkHandle) (size roundedBytes : Nat) : Except Fault Heap :=
  if splits cfg size roundedBytes then s.splitChunk h roundedBytes else .ok s

def findChunkPtr (s : State sub) (binNum : BinNum) (roundedBytes numBytes freedBefore : Nat) :
    Except Fault (Option Nat × State sub) :=
  match firstFit s.heap binNum roundedBytes freedBefore with
  | none => .ok (none, s)
  | some (b, h) => do
    let heap ← s.heap.removeFreeChunkIterFromBin b h
    let chunk ← heap.chunkFromHandle h
    let heap ← splitIfLarge cfg heap h chunk.size roundedBytes
    let chunk ← heap.chunkFromHandle h
    .ok (some chunk.ptr,
      { s with
        heap := heap.setChunk h
          { chunk with requestedSize := numBytes, allocationId := s.nextAllocationId }
        nextAllocationId := s.nextAllocationId + 1
        stats := s.stats.addChunk chunk.size })

/-! ## `Extend` -/

def growAllocation (roundedBytes : Nat) : Nat → Nat → Except Fault Nat
  | 0, _ => .error .noReturn
  | rounds + 1, curr =>
    if curr < roundedBytes then growAllocation roundedBytes rounds (curr * 2 % wordSize)
    else .ok curr

/-- The nearest value of type `float`, ties to even. -/
def toFloat (n : Nat) : Nat :=
  let ulp := 2 ^ (Nat.log2 n - 23)
  let q := n / ulp
  let up := decide (ulp < n % ulp * 2) || (decide (n % ulp * 2 = ulp) && q % 2 == 1)
  (if up then q + 1 else q) * ulp

/-- `RoundedBytes(bytes * kBackpedalFactor)`, where `0.9f` is `15099494 / 2 ^ 24`. -/
def backpedalBytes (bytes : Nat) : Nat :=
  roundedBytes (toFloat (toFloat bytes * 15099494) / 2 ^ 24)

/-- The loop that asks for less and less. -/
def backpedal (alignment roundedBytes : Nat) :
    Nat → Nat → sub.State → Except Fault (Option (Nat × Nat) × sub.State)
  | 0, _, _ => .error .noReturn
  | rounds + 1, bytes, a =>
    if backpedalBytes bytes < roundedBytes then .ok (none, a)
    else
      match sub.alloc a alignment (backpedalBytes bytes) with
      | (some memory, a) => .ok (some memory, a)
      | (none, a) => backpedal alignment roundedBytes rounds (backpedalBytes bytes) a

/-- Ask the sub-allocator for `bytes`; only the first failure starts the backpedalling. -/
def requestMemory (s : State sub) (alignment roundedBytes bytes rounds : Nat) :
    Except Fault (Option (Nat × Nat) × State sub) :=
  match sub.alloc s.subAllocator alignment bytes with
  | (some memory, a) => .ok (some memory, { s with subAllocator := a })
  | (none, a) =>
    if s.startedBackpedal then .ok (none, { s with subAllocator := a })
    else do
      let (memory, a) ← backpedal alignment roundedBytes rounds bytes a
      .ok (memory, { s with startedBackpedal := true, subAllocator := a })

def availableBytes (s : State sub) : Nat :=
  (cfg.memoryLimit + wordSize - s.totalRegionAllocatedBytes) % wordSize / kMinAllocationSize *
    kMinAllocationSize

def extend (s : State sub) (alignment roundedBytes rounds : Nat) :
    Except Fault (Bool × State sub) :=
  if availableBytes cfg s < roundedBytes then .ok (false, s)
  else do
    let curr ← growAllocation roundedBytes rounds s.currRegionAllocationBytes
    let increased := decide (s.currRegionAllocationBytes < roundedBytes)
    let bytes := min curr (availableBytes cfg s)
    let (memory, s) ←
      { s with currRegionAllocationBytes := curr }.requestMemory alignment roundedBytes bytes rounds
    match memory with
    | none => .ok (false, s)
    | some (memAddr, bytesReceived) => do
      let heap ← s.heap.addMemory sub.supportsCoalescing memAddr bytesReceived
      .ok (true,
        { s with
          heap := heap
          currRegionAllocationBytes := if increased then curr else curr * 2 % wordSize
          totalRegionAllocatedBytes :=
            (s.totalRegionAllocatedBytes + bytesReceived) % wordSize })

/-! ## `DeallocateFreeRegions` -/

def deallocateRegion (s : State sub) (r : AllocationRegion) : Except Fault (State sub) := do
  let h ← s.heap.regionManager.getHandle r.ptr
  let heap ← Heap.deleteChunks s.heap.numChunks h s.heap
  .ok { s with
    heap := { heap with regionManager := heap.regionManager.removeAllocationRegion r }
    subAllocator := sub.free s.subAllocator r.ptr r.memorySize
    totalRegionAllocatedBytes :=
      (s.totalRegionAllocatedBytes + wordSize - r.memorySize) % wordSize }

def deallocateRegions (regionPtrs : List Nat) :
    List AllocationRegion → State sub → Except Fault (State sub)
  | [], s => .ok s
  | r :: rest, s =>
    if r.ptr ∈ regionPtrs then do
      let s ← s.deallocateRegion r
      deallocateRegions regionPtrs rest s
    else deallocateRegions regionPtrs rest s

def deallocateFreeRegions (s : State sub) (roundedBytes : Nat) :
    Except Fault (Bool × State sub) :=
  if cfg.garbageCollection then do
    let free ← s.heap.freeRegions s.heap.regionManager.regions
    let totalFreeBytes := (free.map (·.memorySize)).sum % wordSize
    if totalFreeBytes = 0 then .ok (false, s)
    else if (cfg.memoryLimit + wordSize - s.totalRegionAllocatedBytes + totalFreeBytes) % wordSize <
        roundedBytes then .ok (false, s)
    else do
      let s ← deallocateRegions (free.map (·.ptr)) s.heap.regionManager.regions s
      .ok (true, s)
  else .ok (false, s)

/-! ## `MergeTimestampedChunks` -/

/-- What one turn of the first loop does with the chunk of a queued handle. -/
structure Sweep where
  heap : Heap
  toMerge : List Nat := []
  newQueue : List ChunkHandle := []

/-- One turn of the first loop. -/
def sweepChunk (safeFrontier requiredBytes : Nat) (w : Sweep) (queued : ChunkHandle) :
    Except Fault Sweep := do
  let c ← w.heap.chunkFromHandle queued
  -- the chunk may have been merged already, so its handle is looked up again
  let h ← w.heap.regionManager.getHandle c.ptr
  match h with
  | none => .ok w
  | some h =>
    if c.inUse || c.binNum.isNone then .ok w
    else if c.freedAtCount = 0 then .ok { w with toMerge := w.toMerge ++ [c.ptr] }
    else if c.freedAtCount < safeFrontier then
      .ok { w with
        heap := w.heap.setChunk queued { c with freedAtCount := 0 }
        toMerge := w.toMerge ++ [c.ptr] }
    else if 0 < requiredBytes then .ok { w with toMerge := w.toMerge ++ [c.ptr] }
    else .ok { w with newQueue := w.newQueue ++ [h] }

def sweepChunks (safeFrontier requiredBytes : Nat) (w : Sweep) (queue : List ChunkHandle) :
    Except Fault Sweep :=
  queue.foldlM (sweepChunk safeFrontier requiredBytes) w

structure Merging where
  heap : Heap
  queue : List ChunkHandle
  satisfied : Bool

/-- One turn of the second loop. -/
def mergeChunkAt (requiredBytes : Nat) (w : Merging) (ptr : Nat) : Except Fault Merging := do
  let h ← w.heap.regionManager.getHandle ptr
  match h with
  | none => .ok w
  | some h =>
    if requiredBytes = 0 || !w.satisfied then do
      let heap ← w.heap.removeFreeChunkFromBin h
      let (newH, heap) ← heap.coalesceIntoBin h (decide (0 < requiredBytes))
      let c ← heap.chunkFromHandle newH
      .ok {
        heap := heap
        queue := if 0 < requiredBytes ∧ newH ≠ h ∧ 0 < c.freedAtCount then w.queue ++ [newH]
          else w.queue
        satisfied := w.satisfied || (decide (0 < requiredBytes) && decide (requiredBytes ≤ c.size)) }
    else .ok { w with queue := w.queue ++ [h] }

def mergeTimestampedChunks (s : State sub) (requiredBytes : Nat) :
    Except Fault (Bool × State sub) := do
  let swept ← sweepChunks s.safeFrontier requiredBytes { heap := s.heap } s.timestampedChunks
  let merged ← swept.toMerge.foldlM (mergeChunkAt requiredBytes)
    { heap := swept.heap, queue := swept.newQueue, satisfied := requiredBytes == 0 }
  .ok (merged.satisfied, { s with heap := merged.heap, timestampedChunks := merged.queue })

/-! ## `AllocateRawInternal` -/

/-- The arguments of one attempt, and the rounds that the loops of `Extend` are given. -/
structure Request where
  alignment : Nat
  numBytes : Nat
  freedBefore : Nat
  rounds : Nat

/-- The search that follows each way of finding more memory. -/
def tryFind (s : State sub) (q : Request) : Except Fault (Option Nat × State sub) :=
  s.findChunkPtr cfg (binNumForSize (roundedBytes q.numBytes)) (roundedBytes q.numBytes) q.numBytes
    q.freedBefore

def orElse (r : Option Nat × State sub) (f : State sub → Except Fault (Option Nat × State sub)) :
    Except Fault (Option Nat × State sub) :=
  match r with
  | (some p, s) => .ok (some p, s)
  | (none, s) => f s

def mergeSafeChunks (s : State sub) : Except Fault (State sub) :=
  if s.timestampedChunks.isEmpty then .ok s
  else do
    let (_, s) ← s.mergeTimestampedChunks 0
    .ok s

def extendAndFind (q : Request) (s : State sub) : Except Fault (Option Nat × State sub) := do
  let (extended, s) ← s.extend cfg q.alignment (roundedBytes q.numBytes) q.rounds
  if extended then s.tryFind cfg q else .ok (none, s)

/-- Without a timestamp requirement, merge the held-out chunks more aggressively. -/
def mergeAndFind (q : Request) (s : State sub) : Except Fault (Option Nat × State sub) :=
  if q.freedBefore = 0 ∧ s.timestampedChunks ≠ [] then do
    let (satisfied, s) ← s.mergeTimestampedChunks (roundedBytes q.numBytes)
    if satisfied then s.tryFind cfg q else .ok (none, s)
  else .ok (none, s)

def collectAndFind (q : Request) (s : State sub) : Except Fault (Option Nat × State sub) := do
  let (freed, s) ← s.deallocateFreeRegions cfg (roundedBytes q.numBytes)
  if freed then s.extendAndFind cfg q else .ok (none, s)

/-- The attempts up to the point where held-out chunks are merged aggressively. -/
def findOrExtend (s : State sub) (q : Request) : Except Fault (Option Nat × State sub) := do
  let s ← s.mergeSafeChunks
  let r ← s.tryFind cfg q
  orElse r (extendAndFind cfg q)

/-- The attempts up to the point where free regions are deallocated. -/
def findWithoutCollecting (s : State sub) (q : Request) :
    Except Fault (Option Nat × State sub) := do
  let r ← s.findOrExtend cfg q
  orElse r (mergeAndFind cfg q)

def allocateRawInternal (s : State sub) (q : Request) : Except Fault (Option Nat × State sub) :=
  if q.numBytes = 0 then .ok (none, s)
  else do
    let r ← s.findWithoutCollecting cfg q
    orElse r (collectAndFind cfg q)

/-! ## `DeallocateRawInternal` -/

/-- `MarkFree`, where `count` is what `timing_counter_->next()` returns. -/
def markFree (s : State sub) (h : ChunkHandle) (count : Nat) : Except Fault (State sub) := do
  let c ← s.heap.chunkFromHandle h
  check (c.inUse && c.binNum.isNone)
  .ok { s with
    heap := s.heap.setChunk h
      { c with
        allocationId := -1
        freedAtCount := if cfg.timingCounter then count else c.freedAtCount }
    stats := s.stats.freeChunk c.size }

def deallocateRawInternal (s : State sub) (ptr count : Nat) : Except Fault (State sub) :=
  if ptr = 0 then .ok s
  else do
    let h ← s.heap.regionManager.getHandle ptr
    match h with
    | none => .error .checkFailed
    | some h => do
      let s ← s.markFree cfg h count
      if cfg.timingCounter then do
        let heap ← s.heap.insertFreeChunkIntoBin h
        .ok { s with heap := heap, timestampedChunks := s.timestampedChunks ++ [h] }
      else do
        let (_, heap) ← s.heap.coalesceIntoBin h false
        .ok { s with heap := heap }

def setSafeFrontier (s : State sub) (count : Nat) : State sub :=
  { s with safeFrontier := max s.safeFrontier count }

end State
end TfReading.Bfc
