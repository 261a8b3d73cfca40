import TfReading.Library.IntervalTree
import TfReading.Util.Overflow

/-!
# `GlobalDecreasingSizeBestFitHeap` of `xla/service/heap_simulator.cc`

The heap records the live intervals of all buffers and assigns chunks in `Finish`.  Arithmetic
on sizes and offsets wraps around as in `int64`.  `none` stands for a lookup that fails, or for a
worklist that is not empty when the fuel is used up.  Debug checks are left out.
-/

namespace TfReading.HeapSimulator

open Util

structure Chunk where
  offset : Int
  size : Int
deriving DecidableEq

def Chunk.chunkEnd (c : Chunk) : Int := toInt64 (c.offset + c.size)

def ceilOfRatio (numerator denominator : Int) : Int :=
  let roundedTowardZero := numerator.tdiv denominator
  let intermediateProduct := roundedTowardZero * denominator
  if 0 ≤ roundedTowardZero ∧ ((0 < denominator ∧ intermediateProduct < numerator) ∨
      (denominator < 0 ∧ numerator < intermediateProduct)) then
    roundedTowardZero + 1
  else roundedTowardZero

def roundUpToNearest (value divisor : Int) : Int := toInt64 (ceilOfRatio value divisor * divisor)

structure BufferInterval (β : Type) where
  buffer : β
  size : Int
  start : Int
  stop : Int
  colocations : List β
  needAllocation : Bool
deriving DecidableEq

/-- The members of the class.  Entries of `buffer_intervals_` are in the order of insertion. -/
structure Heap (β : Type) where
  bufferIntervals : List (BufferInterval β)
  chunkMap : β → Option Chunk
  heapSize : Int
  intervalTree : IntervalTree Int Chunk
  alignment : Int
  currentTime : Int

/-- Orders that the source leaves open: of intervals for which no comparison decides, of chunks
at equal offsets, and of the elements of a hash set. -/
structure Orders (β : Type) where
  sortIntervals : List (BufferInterval β) → List (BufferInterval β)
  sortIntervals_perm : ∀ l, (sortIntervals l).Perm l
  sortChunks : List Chunk → List Chunk
  sortChunks_perm : ∀ l, (sortChunks l).Perm l
  sortChunks_sorted : ∀ l, (sortChunks l).Pairwise fun x y => x.offset ≤ y.offset
  setOrder : List β → List β
  setOrder_perm : ∀ l, (setOrder l).Perm l

variable {β : Type} [DecidableEq β]

/-- `buffer_intervals_.at(buffer)` -/
def lookup (l : List (BufferInterval β)) (buffer : β) : Option (BufferInterval β) :=
  l.find? fun i => i.buffer = buffer

/-- A write through a reference into `buffer_intervals_`. -/
def modifyAt (l : List (BufferInterval β)) (buffer : β)
    (f : BufferInterval β → BufferInterval β) : List (BufferInterval β) :=
  l.map fun i => if i.buffer = buffer then f i else i

/-- `buffer_intervals_.emplace`, which keeps an entry that is there already. -/
def emplaceInterval (l : List (BufferInterval β)) (i : BufferInterval β) :
    List (BufferInterval β) :=
  if (lookup l i.buffer).isSome then l else l ++ [i]

/-- `chunk_map.emplace`, which keeps an entry that is there already. -/
def emplace (m : β → Option Chunk) (buffer : β) (chunk : Chunk) : β → Option Chunk :=
  if (m buffer).isSome then m else Function.update m buffer (some chunk)

/-! ## Recording -/

def empty (alignment : Int) : Heap β := ⟨[], fun _ => none, 0, .nil, alignment, 0⟩

def Heap.alloc (h : Heap β) (buffer : β) (size : Int) : Heap β :=
  if size = 0 then { h with chunkMap := emplace h.chunkMap buffer ⟨0, 0⟩ }
  else { h with
    bufferIntervals :=
      emplaceInterval h.bufferIntervals ⟨buffer, size, h.currentTime, -1, [], true⟩
    currentTime := h.currentTime + 1 }

def Heap.shareWith (h : Heap β) (buffer shared : β) (size : Int) : Option (Heap β) :=
  if size = 0 then some { h with chunkMap := emplace h.chunkMap buffer ⟨0, 0⟩ }
  else if (lookup h.bufferIntervals shared).isNone then none
  else
    let intervals := modifyAt h.bufferIntervals shared fun i =>
      { i with colocations := i.colocations ++ [buffer] }
    some { h with
      bufferIntervals := emplaceInterval intervals ⟨buffer, size, h.currentTime, -1, [], false⟩
      currentTime := h.currentTime + 1 }

def Heap.free (h : Heap β) (buffer : β) (size : Int) : Option (Heap β) :=
  if size = 0 then some h
  else
    match lookup h.bufferIntervals buffer with
    | none => none
    | some i =>
      if i.stop ≠ -1 then some h
      else some { h with
        bufferIntervals := modifyAt h.bufferIntervals buffer fun i => { i with stop := h.currentTime }
        currentTime := h.currentTime + 1 }

/-! ## Colocations -/

/-- One turn of the inner loop of `GetTransitiveColocations`, with the back of the worklist as its
head. -/
def visitColocated (l : List (BufferInterval β)) (acc : List β × List (BufferInterval β))
    (buffer : β) : Option (List β × List (BufferInterval β)) :=
  (lookup l buffer).map fun i => (acc.1.insert buffer, i :: acc.2)

def colocationsLoop (l : List (BufferInterval β)) :
    Nat → List (BufferInterval β) → List β → Option (List β)
  | _, [], result => some result
  | 0, _ :: _, _ => none
  | fuel + 1, item :: worklist, result => do
    let (result, worklist) ← item.colocations.foldlM (visitColocated l) (result, worklist)
    colocationsLoop l fuel worklist result

def getTransitiveColocations (fuel : Nat) (h : Heap β) (interval : BufferInterval β) :
    Option (List β) :=
  colocationsLoop h.bufferIntervals fuel [interval] []

/-! ## Finding and committing a chunk -/

structure ChunkCandidate where
  chunk : Chunk
  heapSize : Int
deriving DecidableEq

section Candidate

variable (alignment heapSize size preferredOffset : Int)

def useFreeChunkIfSmaller (candidate : ChunkCandidate) (freeOffset freeSize : Int) :
    ChunkCandidate :=
  if freeSize < size then candidate
  else
    let preferredChunkEnd := toInt64 (preferredOffset + size)
    let candidate :=
      if freeOffset ≤ preferredOffset ∧ preferredChunkEnd ≤ toInt64 (freeOffset + freeSize) then
        { candidate with chunk := ⟨preferredOffset, size⟩ }
      else if toInt64 (freeOffset + freeSize) = heapSize ∧ freeOffset ≤ preferredOffset then
        ⟨⟨preferredOffset, size⟩, preferredChunkEnd⟩
      else candidate
    if (preferredOffset < 0 ∨ candidate.chunk.offset ≠ preferredOffset) ∧
        freeSize < candidate.chunk.size then
      { candidate with chunk := ⟨freeOffset, freeSize⟩ }
    else candidate

/-- One turn of the loop over the chunks that are in use at the same time. -/
def scanChunk (scanned : Int × ChunkCandidate) (chunk : Chunk) : Int × ChunkCandidate :=
  (max scanned.1 (roundUpToNearest chunk.chunkEnd alignment),
    if scanned.1 < chunk.offset then
      useFreeChunkIfSmaller heapSize size preferredOffset scanned.2 scanned.1
        (toInt64 (chunk.offset - scanned.1))
    else scanned.2)

/-- `FindChunkCandidate`, from the sorted chunks on. -/
def fitChunk (chunks : List Chunk) : ChunkCandidate :=
  let int64Max := 2 ^ 63 - 1
  let scanned := chunks.foldl (scanChunk alignment heapSize size preferredOffset)
    (0, ⟨⟨-1, int64Max⟩, heapSize⟩)
  let offset := scanned.1
  let candidate :=
    useFreeChunkIfSmaller heapSize size preferredOffset scanned.2 offset
      (toInt64 (heapSize - offset))
  let candidate :=
    if heapSize ≤ preferredOffset then
      ⟨⟨preferredOffset, size⟩, toInt64 (preferredOffset + size)⟩
    else candidate
  let candidate :=
    if candidate.chunk.offset = -1 then ⟨⟨offset, size⟩, toInt64 (offset + size)⟩ else candidate
  { candidate with chunk := { candidate.chunk with size } }

end Candidate

variable (orders : Orders β) (fuel : Nat)

def addOverlapping (h : Heap β) (chunks : List Chunk) (buffer : β) : Option (List Chunk) :=
  (lookup h.bufferIntervals buffer).map fun i =>
    chunks ++ h.intervalTree.overlapping i.start i.stop

def findChunkCandidate (h : Heap β) (interval : BufferInterval β) (preferredOffset : Int) :
    Option ChunkCandidate := do
  let colocations ← getTransitiveColocations fuel h interval
  let chunks ← (orders.setOrder colocations).foldlM (addOverlapping h)
    (h.intervalTree.overlapping interval.start interval.stop)
  return fitChunk h.alignment h.heapSize interval.size preferredOffset (orders.sortChunks chunks)

def commitColocated (chunk : Chunk) (h : Heap β) (buffer : β) : Option (Heap β) :=
  (lookup h.bufferIntervals buffer).map fun i =>
    { h with
      chunkMap := emplace h.chunkMap buffer chunk
      intervalTree := h.intervalTree.add ⟨i.start, i.stop, chunk⟩ }

def commitChunk (h : Heap β) (interval : BufferInterval β) (candidate : ChunkCandidate) :
    Option (Heap β) := do
  let h := { h with
    heapSize := candidate.heapSize
    intervalTree := h.intervalTree.add ⟨interval.start, interval.stop, candidate.chunk⟩ }
  let colocations ← getTransitiveColocations fuel h interval
  let h ← (orders.setOrder colocations).foldlM (commitColocated candidate.chunk) h
  return { h with chunkMap := emplace h.chunkMap interval.buffer candidate.chunk }

/-! ## Finish -/

structure HeapResult (β : Type) where
  chunkMap : β → Option Chunk
  heapSize : Int

/-- One turn of the loop of `Finish`. -/
def place (h : Heap β) (interval : BufferInterval β) : Option (Heap β) :=
  if interval.needAllocation then do
    let candidate ← findChunkCandidate orders fuel h interval (-1)
    commitChunk orders fuel h interval candidate
  else some h

def finish (h : Heap β) : Option (HeapResult β) := do
  let h ← (orders.sortIntervals h.bufferIntervals).foldlM (place orders fuel) h
  return ⟨h.chunkMap, h.heapSize⟩

/-! ## Calls -/

inductive Call (β : Type)
  | alloc (buffer : β) (size : Nat)
  | shareWith (buffer shared : β) (size : Nat)
  | free (buffer : β) (size : Nat)
deriving DecidableEq

def Call.exec (h : Heap β) : Call β → Option (Heap β)
  | .alloc buffer size => some (h.alloc buffer size)
  | .shareWith buffer shared size => h.shareWith buffer shared size
  | .free buffer size => h.free buffer size

def run (alignment : Int) (calls : List (Call β)) : Option (Heap β) :=
  calls.foldlM Call.exec (empty alignment)

end TfReading.HeapSimulator
