import TfReading.Table.Coding
import TfReading.Library.Runs

/-!
# Blocks of a table

`Block` and `Block::Iter` of `core/lib/io/block.cc`.  Integers of type `uint32` are
reduced modulo `2 ^ 32` wherever the C++ adds them or stores a `size_t` in them.
A `StringPiece` into the block is the pair of its offset and its size.

The search of `Seek` need not end: for more than `2 ^ 31` restart points the sum of
the two bounds wraps.  Its loops therefore get a number of turns.  The field `ends`
of an iterator is not in the source.  It collects, for every pointer that
`DecodeEntry` returned, the end of the value behind it.
-/

namespace TfReading.Table

inductive Status
  | ok
  | dataLoss (message : String)
deriving DecidableEq, Repr

/-- What `DecodeEntry` stores, with the pointer to the key delta that it returns. -/
structure Entry where
  delta : Nat
  shared : Nat
  nonShared : Nat
  valueLength : Nat
deriving DecidableEq, Repr

/-- Where the value ends, computed without wrapping. -/
def Entry.stop (e : Entry) : Nat := e.delta + e.nonShared + e.valueLength

def decodeLengths (data : List UInt8) (p limit : Nat) : Except Fault (Option Entry) := do
  let shared ← byteAt data p
  let nonShared ← byteAt data (p + 1)
  let valueLength ← byteAt data (p + 2)
  if (shared ||| nonShared ||| valueLength) < 128 then
    -- Fast path: all three values are encoded in one byte each
    return some ⟨p + 3, shared, nonShared, valueLength⟩
  let some (p, shared) ← getVarint32Ptr data p limit | return none
  let some (p, nonShared) ← getVarint32Ptr data p limit | return none
  let some (p, valueLength) ← getVarint32Ptr data p limit | return none
  return some ⟨p, shared, nonShared, valueLength⟩

def decodeEntry (data : List UInt8) (p limit : Nat) : Except Fault (Option Entry) := do
  if limit < p + 3 then return none
  let some e ← decodeLengths data p limit | return none
  if (limit - e.delta) % 2 ^ 32 < (e.nonShared + e.valueLength) % 2 ^ 32 then return none
  return some e

/-- A block.  `restartOffset` is not read when `size` is zero. -/
structure Block where
  data : List UInt8
  size : Nat
  restartOffset : Nat
deriving DecidableEq, Repr

def Block.numRestarts (b : Block) : Except Fault Nat :=
  if 4 ≤ b.size then decodeFixed32 b.data (b.size - 4) else .error .assertion

/-- The constructor.  A `size` of zero marks contents that are no block. -/
def Block.new (contents : List UInt8) : Except Fault Block := do
  let b : Block := ⟨contents, contents.length, 0⟩
  if b.size < 4 then return { b with size := 0 }
  let maxRestartsAllowed := (b.size - 4) / 4
  let n ← b.numRestarts
  if maxRestartsAllowed < n then return { b with size := 0 }
  return { b with restartOffset := (b.size - (1 + n) % 2 ^ 32 * 4) % 2 ^ 32 }

structure Piece where
  start : Nat
  size : Nat
deriving DecidableEq, Repr

/-- The null piece.  Only an invalid iterator holds it, which `Next` refuses. -/
def Piece.null : Piece := ⟨0, 0⟩

structure Iter where
  data : List UInt8
  restarts : Nat
  numRestarts : Nat
  current : Nat
  restartIndex : Nat
  key : List UInt8 := []
  value : Piece := .null
  status : Status := .ok
  ends : List Nat := []
deriving DecidableEq, Repr

namespace Iter

def new (data : List UInt8) (restarts numRestarts : Nat) : Except Fault Iter :=
  if 0 < numRestarts then
    .ok { data, restarts, numRestarts, current := restarts, restartIndex := numRestarts }
  else .error .assertion

def valid (it : Iter) : Bool := it.current < it.restarts

def nextEntryOffset (it : Iter) : Nat := (it.value.start + it.value.size) % 2 ^ 32

def getRestartPoint (it : Iter) (index : Nat) : Except Fault Nat :=
  if index < it.numRestarts then decodeFixed32 it.data (it.restarts + index * 4)
  else .error .assertion

def seekToRestartPoint (it : Iter) (index : Nat) : Except Fault Iter := do
  let offset ← it.getRestartPoint index
  return { it with key := [], restartIndex := index, value := ⟨offset, 0⟩ }

def corruptionError (it : Iter) : Iter :=
  { it with
    current := it.restarts
    restartIndex := it.numRestarts
    status := .dataLoss "bad entry in block"
    key := []
    value := .null }

/-- The loop at the end of `ParseNextKey`, which takes at most as many turns as there are restart
points left. -/
def skipRestarts : Nat → Iter → Except Fault Iter
  | 0, it => .ok it
  | turns + 1, it =>
    if it.restartIndex + 1 < it.numRestarts then do
      let point ← it.getRestartPoint (it.restartIndex + 1)
      if point < it.current then
        skipRestarts turns { it with restartIndex := it.restartIndex + 1 }
      else return it
    else .ok it

/-- `DecodeEntry` at `p`, with the note of where the entry ends. -/
def decode (it : Iter) (p : Nat) : Except Fault (Iter × Option Entry) := do
  match ← decodeEntry it.data p it.restarts with
  | some e => return ({ it with ends := e.stop :: it.ends }, some e)
  | none => return (it, none)

/-- The entry at `current` becomes the current one. -/
def takeEntry (it : Iter) (e : Entry) : Except Fault Iter := do
  let delta ← slice it.data e.delta e.nonShared
  skipRestarts it.numRestarts
    { it with
      key := it.key.take e.shared ++ delta
      value := ⟨e.delta + e.nonShared, e.valueLength⟩ }

def parseNextKey (it : Iter) : Except Fault (Iter × Bool) := do
  let it := { it with current := it.nextEntryOffset }
  if it.restarts ≤ it.current then
    -- No more entries to return.  Mark as invalid.
    return ({ it with current := it.restarts, restartIndex := it.numRestarts }, false)
  match ← it.decode it.current with
  | (it, none) => return (it.corruptionError, false)
  | (it, some e) =>
    if it.key.length < e.shared then return (it.corruptionError, false)
    return (← it.takeEntry e, true)

/-- The binary search of `Seek` for the last restart point with a key below `target`.  The result
is `none` after a corruption. -/
def searchRestarts (target : List UInt8) : Nat → Iter → Nat → Nat → Except Fault (Iter × Option Nat)
  | 0, it, _, _ => .error (.looping it.ends)
  | turns + 1, it, left, right =>
    if left < right then do
      let mid := (left + right + 1) % 2 ^ 32 / 2
      let regionOffset ← it.getRestartPoint mid
      match ← it.decode regionOffset with
      | (it, none) => return (it.corruptionError, none)
      | (it, some e) =>
        if e.shared ≠ 0 then return (it.corruptionError, none)
        let midKey ← slice it.data e.delta e.nonShared
        if midKey < target then
          -- All blocks before `mid` are uninteresting
          searchRestarts target turns it mid right
        else
          -- All blocks at or after `mid` are uninteresting
          searchRestarts target turns it left ((mid + 2 ^ 32 - 1) % 2 ^ 32)
    else .ok (it, some left)

/-- The linear search of `Seek` for the first key that is not below `target`. -/
def scan (target : List UInt8) : Nat → Iter → Except Fault Iter
  | 0, it => .error (.looping it.ends)
  | turns + 1, it => do
    match ← it.parseNextKey with
    | (it, false) => return it
    | (it, true) => if it.key < target then scan target turns it else return it

def seek (turns : Nat) (target : List UInt8) (it : Iter) : Except Fault Iter := do
  match ← searchRestarts target turns it 0 (it.numRestarts - 1) with
  | (it, none) => return it
  | (it, some left) => scan target turns (← it.seekToRestartPoint left)

def seekToFirst (it : Iter) : Except Fault Iter := do
  let it ← it.seekToRestartPoint 0
  return (← it.parseNextKey).1

def next (it : Iter) : Except Fault Iter :=
  if it.valid then do return (← it.parseNextKey).1 else .error .assertion

end Iter

/-- What `NewIterator` makes: an iterator over the block, or an `EmptyIterator` with its status. -/
inductive Iterator
  | empty (status : Status)
  | block (it : Iter)
deriving DecidableEq, Repr

def Block.newIterator (b : Block) : Except Fault Iterator := do
  if b.size < 4 then return .empty (.dataLoss "bad block contents")
  let numRestarts ← b.numRestarts
  if numRestarts = 0 then return .empty .ok
  return .block (← Iter.new b.data b.restartOffset numRestarts)

inductive Call
  | seekToFirst
  | seek (turns : Nat) (target : List UInt8)
  | next
deriving DecidableEq, Repr

namespace Iterator

def valid : Iterator → Bool
  | empty _ => false
  | block it => it.valid

def status : Iterator → Status
  | empty s => s
  | block it => it.status

def seekToFirst : Iterator → Except Fault Iterator
  | empty s => .ok (empty s)
  | block it => do return block (← it.seekToFirst)

def seek (turns : Nat) (target : List UInt8) : Iterator → Except Fault Iterator
  | empty s => .ok (empty s)
  | block it => do return block (← it.seek turns target)

def next : Iterator → Except Fault Iterator
  | empty _ => .error .assertion
  | block it => do return block (← it.next)

def call (i : Iterator) : Call → Except Fault Iterator
  | .seekToFirst => i.seekToFirst
  | .seek turns target => i.seek turns target
  | .next => i.next

end Iterator
end TfReading.Table
