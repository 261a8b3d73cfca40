import Mathlib.Algebra.Ring.Nat

/-!
# Reading bytes and variable-length integers

The readers of `core/platform/coding.cc` and `core/platform/raw_coding.h`.  A
pointer is an offset into the memory `data`, and a read outside that memory is a
fault rather than a value.  A null result is `none`.
-/

namespace TfReading.Table

/-- How a call can end other than by returning. -/
inductive Fault
  | outOfBounds
  | assertion
  /-- The loop is not over after the turns it was given.  `ends` are the ends of the entries that
  were decoded up to there. -/
  | looping (ends : List Nat)
deriving DecidableEq, Repr

def byteAt (data : List UInt8) (p : Nat) : Except Fault Nat :=
  match data[p]? with
  | some b => .ok b.toNat
  | none => .error .outOfBounds

def slice (data : List UInt8) (p n : Nat) : Except Fault (List UInt8) :=
  if p + n ≤ data.length then .ok ((data.drop p).take n) else .error .outOfBounds

def decodeFixed32 (data : List UInt8) (p : Nat) : Except Fault Nat := do
  let b₀ ← byteAt data p
  let b₁ ← byteAt data (p + 1)
  let b₂ ← byteAt data (p + 2)
  let b₃ ← byteAt data (p + 3)
  return b₀ + b₁ * 2 ^ 8 + b₂ * 2 ^ 16 + b₃ * 2 ^ 24

/-- The loop of `GetVarint32PtrFallback` and `GetVarint64Ptr`.  The bound on `shift` is the number
of `rounds`, and `result` has `width` bits. -/
def getVarintLoop (width : Nat) (data : List UInt8) (limit : Nat) :
    Nat → Nat → Nat → Nat → Except Fault (Option (Nat × Nat))
  | 0, _, _, _ => .ok none
  | rounds + 1, shift, p, result =>
    if p < limit then do
      let byte ← byteAt data p
      if byte &&& 128 ≠ 0 then
        -- More bytes are present
        getVarintLoop width data limit rounds (shift + 7) (p + 1)
          (result ||| ((byte &&& 127) <<< shift) % 2 ^ width)
      else
        .ok (some (p + 1, result ||| (byte <<< shift) % 2 ^ width))
    else .ok none

def getVarint32PtrFallback (data : List UInt8) (p limit : Nat) : Except Fault (Option (Nat × Nat)) :=
  getVarintLoop 32 data limit 5 0 p 0

/-- The pointer past the integer, and the integer. -/
def getVarint32Ptr (data : List UInt8) (p limit : Nat) : Except Fault (Option (Nat × Nat)) :=
  if p < limit then do
    let result ← byteAt data p
    if result &&& 128 = 0 then .ok (some (p + 1, result)) else getVarint32PtrFallback data p limit
  else getVarint32PtrFallback data p limit

end TfReading.Table
