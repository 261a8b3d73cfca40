import TfReading.Util.Overflow

/-!
# `core/framework/tensor_shape.h` and `tensor_shape.cc`

`TensorShape` and `PartialTensorShape` share one representation and one set of functions, which
`kIsPartial` tells apart.  A function that may fail a `CHECK` returns `none` then.  A function
that returns a `Status` also returns the shape that it leaves behind.  The data type byte is left
out.
-/

namespace TfReading.TensorShape

open Util

/-- The dimensions in the inline buffer, or in the vector that the buffer points to.  The
constructors are `REP16`, `REP32` and `REP_OUT_OF_LINE`. -/
inductive Rep
  | rep16 (dims : Vector (BitVec 16) 6)
  | rep32 (dims : Vector (BitVec 32) 3)
  | outOfLine (dims : List Int)
deriving DecidableEq

structure TensorShapeRep where
  rep : Rep
  ndimsByte : Nat
  numElements : Int
deriving DecidableEq

/-- `Status`, with the codes that occur here. -/
inductive Status
  | ok
  | internal (message : String)
  | invalidArgument (message : String)
deriving DecidableEq

def maxDimensions : Nat := 254

def kUnknownRank : Nat := 255

/-- `kMaxRep16` and `kMaxRep32` -/
def kMaxRep (w : Nat) : Int := 2 ^ w - 1 - 1

/-- `kUnknownRep16` and `kUnknownRep32` -/
def kUnknownRep (w : Nat) : BitVec w := BitVec.allOnes w

/-- `TensorShapeRep::ClearAllButDataType`.  The buffer keeps its bytes, but with `REP16` and no
dimensions none of them is read. -/
def clear : TensorShapeRep := ⟨.rep16 (Vector.replicate 6 0), 0, 1⟩

/-- `TensorShapeRep::operator=` with `SlowCopyFrom`: the buffer, or a copy of the vector. -/
def copyFrom (s b : TensorShapeRep) : TensorShapeRep :=
  match b.rep with
  | .outOfLine v =>
    { s with rep := .outOfLine v, ndimsByte := b.ndimsByte, numElements := b.numElements }
  | buf => { s with rep := buf, ndimsByte := b.ndimsByte, numElements := b.numElements }

def checkOk : Status × TensorShapeRep → Option TensorShapeRep
  | (.ok, s) => some s
  | _ => none

def debugString (unknownRank : Bool) (dimSizes : List Int) : String :=
  if unknownRank then "<unknown>"
  else "[" ++ ",".intercalate (dimSizes.map fun d => if d < 0 then "?" else toString d) ++ "]"

variable (kIsPartial : Bool)

/-! ## Reading -/

/-- The word that stands for `size`. -/
def encode (w : Nat) (size : Int) : BitVec w :=
  if kIsPartial ∧ size < 0 then kUnknownRep w else BitVec.ofInt w size

def decode {w : Nat} (dim : BitVec w) : Int :=
  if kIsPartial ∧ dim = kUnknownRep w then -1 else dim.toNat

def unknownRank (s : TensorShapeRep) : Bool := kIsPartial && s.ndimsByte == kUnknownRank

def dims (s : TensorShapeRep) : Int := if unknownRank kIsPartial s then -1 else s.ndimsByte

def Rep.dimSize (rep : Rep) (d : Nat) : Int :=
  match rep with
  | .rep16 dims => decode kIsPartial (dims[d]?.getD 0)
  | .rep32 dims => decode kIsPartial (dims[d]?.getD 0)
  | .outOfLine dims => dims[d]?.getD 0

def dimSize (s : TensorShapeRep) (d : Nat) : Int :=
  if unknownRank kIsPartial s then -1 else s.rep.dimSize kIsPartial d

/-- The sizes that a loop over the shape sees: `AppendTo` and `dim_sizes`.  The iterator of a
shape of unknown rank starts at `0` and ends at `-1`, which it finds after all other values of
an `int`. -/
def dimSizes (s : TensorShapeRep) : List Int :=
  (List.range (if unknownRank kIsPartial s then 2 ^ 32 - 1 else s.ndimsByte)).map
    (dimSize kIsPartial s)

/-- The loop of `RecomputeNumElements`, where `none` says that there was an overflow. -/
def recomputeLoop (n : Int) : List Int → Option Int
  | [] => some n
  | size :: sizes =>
    if kIsPartial ∧ size < 0 then some (-1)
    else if multiplyWithoutOverflow n size < 0 then none
    else recomputeLoop (multiplyWithoutOverflow n size) sizes

def recomputeNumElements (s : TensorShapeRep) : Status × TensorShapeRep :=
  if unknownRank kIsPartial s then (.ok, { s with numElements := -1 })
  else
    match recomputeLoop kIsPartial 1 (dimSizes kIsPartial s) with
    | none => (.invalidArgument ("Shape " ++ debugString (unknownRank true s) (dimSizes true s) ++
        " results in overflow when computing number of elements"), s)
    | some n => (.ok, { s with numElements := n })

/-! ## Adding a dimension -/

/-- The case of `UnsafeAddDim` that has to change the representation. -/
def Rep.ofSizes (vals : List Int) : Rep :=
  if vals.length ≤ 3 ∧ ∀ v ∈ vals, v < kMaxRep 32 then
    .rep32 (Vector.ofFn fun d : Fin 3 => encode kIsPartial 32 (vals.getD d 0))
  else .outOfLine vals

def unsafeAddDim (s : TensorShapeRep) (size newNumElements : Int) : TensorShapeRep :=
  let nd := s.ndimsByte
  let rep : Rep :=
    match s.rep with
    | .rep16 dims =>
      if nd < 6 ∧ size < kMaxRep 16 then
        .rep16 (dims.setIfInBounds nd (encode kIsPartial 16 size))
      else .ofSizes kIsPartial (dimSizes kIsPartial s ++ [size])
    | .rep32 dims =>
      if nd < 3 ∧ size < kMaxRep 32 then
        .rep32 (dims.setIfInBounds nd (encode kIsPartial 32 size))
      else .ofSizes kIsPartial (dimSizes kIsPartial s ++ [size])
    | .outOfLine dims => .outOfLine (dims ++ [size])
  ⟨rep, nd + 1, newNumElements⟩

def addDim (s : TensorShapeRep) (size : Int) : Option TensorShapeRep :=
  if ¬kIsPartial ∧ size < 0 then none
  else if unknownRank kIsPartial s then some s
  else if maxDimensions ≤ s.ndimsByte then none
  else if kIsPartial ∧ (s.numElements < 0 ∨ size < 0) then
    some (unsafeAddDim kIsPartial s size (-1))
  else if multiplyWithoutOverflow s.numElements size < 0 then none
  else some (unsafeAddDim kIsPartial s size (multiplyWithoutOverflow s.numElements size))

def addDimWithStatus (s : TensorShapeRep) (size : Int) : Status × TensorShapeRep :=
  if ¬kIsPartial ∧ size < 0 then (.internal s!"Expected a non-negative size, got {size}", s)
  else if unknownRank kIsPartial s then (.ok, s)
  else if maxDimensions ≤ s.ndimsByte then (.internal "Too many dimensions in tensor", s)
  else if kIsPartial ∧ (s.numElements < 0 ∨ size < 0) then
    (.ok, unsafeAddDim kIsPartial s size (-1))
  else
    let newNumElements := multiplyWithoutOverflow s.numElements size
    if newNumElements < 0 then
      (.internal ("Encountered overflow when multiplying " ++ toString s.numElements ++ " with " ++
        toString size ++ ", result: " ++ toString newNumElements), s)
    else (.ok, unsafeAddDim kIsPartial s size newNumElements)

/-- `for (auto dval : vals) AddDim(dval)` -/
def addDims (s : TensorShapeRep) (vals : List Int) : Option TensorShapeRep :=
  vals.foldlM (addDim kIsPartial) s

/-- The same loop with `AddDimWithStatus`, which returns at the first status that is not `OK`. -/
def addDimsWithStatus (s : TensorShapeRep) : List Int → Status × TensorShapeRep
  | [] => (.ok, s)
  | dval :: vals =>
    match addDimWithStatus kIsPartial s dval with
    | (.ok, s') => addDimsWithStatus s' vals
    | failed => failed

def appendShape (s shape : TensorShapeRep) : Option TensorShapeRep :=
  addDims kIsPartial s (dimSizes kIsPartial shape)

def appendShapeWithStatus (s shape : TensorShapeRep) : Status × TensorShapeRep :=
  addDimsWithStatus kIsPartial s (dimSizes kIsPartial shape)

/-! ## Construction -/

def kMaxSmall : Int := 0xd744

/-- `InitDims` on a buffer with tag `REP16`.  The cases for one to four small sizes differ in
their number of sizes only. -/
def initDims (sizes : List Int) : Status × TensorShapeRep :=
  let largeSize := sizes.any fun s => kMaxSmall < s
  match if kIsPartial ∨ largeSize then none else sizes.find? (· < 0) with
  | some s => (.internal s!"Expected shape dimensions to be non-negative, got {s}", clear)
  | none =>
    if !largeSize ∧ 1 ≤ sizes.length ∧ sizes.length ≤ 4 then
      let dst := Vector.ofFn fun d : Fin 6 => encode kIsPartial 16 (sizes.getD d 0)
      let neg := sizes.any fun s => kIsPartial && s < 0
      (.ok, ⟨.rep16 dst, sizes.length, if neg then -1 else toInt64 sizes.prod⟩)
    else addDimsWithStatus kIsPartial clear sizes

def ofDimSizes (sizes : List Int) : Option TensorShapeRep := checkOk (initDims kIsPartial sizes)

def partialTensorShape : TensorShapeRep := ⟨.rep16 (Vector.replicate 6 0), kUnknownRank, -1⟩

/-! ## Inserting, setting and removing dimensions -/

def insertDim (s : TensorShapeRep) (d size : Int) : Option TensorShapeRep :=
  if d < 0 then none
  else if dims kIsPartial s < d then none
  else if ¬kIsPartial ∧ size < 0 then none
  else if maxDimensions ≤ dims kIsPartial s then none
  else addDims kIsPartial clear ((dimSizes kIsPartial s).insertIdx d.toNat size)

def insertDimWithStatus (s : TensorShapeRep) (d size : Int) : Status × TensorShapeRep :=
  if ¬kIsPartial ∧ size < 0 then (.internal s!"Expected a non-negative size, got {size}", s)
  else if d < 0 then (.internal s!"The insertion index must be non-negative, got {d}", s)
  else if dims kIsPartial s < d then
    (.internal ("The insertion index must be at most " ++ toString (dims kIsPartial s) ++
      " got " ++ toString d), s)
  else if maxDimensions ≤ dims kIsPartial s then
    (.internal ("Shape has " ++ toString (dims kIsPartial s) ++
      " dimensions which is the maximum allowed"), s)
  else addDimsWithStatus kIsPartial clear ((dimSizes kIsPartial s).insertIdx d.toNat size)

/-- The write of `set_dim` in place, if the representation has room for the size. -/
def Rep.setDim (rep : Rep) (d : Nat) (size : Int) : Option Rep :=
  match rep with
  | .rep16 dims =>
    if size < kMaxRep 16 then some (.rep16 (dims.setIfInBounds d (encode kIsPartial 16 size)))
    else none
  | .rep32 dims =>
    if size < kMaxRep 32 then some (.rep32 (dims.setIfInBounds d (encode kIsPartial 32 size)))
    else none
  | .outOfLine dims => some (.outOfLine (dims.set d size))

def setDim (s : TensorShapeRep) (d size : Int) : Option TensorShapeRep :=
  if d < 0 then none
  else if dims kIsPartial s ≤ d then none
  else if size < 0 then none
  else
    match s.rep.setDim kIsPartial d.toNat size with
    | some rep => checkOk (recomputeNumElements kIsPartial { s with rep })
    | none => do
      let s ← addDims kIsPartial clear ((dimSizes kIsPartial s).set d.toNat size)
      checkOk (recomputeNumElements kIsPartial s)

def setDimWithStatus (s : TensorShapeRep) (d size : Int) : Status × TensorShapeRep :=
  if d < 0 then (.internal s!"Index must be non-negative, got {d}", s)
  else if dims kIsPartial s ≤ d then
    (.internal ("Index must be less than " ++ toString (dims kIsPartial s) ++ ", got " ++
      toString d), s)
  else if size < 0 then (.internal s!"Expected a non-negative size, got {size}", s)
  else
    match s.rep.setDim kIsPartial d.toNat size with
    | some rep => recomputeNumElements kIsPartial { s with rep }
    | none =>
      match addDimsWithStatus kIsPartial clear ((dimSizes kIsPartial s).set d.toNat size) with
      | (.ok, s) => recomputeNumElements kIsPartial s
      | failed => failed

/-- A negative bound counts from behind, with `-1` for the end. -/
def fromEnd (n bound : Int) : Int := if bound < 0 then n + bound + 1 else bound

/-- `vals.erase(vals.begin() + begin, vals.begin() + end)` -/
def eraseRange (vals : List Int) (first last : Int) : List Int :=
  vals.take first.toNat ++ vals.drop last.toNat

def removeDimRange (s : TensorShapeRep) (first last : Int) : Option TensorShapeRep :=
  if unknownRank kIsPartial s then some s
  else
    let first := fromEnd (dims kIsPartial s) first
    let last := fromEnd (dims kIsPartial s) last
    if first < 0 then none
    else if dims kIsPartial s < first then none
    else if last < 0 then none
    else if dims kIsPartial s < last then none
    else if last ≤ first then some s
    else do
      let s ← addDims kIsPartial clear (eraseRange (dimSizes kIsPartial s) first last)
      checkOk (recomputeNumElements kIsPartial s)

def removeDimRangeWithStatus (s : TensorShapeRep) (first last : Int) : Status × TensorShapeRep :=
  if unknownRank kIsPartial s then (.ok, s)
  else
    let first := fromEnd (dims kIsPartial s) first
    let last := fromEnd (dims kIsPartial s) last
    if first < 0 then (.internal s!"Start index must be non-negative, got {first}", s)
    else if dims kIsPartial s < first then
      (.internal ("Start index must be less than " ++ toString (dims kIsPartial s) ++ ", got " ++
        toString first), s)
    else if last < 0 then (.internal s!"End index must be non-negative, got {last}", s)
    else if dims kIsPartial s < last then
      (.internal ("End index must be less than " ++ toString (dims kIsPartial s) ++ ", got " ++
        toString last), s)
    else if last ≤ first then (.ok, s)
    else
      match addDimsWithStatus kIsPartial clear
        (eraseRange (dimSizes kIsPartial s) first last) with
      | (.ok, s) => recomputeNumElements kIsPartial s
      | failed => failed

def removeLastDims (s : TensorShapeRep) (n : Int) : Option TensorShapeRep :=
  if dims kIsPartial s < n then none
  else removeDimRange kIsPartial s (toInt32 (dims kIsPartial s - n)) (dims kIsPartial s)

/-- `RemoveLastDimsWithStatus` takes an `int64`, which becomes an `int` in the call. -/
def removeLastDimsWithStatus (s : TensorShapeRep) (n : Int) : Status × TensorShapeRep :=
  if n < dims kIsPartial s then
    (.internal ("Expected dimension index to be at most " ++ toString (dims kIsPartial s) ++
      " got " ++ toString n), s)
  else
    removeDimRangeWithStatus kIsPartial s (toInt32 (dims kIsPartial s - n)) (dims kIsPartial s)

/-! ## `PartialTensorShape::Concatenate` -/

/-- The two shapes that `ConcatenateWithStatus` may write to. -/
structure Concatenated where
  this : TensorShapeRep
  out : TensorShapeRep
deriving DecidableEq

def concatenate (this : TensorShapeRep) (size : Int) : Option TensorShapeRep :=
  addDim true this size

/-- The assignment to `out` redirects the pointer to the receiver, which is extended in place. -/
def concatenateWithStatus (this : TensorShapeRep) (size : Int) (out : TensorShapeRep) :
    Status × Concatenated :=
  let (status, this) := addDimWithStatus true this size
  (status, ⟨this, out⟩)

def concatenateShape (this shape : TensorShapeRep) : Option TensorShapeRep :=
  if unknownRank true this ∨ unknownRank true shape then some partialTensorShape
  else addDims true this (dimSizes true shape)

def concatenateShapeWithStatus (this shape out : TensorShapeRep) : Status × Concatenated :=
  if unknownRank true this ∨ unknownRank true shape then (.ok, ⟨this, partialTensorShape⟩)
  else
    let (status, this) := addDimsWithStatus true this (dimSizes true shape)
    (status, ⟨this, out⟩)

end TfReading.TensorShape
