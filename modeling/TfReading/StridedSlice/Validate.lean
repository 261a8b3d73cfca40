import Mathlib.Data.BitVec

/-!
# `ValidateStridedSliceOp` (`core/util/strided_slice_op.cc`)

The tensors are vectors, of `int32` or `int64`, and shapes are lists of dimensions, with `-1` for
unknown ones.  The masks of the sparse specification are words of 32 bits.  Those of the dense
specification have one bit for each dimension, which stands here in the dimension's own record.
-/

namespace TfReading.StridedSlice

/-- The arguments besides the input shape.  Vectors for begin and end may be absent. -/
structure Spec where
  beginTensor : Option (List Int)
  endTensor : Option (List Int)
  stridesTensor : List Int
  beginMask : BitVec 32
  endMask : BitVec 32
  ellipsisMask : BitVec 32
  newAxisMask : BitVec 32
  shrinkAxisMask : BitVec 32

inductive Error
  | sizes (begin stop : Option Nat) (strides : Nat)
  | multipleEllipses
  | tooManyDims (fullIndex dims : Nat)
  | zeroStride (i : Nat)
  | shrinkStride
  | outOfBounds (index : Int) (i : Nat)
  | partialShapes (processing final : List Int)
  deriving DecidableEq

def debugString (shape : List Int) : String :=
  "[" ++ String.intercalate "," (shape.map fun d => if d < 0 then "?" else toString d) ++ "]"

def Error.message : Error → String
  | .sizes (some b) (some e) s =>
    "Expected begin, end, and strides to be 1D equal size tensors, but got shapes " ++
      debugString [b] ++ ", " ++ debugString [e] ++ ", and " ++ debugString [s] ++ " instead."
  | .sizes _ _ s =>
    "Expected begin, end, and strides to be 1D equal size tensors, but got shape " ++
      debugString [s] ++ " for strides."
  | .multipleEllipses => "Multiple ellipses in slice spec not allowed"
  | .tooManyDims fullIndex dims =>
    "Index out of range using input dim " ++ toString fullIndex ++ "; input has only " ++
      toString dims ++ " dims"
  | .zeroStride i => "strides[" ++ toString i ++ "] must be non-zero"
  | .shrinkStride => "only stride 1 allowed on non-range indexing."
  | .outOfBounds index i =>
    "slice index " ++ toString index ++ " of dimension " ++ toString i ++ " out of bounds."
  | .partialShapes processing final =>
    "ValidateStridedSliceOp returned partial shapes " ++ debugString processing ++ " and " ++
      debugString final

/-! ## The dense specification -/

/-- Where a dimension of the final shape comes from. -/
inductive Gather
  | dim (fullIndex : Nat)
  | newAxis
  | shrinkAxis
  deriving DecidableEq

/-- One dimension of the dense specification, zero before it is filled in. -/
structure DenseDim where
  beginI : Int := 0
  endI : Int := 0
  strideI : Int := 0
  beginMasked : Bool := false
  endMasked : Bool := false
  shrink : Bool := false
  /-- The entry in `input_shape_gather_indices_sparse`. -/
  sparse : Nat := 0

structure DenseSpec where
  /-- The dimensions up to `full_index`. -/
  dims : List DenseDim
  /-- `final_shape_gather_indices`, with the sparse index if there is one. -/
  gather : List (Gather × Option Nat)

/-- What is computed of the sparse specification in step 1. -/
structure SparseSpec where
  dims : Nat
  numAddAxisAfterEllipsis : Nat
  ellipsisMask : BitVec 32

def countAxes (spec : Spec) : List Nat → Bool → Nat → Bool × Nat
  | [], ellipsisSeen, count => (ellipsisSeen, count)
  | i :: is, ellipsisSeen, count =>
    countAxes spec is (ellipsisSeen || spec.ellipsisMask.getLsbD i)
      (if ellipsisSeen && spec.newAxisMask.getLsbD i then count + 1 else count)

/-- Step 1, in which an ellipsis is inserted at the end if there is none. -/
def sparseSpec (spec : Spec) : SparseSpec :=
  let dims := spec.stridesTensor.length
  let (ellipsisSeen, count) := countAxes spec (List.range dims) false 0
  if ellipsisSeen then ⟨dims, count, spec.ellipsisMask⟩
  else ⟨dims + 1, count, spec.ellipsisMask ||| BitVec.twoPow 32 dims⟩

namespace DenseSpec

/-- A dimension that the ellipsis stands for. -/
def pushAll (s : DenseSpec) (i : Nat) : DenseSpec where
  dims := s.dims ++ [{ strideI := 1, beginMasked := true, endMasked := true, sparse := i }]
  gather := s.gather ++ [(.dim s.dims.length, none)]

def expandEllipsis (i : Nat) : Nat → DenseSpec → DenseSpec
  | 0, s => s
  | m + 1, s => expandEllipsis i m (s.pushAll i)

def pushNewAxis (s : DenseSpec) : DenseSpec := { s with gather := s.gather ++ [(.newAxis, none)] }

/-- The dimension of an entry of the sparse specification. -/
def entry (spec : Spec) (i : Nat) : DenseDim where
  beginI := (spec.beginTensor.map fun b => b.getD i 0).getD 0
  endI := (spec.endTensor.map fun e => e.getD i 0).getD 0
  strideI := spec.stridesTensor.getD i 0
  beginMasked := spec.beginMask.getLsbD i
  endMasked := spec.endMask.getLsbD i
  shrink := spec.shrinkAxisMask.getLsbD i
  sparse := i

def pushEntry (spec : Spec) (s : DenseSpec) (i : Nat) : DenseSpec where
  dims := s.dims ++ [entry spec i]
  gather := s.gather ++
    [if spec.shrinkAxisMask.getLsbD i then (.shrinkAxis, none) else (.dim s.dims.length, some i)]

/-- One turn of the loop of `BuildDenseSpec`. -/
def step (spec : Spec) (sparse : SparseSpec) (rank : Nat) (s : DenseSpec) (i : Nat) :
    Except Error DenseSpec :=
  if sparse.ellipsisMask.getLsbD i then
    let nextIndex : Int :=
      min ((rank : Int) - ((sparse.dims : Int) - i) + 1 + sparse.numAddAxisAfterEllipsis) rank
    .ok (s.expandEllipsis i (nextIndex - s.dims.length).toNat)
  else if spec.newAxisMask.getLsbD i then .ok s.pushNewAxis
  else if s.dims.length = rank then .error (.tooManyDims s.dims.length rank)
  else .ok (s.pushEntry spec i)

def loop (spec : Spec) (sparse : SparseSpec) (rank : Nat) :
    List Nat → DenseSpec → Except Error DenseSpec
  | [], s => .ok s
  | i :: is, s =>
    match s.step spec sparse rank i with
    | .error e => .error e
    | .ok s => loop spec sparse rank is s

end DenseSpec

def buildDenseSpec (spec : Spec) (sparse : SparseSpec) (rank : Nat) : Except Error DenseSpec :=
  DenseSpec.loop spec sparse rank (List.range sparse.dims) ⟨[], []⟩

/-! ## Bounds and sizes -/

structure Flags where
  isIdentity : Bool
  sliceDim0 : Bool
  isSimpleSlice : Bool
  deriving DecidableEq

structure ProcessedDim where
  beginI : Int
  endI : Int
  strideI : Int
  size : Int
  deriving DecidableEq

/-- `x_fwd`: negative indices are made positive. -/
def forward (dimI x : Int) : Int := if x < 0 then dimI + x else x

/-- `canonical` for a bound, where `lo` and `hi` are the `valid_range` and `masked` is the bound that
a mask stands for. -/
def canonical (dimI lo hi masked : Int) (mask : Bool) (x : Int) : Int :=
  if mask then masked
  else
    let xFwd := forward dimI x
    if xFwd < lo then lo else if xFwd > hi then hi else xFwd

def canonicalBegin (dimI : Int) (d : DenseDim) : Int :=
  if d.strideI > 0 then canonical dimI 0 dimI 0 d.beginMasked d.beginI
  else canonical dimI (-1) (dimI - 1) (dimI - 1) d.beginMasked d.beginI

def canonicalEnd (dimI : Int) (d : DenseDim) : Int :=
  if d.strideI > 0 then canonical dimI 0 dimI dimI d.endMasked d.endI
  else canonical dimI (-1) (dimI - 1) (-1) d.endMasked d.endI

def sizeOf (intervalLength strideI : Int) : Int :=
  if intervalLength = 0 ∨ (decide (intervalLength < 0) ≠ decide (strideI < 0)) then 0
  else intervalLength.tdiv strideI + (if intervalLength.tmod strideI ≠ 0 then 1 else 0)

def knownBegin (dimI : Int) (d : DenseDim) : Int :=
  if d.shrink then forward dimI d.beginI else canonicalBegin dimI d

def knownEnd (dimI : Int) (d : DenseDim) : Int :=
  if d.shrink then forward dimI d.beginI + 1 else canonicalEnd dimI d

/-- `take_all_in_dimension` -/
def takesAll (dimI : Int) (d : DenseDim) : Bool :=
  decide (d.strideI = 1) && decide (knownBegin dimI d = 0) && decide (knownEnd dimI d = dimI)

def processKnown (i : Nat) (dimI : Int) (d : DenseDim) (f : Flags) :
    Except Error (ProcessedDim × Flags) :=
  if d.shrink ∧ (forward dimI d.beginI < 0 ∨ forward dimI d.beginI ≥ dimI) then
    .error (.outOfBounds (forward dimI d.beginI) i)
  else
    .ok (⟨knownBegin dimI d, knownEnd dimI d, d.strideI,
        sizeOf (knownEnd dimI d - knownBegin dimI d) d.strideI⟩,
      { isIdentity := f.isIdentity && takesAll dimI d
        sliceDim0 := f.sliceDim0 && (decide (i = 0) && decide (d.strideI = 1) || takesAll dimI d)
        isSimpleSlice := f.isSimpleSlice && decide (d.strideI = 1) })

def processMasked (i : Nat) (dimI : Int) (d : DenseDim) (f : Flags) : ProcessedDim × Flags :=
  let masked := d.beginMasked && d.endMasked
  let size :=
    if d.shrink then sizeOf 1 d.strideI
    else if masked ∧ dimI ≥ 0 then sizeOf (if d.strideI < 0 then -dimI else dimI) d.strideI
    else -1
  (⟨d.beginI, d.endI, d.strideI, size⟩,
    { isIdentity := f.isIdentity && (decide (d.strideI = 1) && masked)
      sliceDim0 := f.sliceDim0 && (decide (i = 0) && decide (d.strideI = 1) || masked)
      isSimpleSlice := f.isSimpleSlice && decide (d.strideI = 1) })

/-- One turn of the loop of step 3, where `valid` says that begin and end are known. -/
def processDim (valid : Bool) (i : Nat) (dimI : Int) (d : DenseDim) (f : Flags) :
    Except Error (ProcessedDim × Flags) :=
  if d.strideI = 0 then .error (.zeroStride i)
  else if dimI = -1 then .ok (⟨d.beginI, d.endI, d.strideI, if d.shrink then 1 else -1⟩, f)
  else if d.shrink ∧ d.strideI ≤ 0 then .error .shrinkStride
  else if valid then processKnown i dimI d f
  else .ok (processMasked i dimI d f)

def processDims (valid : Bool) : Nat → List Int → List DenseDim → Flags →
    Except Error (List ProcessedDim × Flags)
  | _, [], _, f => .ok ([], f)
  | i, dimI :: dims, ds, f =>
    match processDim valid i dimI (ds.headD {}) f with
    | .error e => .error e
    | .ok (p, f) =>
      match processDims valid (i + 1) dims ds.tail f with
      | .error e => .error e
      | .ok (ps, f) => .ok (p :: ps, f)

/-! ## The result -/

/-- `StridedSliceShapeSpec` -/
structure ShapeSpec where
  beginDenseMask : BitVec 32
  endDenseMask : BitVec 32
  shrinkAxisDenseMask : BitVec 32
  outputToSparseMapping : List Int
  outputToProcessingMapping : List Int
  processingToSparseMapping : List Int

structure Result where
  processingShape : List Int
  finalShape : List Int
  flags : Flags
  dims : List ProcessedDim
  shapeSpec : ShapeSpec

/-- The word with the bits of the dimensions for which `p` holds. -/
def denseMask (p : DenseDim → Bool) (dims : List DenseDim) : BitVec 32 :=
  dims.zipIdx.foldl (fun m d => if p d.1 then m ||| BitVec.twoPow 32 d.2 else m) 0

def finalDim (processingShape : List Int) : Gather → Option Int
  | .dim k => some (processingShape.getD k 0)
  | .newAxis => some 1
  | .shrinkAxis => none

/-- Step 4 -/
def gatherDims (dense : DenseSpec) (ps : List ProcessedDim) (f : Flags) : Result :=
  let processingShape := ps.map (·.size)
  { processingShape := processingShape
    finalShape := dense.gather.filterMap fun g => finalDim processingShape g.1
    flags := f
    dims := ps
    shapeSpec :=
      { beginDenseMask := denseMask (·.beginMasked) dense.dims
        endDenseMask := denseMask (·.endMasked) dense.dims
        shrinkAxisDenseMask := denseMask (·.shrink) dense.dims
        outputToSparseMapping := dense.gather.filterMap fun g =>
          match g.1 with
          | .dim _ => some (g.2.elim (-1) fun i => (i : Int))
          | .newAxis => some (-1)
          | .shrinkAxis => none
        outputToProcessingMapping := dense.gather.filterMap fun g =>
          match g.1 with
          | .dim k => some (k : Int)
          | .newAxis => some (-1)
          | .shrinkAxis => none
        processingToSparseMapping := dense.dims.map fun d => (d.sparse : Int) } }

/-- The vectors have one size, and the number of entries fits the masks. -/
def sizesAgree (spec : Spec) : Bool :=
  (spec.beginTensor.elim true fun b =>
      decide (b.length = spec.stridesTensor.length ∧ b.length < 32)) &&
    (spec.endTensor.elim true fun e => decide (e.length = spec.stridesTensor.length))

def validateStridedSliceOp (spec : Spec) (inputShape : List Int) : Except Error Result :=
  if sizesAgree spec = false then
    .error (.sizes (spec.beginTensor.map List.length) (spec.endTensor.map List.length)
      spec.stridesTensor.length)
  else if spec.ellipsisMask ≠ 0 ∧ spec.ellipsisMask &&& (spec.ellipsisMask - 1) ≠ 0 then
    .error .multipleEllipses
  else
    match buildDenseSpec spec (sparseSpec spec) inputShape.length with
    | .error e => .error e
    | .ok dense =>
      match processDims (spec.beginTensor.isSome && spec.endTensor.isSome) 0 inputShape dense.dims
          ⟨true, true, true⟩ with
      | .error e => .error e
      | .ok (ps, f) => .ok (gatherDims dense ps f)

/-- `ValidateStridedSliceOp` with fully defined shapes as results. -/
def validateFullStridedSliceOp (spec : Spec) (inputShape : List Int) : Except Error Result :=
  match validateStridedSliceOp spec inputShape with
  | .error e => .error e
  | .ok r =>
    if (∀ d ∈ r.processingShape, 0 ≤ d) ∧ ∀ d ∈ r.finalShape, 0 ≤ d then .ok r
    else .error (.partialShapes r.processingShape r.finalShape)

end TfReading.StridedSlice
