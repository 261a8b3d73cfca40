import Mathlib.Data.Fin.VecNotation
import Mathlib.Data.List.Fold
import Mathlib.Data.List.GetD
import Mathlib.Data.List.MinMax
import Mathlib.Data.List.OfFn
import Mathlib.Order.Nat
import TfReading.Util.Overflow

/-!
# `BCastList` (`core/util/bcast.h`)

The constructor, for `N = n + 1` shapes.  `none` stands for `valid_ = false`, where the other
members are not to be used.

Products are those of `int64`, which wrap around.  Since signed overflow is undefined, `defined`
records whether every product that has been formed was in range.
-/

namespace TfReading.BCast

open List

abbrev Vec := List Int

variable {N j n : Nat} {x : Fin N → Vec}

def symbolic (dim1 dim2 : Int) : Bool :=
  decide (dim1 ≠ 0) && decide (dim2 ≠ 0) && (decide (dim1 < 0) || decide (dim2 < 0))

def mulDims (dim1 dim2 : Int) : Int :=
  if symbolic dim1 dim2 then -1 else Util.toInt64 (dim1 * dim2)

/-- The product that `mul_dims` forms, if any, is in the range of `int64`. -/
def mulFits (dim1 dim2 : Int) : Bool :=
  symbolic dim1 dim2 || (decide (-2 ^ 63 ≤ dim1 * dim2) && decide (dim1 * dim2 < 2 ^ 63))

structure BCastList (N : Nat) where
  broadcastingRequired : Bool
  reshape : Fin N → Vec
  bcast : Fin N → Vec
  result : Vec
  output : Vec
  gradReduceIdx : Fin N → Vec
  outputBatchSize : Int
  batchIndices : Fin N → List Int
  defined : Bool

/-! ## `ComputeBatchIndices` -/

/-- The mapping so far, with the numbers of elements that it maps and is mapped to. -/
structure BatchIndices where
  outIndices : List Int
  numOutputElements : Int
  numInputElements : Int

/-- One turn of the loop, for the dimension with the given extents. -/
def BatchIndices.replicate (s : BatchIndices) (reshape bcast : Int) : BatchIndices :=
  let dim := max reshape bcast
  let incr := if bcast > 1 then 0 else s.numInputElements
  { outIndices := (List.range ((dim - 1) * s.numOutputElements).toNat).foldl
      (fun out k => out.set (s.numOutputElements.toNat + k) (out.getD k 0 + incr)) s.outIndices
    numOutputElements := s.numOutputElements * dim
    numInputElements := s.numInputElements * reshape }

def computeBatchIndices (outputBatchSize : Int) (reshape bcast : Vec) : List Int :=
  let start : BatchIndices := ⟨List.replicate outputBatchSize.toNat 0, 1, 1⟩
  ((reshape.zip bcast).reverse.foldl (fun s dims => s.replicate dims.1 dims.2) start).outIndices

/-! ## The constructor -/

def allEqual (x : Fin (n + 1) → Vec) : Bool := decide (∀ i, x i = x 0)

def largestRank (x : Fin N → Vec) : Nat := (List.ofFn fun i => (x i).length).foldl max 0

/-- The number of elements of a shape, with whether all products were in range. -/
def countElements : Vec → Int → Bool → Int × Bool
  | [], elements, defined => (elements, defined)
  | dim :: dims, elements, defined =>
    countElements dims (mulDims elements dim) (defined && mulFits elements dim)

def identicalShapes (x : Fin (n + 1) → Vec) : BCastList (n + 1) :=
  let (elements, defined) := countElements (x 0) 1 true
  { broadcastingRequired := !allEqual x
    reshape := fun _ => [elements]
    bcast := fun _ => [1]
    result := [elements]
    output := x 0
    gradReduceIdx := fun _ => []
    outputBatchSize := elements
    batchIndices := fun _ => []
    defined := defined }

/-- A shape with its inner-most dimension first, extended with ones to the largest rank. -/
def copy (x : Fin N → Vec) (i : Fin N) : Vec :=
  (x i).reverse ++ List.replicate (largestRank x - (x i).length) 1

/-- The variables of the loop.  The vectors stand here with their back at the head of the list:
this is the order into which the constructor reverses them after the loop. -/
structure Merged (N : Nat) where
  prevIsOne : Fin N → Bool
  setOne : Bool
  reshape : Fin N → Vec
  bcast : Fin N → Vec
  result : Vec
  output : Vec
  gradReduceIdx : Fin N → Vec
  outputBatchSize : Int
  defined : Bool

/-- The inner loop over the inputs: `output_dim`, if it is set, of the 32 bits of an `int`.  There
is none if the dimensions are not compatible. -/
def findOutputDim : List Int → Option Int → Option (Option Int)
  | [], outputDim => some outputDim
  | dim :: dims, outputDim =>
    if dim = 1 then findOutputDim dims outputDim
    else if outputDim = none ∨ outputDim = some dim then
      findOutputDim dims (some (Util.toInt32 dim))
    else none

/-- `v.back() = mul_dims(v.back(), dim)` -/
def mulBack (v : Vec) (dim : Int) : Vec :=
  match v with
  | [] => []
  | back :: v => mulDims back dim :: v

def backFits (v : Vec) (dim : Int) : Bool :=
  match v with
  | [] => true
  | back :: _ => mulFits back dim

namespace Merged

def start : Merged N where
  prevIsOne := fun _ => false
  setOne := false
  reshape := fun _ => []
  bcast := fun _ => []
  result := []
  output := []
  gradReduceIdx := fun _ => []
  outputBatchSize := 1
  defined := true

def pushOutput (s : Merged N) (dim : Int) : Merged N :=
  { s with
    output := dim :: s.output
    outputBatchSize := mulDims s.outputBatchSize dim
    defined := s.defined && mulFits s.outputBatchSize dim }

def allOnes (s : Merged N) (fewer : Bool) (idx : Int) : Merged N :=
  { s with
    reshape := fun i => if fewer then s.reshape i else 1 :: s.reshape i
    bcast := fun i => if fewer then s.bcast i else 1 :: s.bcast i
    result := if fewer then s.result else 1 :: s.result
    gradReduceIdx := fun i => idx :: s.gradReduceIdx i }

/-- The reductions for the gradient, where `none_is_one` is that no dimension is 1. -/
def reduceIdx (s : Merged N) (dims : Fin N → Int) (idx : Int) (i : Fin N) : Vec :=
  if decide (dims i = 1) && !decide (∀ k, dims k ≠ 1) then idx :: s.gradReduceIdx i
  else s.gradReduceIdx i

/-- A run of the same broadcasting case as last time. -/
def extend (s : Merged N) (dims : Fin N → Int) (outputDim idx : Int) : Merged N :=
  { s with
    prevIsOne := fun i => decide (dims i = 1)
    setOne := true
    reshape := fun i => mulBack (s.reshape i) (dims i)
    bcast := fun i => mulBack (s.bcast i) (if dims i = 1 then outputDim else 1)
    result := mulBack s.result outputDim
    gradReduceIdx := s.reduceIdx dims idx
    defined := s.defined && backFits s.result outputDim &&
      decide (∀ i, backFits (s.reshape i) (dims i) = true ∧
        backFits (s.bcast i) (if dims i = 1 then outputDim else 1) = true) }

/-- A new broadcasting case. -/
def push (s : Merged N) (dims : Fin N → Int) (outputDim idx : Int) : Merged N :=
  { s with
    prevIsOne := fun i => decide (dims i = 1)
    setOne := true
    reshape := fun i => dims i :: s.reshape i
    bcast := fun i => (if dims i = 1 then outputDim else 1) :: s.bcast i
    result := outputDim :: s.result
    gradReduceIdx := s.reduceIdx dims idx }

/-- One turn of the loop, for the dimensions of all inputs at one position. -/
def step (fewer : Bool) (idx : Int) (dims : Fin N → Int) (s : Merged N) : Option (Merged N) :=
  match findOutputDim (List.ofFn dims) none with
  | none => none
  | some none => some ((s.pushOutput 1).allOnes fewer idx)
  | some (some outputDim) =>
    let s := s.pushOutput outputDim
    if fewer && decide (∀ i, decide (dims i = 1) = s.prevIsOne i) && s.setOne then
      some (s.extend dims outputDim idx)
    else
      some (s.push dims outputDim idx)

/-- The loop over the positions, from the inner-most one. -/
def loop (fewer : Bool) (x : Fin N → Vec) : List Nat → Merged N → Option (Merged N)
  | [], s => some s
  | j :: js, s =>
    match s.step fewer ((largestRank x : Int) - 1 - j) fun i => (copy x i).getD j 1 with
    | none => none
    | some s => loop fewer x js s

def orOne (s : Merged N) : Merged N :=
  if s.result.isEmpty then
    { s with
      reshape := fun i => 1 :: s.reshape i
      bcast := fun i => 1 :: s.bcast i
      result := [1] }
  else s

end Merged

def bcastList (x : Fin (n + 1) → Vec) (fewer batches : Bool) : Option (BCastList (n + 1)) :=
  if allEqual x && fewer then some (identicalShapes x)
  else
    match Merged.start.loop fewer x (List.range (largestRank x)) with
    | none => none
    | some s =>
      let s := s.orOne
      some
        { broadcastingRequired := !allEqual x
          reshape := s.reshape
          bcast := s.bcast
          result := s.result
          output := s.output
          gradReduceIdx := s.gradReduceIdx
          outputBatchSize := s.outputBatchSize
          batchIndices := fun i =>
            if batches && !allEqual x && decide (s.outputBatchSize > 0) then
              computeBatchIndices s.outputBatchSize (s.reshape i) (s.bcast i)
            else []
          defined := s.defined }

def isValid (x : Fin (n + 1) → Vec) (fewer batches : Bool) : Bool :=
  (bcastList x fewer batches).isSome

/-! ## Broadcasting in numpy -/

/-- The dimension of a shape at a position that is counted from the last dimension. -/
def dimAt (x : Vec) (j : Nat) : Int := x.reverse.getD j 1

/-- In each position, all dimensions other than 1 are equal. -/
def Compatible (x : Fin N → Vec) : Prop :=
  ∀ j i k, dimAt (x i) j ≠ 1 → dimAt (x k) j ≠ 1 → dimAt (x i) j = dimAt (x k) j

def nonOnes (x : Fin N → Vec) (j : Nat) : List Int :=
  (List.ofFn fun i => dimAt (x i) j).filter fun d => decide (d ≠ 1)

def numpyDim (x : Fin N → Vec) (j : Nat) : Int := (nonOnes x j).headD 1

def numpyShape (x : Fin N → Vec) : Vec :=
  ((List.range (largestRank x)).map (numpyDim x)).reverse

/-! ## Positions -/

theorem largestRank_eq (x : Fin N → Vec) :
    largestRank x = (ofFn fun i => (x i).length).foldr max ⊥ := foldl_eq_foldr

theorem length_le_largestRank (x : Fin N → Vec) (i : Fin N) : (x i).length ≤ largestRank x :=
  largestRank_eq x ▸ le_max_of_le (mem_ofFn.mpr ⟨i, rfl⟩) le_rfl

theorem dimAt_of_le {x : Vec} (h : x.length ≤ j) : dimAt x j = 1 :=
  getD_eq_default _ _ (by rw [length_reverse]; exact h)

/-- Padding changes nothing: a missing dimension counts as 1. -/
theorem copy_getD (x : Fin N → Vec) (i : Fin N) (j : Nat) :
    (copy x i).getD j 1 = dimAt (x i) j := by
  rw [copy, dimAt]
  by_cases hj : j < (x i).reverse.length
  · rw [getD_append _ _ _ _ hj]
  · have hj : (x i).reverse.length ≤ j := not_lt.mp hj
    rw [getD_append_right _ _ _ _ hj, getD_eq_default _ _ hj, getD_eq_getElem?_getD,
      getElem?_replicate]
    split <;> rfl

theorem mem_nonOnes {d : Int} :
    d ∈ nonOnes x j ↔ d ≠ 1 ∧ ∃ i, dimAt (x i) j = d := by
  rw [nonOnes, mem_filter, mem_ofFn, decide_eq_true_eq, and_comm]

theorem nonOnes_of_le (hj : largestRank x ≤ j) : nonOnes x j = [] := by
  rw [eq_nil_iff_forall_not_mem]
  intro d hd
  obtain ⟨hne, i, hi⟩ := mem_nonOnes.mp hd
  exact hne (hi ▸ dimAt_of_le (le_trans (length_le_largestRank x i) hj))

end TfReading.BCast
