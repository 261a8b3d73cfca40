import Mathlib.Tactic.Ring
import TfReading.StridedSlice.Validate

/-!
# Basic indexing in numpy

An array is indexed by a tuple of integers, slices, `newaxis` and at most one `Ellipsis`.  Each of
its dimensions is restricted to a list of indices.  The result has the lengths of the lists as
its shape, without the dimensions of integers and with dimensions of size 1 for `newaxis`.
-/

namespace TfReading.StridedSlice

open List

inductive Index
  | ellipsis
  | newAxis
  | int (k : Int)
  | slice (start stop : Option Int) (step : Int)
  deriving DecidableEq

/-- Integers and slices are about a dimension of the array. -/
def Index.consumes : Index → Bool
  | .int _ | .slice _ _ _ => true
  | .ellipsis | .newAxis => false

/-- The slice `:`. -/
def Index.all : Index := .slice none none 1

/-- The numbers of Python's `range(cur, stop, step)`, of which there are at most `fuel`. -/
def pyRange (stop step : Int) : Nat → Int → List Int
  | 0, _ => []
  | fuel + 1, cur =>
    if (0 < step ∧ cur < stop) ∨ (step < 0 ∧ stop < cur) then
      cur :: pyRange stop step fuel (cur + step)
    else []

/-- A bound of a slice, as `slice.indices` gives it. -/
def adjust (dim : Nat) (step x : Int) : Int :=
  if x < 0 then
    if x + dim < 0 then if step < 0 then -1 else 0 else x + dim
  else if (dim : Int) ≤ x then if step < 0 then (dim : Int) - 1 else dim
  else x

def sliceIndices (dim : Nat) (start stop : Option Int) (step : Int) : List Int :=
  let first := start.elim (if step < 0 then (dim : Int) - 1 else 0) (adjust dim step)
  let last := stop.elim (if step < 0 then -1 else (dim : Int)) (adjust dim step)
  pyRange last step dim first

/-- The indices of a dimension, or `none` for an error. -/
def select (dim : Nat) : Index → Option (List Int)
  | .int k =>
    if -(dim : Int) ≤ k ∧ k < dim then some [if k < 0 then k + dim else k] else none
  | .slice start stop step => if step = 0 then none else some (sliceIndices dim start stop step)
  | .ellipsis | .newAxis => none

/-- Without an ellipsis, there is one at the end. -/
def insertEllipsis (idx : List Index) : List Index :=
  if .ellipsis ∈ idx then idx else idx ++ [.ellipsis]

/-- An ellipsis stands for the dimensions that no other index is about. -/
def expand (rank : Nat) (idx : List Index) : Option (List Index) :=
  let idx := insertEllipsis idx
  if idx.count .ellipsis ≤ 1 ∧ idx.countP Index.consumes ≤ rank then
    some (idx.flatMap fun i =>
      if i = .ellipsis then List.replicate (rank - idx.countP Index.consumes) .all else [i])
  else none

/-- The indices of the dimensions, and the shape of the result. -/
def view : List Nat → List Index → Option (List (List Int) × List Nat)
  | [], [] => some ([], [])
  | dims, .newAxis :: is => (view dims is).map fun r => (r.1, 1 :: r.2)
  | dim :: dims, .int k :: is =>
    (select dim (.int k)).bind fun s => (view dims is).map fun r => (s :: r.1, r.2)
  | dim :: dims, .slice start stop step :: is =>
    (select dim (.slice start stop step)).bind fun s =>
      (view dims is).map fun r => (s :: r.1, s.length :: r.2)
  | _, _ => none

/-- Basic indexing of an array with the dimensions `dims`. -/
def basicIndexing (dims : List Nat) (idx : List Index) : Option (List (List Int) × List Nat) :=
  (expand dims.length idx).bind (view dims)

def DenseDim.index (d : DenseDim) : Index :=
  if d.shrink then .int d.beginI
  else .slice (if d.beginMasked then none else some d.beginI)
    (if d.endMasked then none else some d.endI) d.strideI

def Spec.index (spec : Spec) (i : Nat) : Index :=
  if spec.ellipsisMask.getLsbD i then .ellipsis
  else if spec.newAxisMask.getLsbD i then .newAxis
  else (DenseSpec.entry spec i).index

/-- The tuple that a specification stands for. -/
def Spec.indices (spec : Spec) : List Index := (List.range spec.stridesTensor.length).map spec.index

/-! ## Slices -/

/-- A bound of `slice.indices` is clamped to the valid range. -/
theorem adjust_eq_canonical (dim : Nat) {step x : Int} (hstep : step ≠ 0) :
    adjust dim step x =
      if step > 0 then canonical dim 0 dim 0 false x
      else canonical dim (-1) ((dim : Int) - 1) 0 false x := by
  simp only [adjust, canonical, forward, Bool.false_eq_true, if_false]
  split_ifs <;> omega

theorem pyRange_eq_map {stop step : Int} {fuel size : Nat} {cur : Int} (hsize : size ≤ fuel)
    (hin : ∀ o : Nat, o < size → (0 < step ∧ cur + o * step < stop) ∨
      (step < 0 ∧ stop < cur + o * step))
    (hout : ¬ ((0 < step ∧ cur + size * step < stop) ∨ (step < 0 ∧ stop < cur + size * step))) :
    pyRange stop step fuel cur = (List.range size).map fun o : Nat => cur + o * step := by
  induction size generalizing fuel cur with
  | zero =>
    rw [Int.natCast_zero, Int.zero_mul, Int.add_zero] at hout
    cases fuel with
    | zero => rfl
    | succ => rw [pyRange, if_neg hout]; rfl
  | succ size ih =>
    cases fuel with
    | zero => omega
    | succ =>
      have hfirst := hin 0 (Nat.succ_pos size)
      rw [Int.natCast_zero, Int.zero_mul, Int.add_zero] at hfirst
      have hshift : ∀ o : Nat, cur + step + (o : Int) * step = cur + ((o + 1 : Nat) : Int) * step := by
        intro o
        push_cast
        ring
      rw [pyRange, if_pos hfirst, ih (Nat.le_of_succ_le_succ hsize)]
      · rw [range_succ_eq_map, map_cons, map_map]
        congr 1
        · rw [Int.natCast_zero, Int.zero_mul, Int.add_zero]
        · apply map_congr_left
          intro o _
          exact hshift o
      · intro o ho
        rw [hshift]
        exact hin (o + 1) (Nat.succ_lt_succ ho)
      · rw [hshift]
        exact hout

end TfReading.StridedSlice
