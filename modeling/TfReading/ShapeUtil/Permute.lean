import TfReading.ShapeUtil.Bitcast

/-!
# `ShapeUtil::PermuteDimensions`

The new layout lists the old dimensions under their new numbers, so the digits of an index
stand in the same order in memory as before.
-/

namespace TfReading.ShapeUtil

open MixedRadix List

def isPermutationLoop (size : Nat) : List Nat → List Bool → Bool
  | [], _ => true
  | p :: ps, seen =>
    if size ≤ p ∨ seen.getD p false = true then false
    else isPermutationLoop size ps (seen.set p true)

def isPermutation (permutation : List Nat) : Bool :=
  isPermutationLoop permutation.length permutation (replicate permutation.length false)

/-- `Permute`.  Here and below, `none` says that a check fails. -/
def permute (input permutation : List Nat) : Option (List Nat) :=
  if permutation.length = input.length ∧ isPermutation permutation = true then
    some (permutation.map fun p => input.getD p 0)
  else none

/-- `InversePermutation`, where every entry of the output is written. -/
def inversePermutation (input : List Nat) : List Nat :=
  scatter input (range input.length) (replicate input.length 0)

/-- `ComposePermutations`, which throws if `at` is out of range. -/
def composePermutations (p1 p2 : List Nat) : Option (List Nat) :=
  if p1.length = p2.length ∧ ∀ i ∈ p2, i < p1.length then some (p2.map fun i => p1.getD i 0)
  else none

/-- The fields of a shape that has not been validated. -/
structure ShapeProto where
  elementType : PrimitiveType
  dimensions : List Nat
  minorToMajor : List Nat

def Shape.proto (s : Shape) : ShapeProto := ⟨s.elementType, s.dimensions, s.minorToMajor⟩

def transposeIsBitcast (input output : ShapeProto) (dimensionMapping : List Nat) : Option Bool :=
  if input.elementType ≠ output.elementType then some false
  else do
    let composed ← composePermutations dimensionMapping output.minorToMajor
    return composed == input.minorToMajor

def permuteDimensions (permutation : List Nat) (s : Shape) : Option ShapeProto := do
  let dimensions ← permute s.dimensions permutation
  let minorToMajor ← composePermutations (inversePermutation permutation) s.minorToMajor
  let newShape := ⟨s.elementType, dimensions, minorToMajor⟩
  if ← transposeIsBitcast s.proto newShape permutation then return newShape else none

variable {s : Shape} {p : List Nat}

theorem isPermutationLoop_true {size : Nat} {seen : List Bool} (hd : p.Nodup)
    (hlt : ∀ i ∈ p, i < size) (hseen : ∀ i ∈ p, seen.getD i false = false) :
    isPermutationLoop size p seen = true := by
  induction p generalizing seen with
  | nil => rfl
  | cons i p ih =>
    obtain ⟨hnot, hd⟩ := nodup_cons.mp hd
    have hi := hlt i mem_cons_self
    rw [isPermutationLoop, if_neg (by rw [hseen i mem_cons_self]; simp; omega)]
    refine ih hd (fun j hj => hlt j (mem_cons_of_mem i hj)) fun j hj => ?_
    rw [getD_eq_getElem?_getD, getElem?_set_ne (ne_of_mem_of_not_mem hj hnot).symm,
      ← getD_eq_getElem?_getD]
    exact hseen j (mem_cons_of_mem i hj)

theorem composePermutations_eq {p1 p2 : List Nat} (hp : p2.Perm (range p1.length)) :
    composePermutations p1 p2 = some (p2.map fun i => p1.getD i 0) :=
  if_pos ⟨(hp.length_eq.trans length_range).symm, fun _ hi => mem_range.mp (hp.mem_iff.mp hi)⟩

section Inverse

variable {n : Nat} (hp : p.Perm (range n))

include hp

theorem map_inversePermutation : p.map (fun d => (inversePermutation p).getD d 0) = range n := by
  have hn : p.length = n := hp.length_eq.trans length_range
  rw [inversePermutation, hn]
  refine (scatter_getD (hp.nodup_iff.mpr nodup_range) (fun d hd => ?_) ?_).1
  · rw [length_replicate]
    exact mem_range.mp (hp.mem_iff.mp hd)
  · rw [hn, length_range]

theorem getD_inversePermutation {d : Nat} (hd : d < n) (f : Nat → Nat) :
    (p.map f).getD ((inversePermutation p).getD d 0) 0 = f d := by
  obtain ⟨k, hk, rfl⟩ := getElem_of_mem (hp.mem_iff.mpr (mem_range.mpr hd))
  have hinv : (p.map fun d => (inversePermutation p).getD d 0)[k]? = (range n)[k]? :=
    congrArg (·[k]?) (map_inversePermutation hp)
  have hn : k < n := by rwa [hp.length_eq, length_range] at hk
  rw [getElem?_map, getElem?_eq_getElem hk, Option.map_some, getElem?_range hn] at hinv
  rw [Option.some.inj hinv, getD_eq_getElem _ _ (by rw [length_map]; exact hk), getElem_map]

end Inverse

theorem permute_eq (hp : p.Perm (range s.rank)) :
    permute s.dimensions p = some (p.map s.dim) := by
  have hlen : p.length = s.rank := hp.length_eq.trans length_range
  refine if_pos ⟨hlen, isPermutationLoop_true (hp.nodup_iff.mpr nodup_range) (fun i hi => ?_)
    fun i hi => ?_⟩
  · rw [hlen]
    exact mem_range.mp (hp.mem_iff.mp hi)
  · rw [getD_eq_getElem?_getD, getElem?_replicate]
    split <;> rfl

def permuted (s : Shape) (p : List Nat) (hp : p.Perm (range s.rank))
    (hpos : ∀ d ∈ s.dimensions, 1 ≤ d) : Shape where
  elementType := s.elementType
  dimensions := p.map s.dim
  minorToMajor := s.minorToMajor.map fun d => (inversePermutation p).getD d 0
  perm := by
    rw [length_map, hp.length_eq, length_range, ← map_inversePermutation hp]
    exact (s.perm.trans hp.symm).map _
  size_valid := by
    have hperm : (p.map s.dim).Perm s.dimensions := by
      rw [← map_dim_range]
      exact hp.map _
    rw [validateShapeSize_iff fun d hd => hpos d (hperm.mem_iff.mp hd), hperm.prod_eq]
    exact (validateShapeSize_iff hpos).mp s.size_valid

section Permuted

variable (hpos : ∀ d ∈ s.dimensions, 1 ≤ d) (hp : p.Perm (range s.rank))

theorem map_permuted (f : Nat → Nat) : (permuted s p hp hpos).minorToMajor.map
    (fun k => (p.map f).getD k 0) = s.minorToMajor.map f := by
  rw [permuted, map_map]
  exact map_congr_left fun d hd =>
    getD_inversePermutation hp (mem_range.mp (s.perm.mem_iff.mp hd)) f

theorem permuteDimensions_eq : permuteDimensions p s = some (permuted s p hp hpos).proto := by
  have hinv : (inversePermutation p).length = s.dimensions.length := by
    rw [inversePermutation, length_scatter, length_replicate, hp.length_eq, length_range, Shape.rank]
  have hcompose : composePermutations (inversePermutation p) s.minorToMajor =
      some (permuted s p hp hpos).minorToMajor := composePermutations_eq (hinv ▸ s.perm)
  have hbitcast : transposeIsBitcast s.proto (permuted s p hp hpos).proto p = some true := by
    have hmap := map_permuted hpos hp id
    rw [map_id, map_id] at hmap
    have hperm := (permuted s p hp hpos).perm
    rw [permuted, length_map] at hperm
    rw [transposeIsBitcast, show composePermutations p (permuted s p hp hpos).proto.minorToMajor = _
      from composePermutations_eq hperm]
    exact (if_neg (not_not.mpr rfl)).trans (congrArg some (beq_iff_eq.mpr hmap))
  rw [permuteDimensions, permute_eq hp]
  simp only [Option.bind_eq_bind, Option.bind_some, hcompose]
  rw [show transposeIsBitcast s.proto ⟨s.elementType, p.map s.dim, _⟩ p = some true from hbitcast]
  rfl

end Permuted

/-- The transpose moves no element: the index with the entries of `i` in the new order is where
`i` was. -/
theorem permuteDimensions_bitcast (hpos : ∀ d ∈ s.dimensions, 1 ≤ d) (hp : p.Perm (range s.rank)) :
    ∃ t : Shape, permuteDimensions p s = some t.proto ∧
      ∀ i, InBounds s.dimensions i → InBounds t.dimensions (p.map fun k => i.getD k 0) ∧
        multidimensionalIndexToLinearIndex s i =
          multidimensionalIndexToLinearIndex t (p.map fun k => i.getD k 0) := by
  refine ⟨_, permuteDimensions_eq hpos hp, fun i hi => ⟨?_, ?_⟩⟩
  · exact (inBounds_iff hp hi.length_eq.symm).mp hi
  · have hdim : (permuted s p hp hpos).dim = fun k => (p.map s.dim).getD k 0 := rfl
    rw [multidimensionalIndexToLinearIndex_eq, multidimensionalIndexToLinearIndex_eq, physical,
      physical, hdim, map_permuted, map_permuted]

theorem permuteDimensions_bitcast_columnMajor : ∃ t : Shape,
    permuteDimensions [1, 0] (columnMajor 2 3 (by decide)) = some t.proto ∧
      ∀ i, InBounds [2, 3] i → InBounds t.dimensions ([1, 0].map fun k => i.getD k 0) ∧
        multidimensionalIndexToLinearIndex (columnMajor 2 3 (by decide)) i =
          multidimensionalIndexToLinearIndex t ([1, 0].map fun k => i.getD k 0) :=
  permuteDimensions_bitcast (by decide) (by decide)

end TfReading.ShapeUtil
