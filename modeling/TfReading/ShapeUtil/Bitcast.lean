import TfReading.ShapeUtil.Index

/-!
# `ShapeUtil::ReshapeIsBitcast`

The function looks at the unit indices of both shapes only.  That this decides the position of
every element is `strided_eq_of_units`, applied to the strides of the two layouts.
-/

namespace TfReading.ShapeUtil

open MixedRadix List

variable {s input output : Shape} {ds : List Nat} {d : Nat}

def unitIndex (rank d : Nat) : List Nat := (List.replicate rank 0).set d 1

/-- The comparison that `check_input_unit_indices` makes for one dimension. -/
def unitAgrees (input output : Shape) (inputDim : Nat) : Bool :=
  let logicalLinearIndex := multidimensionalIndexToLinearIndex
    (makeShapeWithDescendingLayout input) (unitIndex input.rank inputDim)
  let outputIndex := linearIndexToMultidimensionalIndex
    (makeShapeWithDescendingLayout output) logicalLinearIndex
  decide (multidimensionalIndexToLinearIndex input (unitIndex input.rank inputDim) =
    multidimensionalIndexToLinearIndex output outputIndex)

def checkInputUnitIndices (input output : Shape) : Bool :=
  (List.range input.rank).all fun d => decide (input.dim d ≤ 1) || unitAgrees input output d

/-- `ReshapeIsBitcast`, where `none` says that a check fails. -/
def reshapeIsBitcast (input output : Shape) : Option Bool :=
  if input.elementType ≠ output.elementType then some false
  else if elementsIn input ≠ elementsIn output then none
  else if elementsIn input = 0 then some true
  else some (checkInputUnitIndices input output && checkInputUnitIndices output input)

/-- Elements with the same row-major position are in the same place in memory. -/
def SamePositions (input output : Shape) : Prop :=
  ∀ i j, InBounds input.dimensions i → InBounds output.dimensions j →
    logical input i = logical output j → physical input i = physical output j

/-! ## Unit indices -/

theorem physical_unitIndex (hd : d < s.rank) : physical s (unitIndex s.rank d) = stride s d := by
  have hunit : ∀ e, (unitIndex s.rank d).getD e 0 = if e = d then 1 else 0 := by
    intro e
    rw [unitIndex, getD_eq_getElem?_getD]
    by_cases he : e = d
    · rw [he, getElem?_set_self (by rw [length_replicate]; exact hd), if_pos rfl]
      rfl
    · rw [getElem?_set_ne (Ne.symm he), if_neg he, getElem?_replicate]
      split <;> rfl
  have hnodup : (range s.rank).reverse.Nodup := nodup_reverse.mpr nodup_range
  rw [physical_eq_sum, sum_map_eq_nsmul_single d]
  · rw [count_eq_one_of_mem hnodup (mem_reverse.mpr (mem_range.mpr hd)), hunit,
      if_pos rfl, Nat.one_mul, one_nsmul]
  · intro e he _
    rw [hunit, if_neg he, Nat.zero_mul]

theorem unitAgrees_iff (hd : d < input.rank) : unitAgrees input output d = true ↔
    stride input d = strided (strides output) (stride (makeShapeWithDescendingLayout input) d) := by
  rw [unitAgrees, decide_eq_true_eq]
  simp only [multidimensionalIndexToLinearIndex_eq, linearIndexToMultidimensionalIndex_descending,
    physical_eq_strided]
  rw [physical_unitIndex hd]
  rw [show physical (makeShapeWithDescendingLayout input) (unitIndex input.rank d) = _ from
    physical_unitIndex hd]

/-- The unit indices of a list of dimensions, of which the first is at `c`. -/
theorem units_map_iff {f : Nat → Nat} (hnodup : ds.Nodup) (F G : Nat → Nat) (c : Nat) :
    Units f c (ds.map fun d => (F d, G d)) ↔
      ∀ d ∈ ds, 1 < F d → G d = f (c * ((ds.takeWhile (· ≠ d)).map F).prod) := by
  induction ds generalizing c with
  | nil => simp [MixedRadix.Units]
  | cons e ds ih =>
    obtain ⟨hnot, hnodup⟩ := nodup_cons.mp hnodup
    have hhead : ((e :: ds).takeWhile (· ≠ e)) = [] := by simp
    have htail : ∀ d ∈ ds, ((e :: ds).takeWhile (· ≠ d)) = e :: ds.takeWhile (· ≠ d) := by
      intro d hd
      have hne : e ≠ d := by
        intro h
        exact hnot (h ▸ hd)
      rw [takeWhile_cons_of_pos (by simpa using hne)]
    rw [map_cons, MixedRadix.Units, ih hnodup, forall_mem_cons, hhead, map_nil, prod_nil,
      Nat.mul_one]
    apply and_congr_right
    intro _
    constructor
    · intro h d hd hF
      rw [h d hd hF, htail d hd, map_cons, prod_cons, Nat.mul_assoc]
    · intro h d hd hF
      rw [h d hd hF, htail d hd, map_cons, prod_cons, Nat.mul_assoc]

theorem checkInputUnitIndices_iff : checkInputUnitIndices input output = true ↔
    Units (strided (strides output)) 1 (strides input) := by
  have hnodup : (range input.rank).reverse.Nodup := nodup_reverse.mpr nodup_range
  rw [strides.eq_1 input, units_map_iff hnodup input.dim (stride input), checkInputUnitIndices, all_eq_true]
  constructor
  · intro h d hd hdim
    have hd := mem_reverse.mp hd
    have hagree := h d hd
    rw [Bool.or_eq_true, decide_eq_true_eq] at hagree
    rw [Nat.one_mul]
    exact (unitAgrees_iff (mem_range.mp hd)).mp (hagree.resolve_left (by omega))
  · intro h d hd
    rw [Bool.or_eq_true, decide_eq_true_eq]
    by_cases hdim : input.dim d ≤ 1
    · exact .inl hdim
    · have hstride := h d (mem_reverse.mpr hd) (by omega)
      rw [Nat.one_mul] at hstride
      exact .inr ((unitAgrees_iff (mem_range.mp hd)).mpr hstride)

/-! ## All indices -/

theorem extent_strides : extent (strides s) = elementsIn s := by
  rw [extent, strides, map_map, elementsIn]
  show ((range s.rank).reverse.map s.dim).prod = _
  rw [map_reverse, prod_reverse, map_dim_range]

theorem samePositions_iff (helems : elementsIn input = elementsIn output) :
    SamePositions input output ↔
      ∀ n, n < elementsIn input → strided (strides input) n = strided (strides output) n := by
  constructor
  · intro h n hn
    obtain ⟨hi, hli⟩ := logical_digits hn
    obtain ⟨hj, hlj⟩ := logical_digits (helems ▸ hn)
    rw [← physical_eq_strided, ← physical_eq_strided]
    exact h _ _ hi hj (hli.trans hlj.symm)
  · intro h i j hi hj hij
    obtain ⟨hlt, hi⟩ := digits_logical hi
    obtain ⟨-, hj⟩ := digits_logical hj
    rw [← hi, ← hj, physical_eq_strided, physical_eq_strided, ← hij]
    exact h _ hlt

theorem strides_pos (hpos : ∀ d ∈ s.dimensions, 1 ≤ d) : ∀ x ∈ strides s, 0 < x.1 := by
  intro x hx
  obtain ⟨d, hd, rfl⟩ := mem_map.mp hx
  have hlt : d < s.dimensions.length := mem_range.mp (mem_reverse.mp hd)
  show 0 < s.dimensions.getD d 0
  rw [getD_eq_getElem _ _ hlt]
  exact hpos _ (getElem_mem hlt)

/-- For shapes without empty dimensions, the function returns, and it returns true exactly if the
reshape moves no element. -/
theorem reshapeIsBitcast_exact (hin : ∀ d ∈ input.dimensions, 1 ≤ d)
    (hout : ∀ d ∈ output.dimensions, 1 ≤ d) (helems : elementsIn input = elementsIn output)
    (htype : input.elementType = output.elementType) :
    ∃ b, reshapeIsBitcast input output = some b ∧ (b = true ↔ SamePositions input output) := by
  have hne : elementsIn input ≠ 0 := by
    intro h0
    have := hin 0 (prod_eq_zero_iff.mp h0)
    omega
  rw [reshapeIsBitcast, if_neg (not_not.mpr htype), if_neg (not_not.mpr helems), if_neg hne]
  refine ⟨_, rfl, ?_⟩
  rw [Bool.and_eq_true, checkInputUnitIndices_iff, checkInputUnitIndices_iff,
    samePositions_iff helems]
  constructor
  · intro ⟨hua, hub⟩ n hn
    rw [← extent_strides] at hn
    apply strided_eq_of_units (strides_pos hin) (strides_pos hout) _ hua hub hn
    rw [extent_strides, extent_strides]
    exact helems
  · intro h
    constructor
    · apply units_of_strided_eq (strides_pos hin)
      intro n hn
      rw [Nat.one_mul]
      exact h n (extent_strides ▸ hn)
    · apply units_of_strided_eq (strides_pos hout)
      intro n hn
      rw [Nat.one_mul]
      exact (h n (helems.trans extent_strides.symm ▸ hn)).symm

def columnMajor (rows columns : Nat) (hsize : validateShapeSize .f32 [rows, columns] = true) :
    Shape where
  elementType := .f32
  dimensions := [rows, columns]
  minorToMajor := [0, 1]
  perm := List.Perm.refl _
  size_valid := hsize

theorem reshapeIsBitcast_exact_columnMajor :
    ∃ b, reshapeIsBitcast (columnMajor 2 3 (by decide)) (columnMajor 3 2 (by decide)) = some b ∧
      (b = true ↔
        SamePositions (columnMajor 2 3 (by decide)) (columnMajor 3 2 (by decide))) :=
  reshapeIsBitcast_exact (by decide) (by decide) (by decide) rfl

end TfReading.ShapeUtil
