import TfReading.StridedSlice.Numpy

/-!
# One dimension of a slice

A dimension with known bounds selects `size` indices from `begin` on in steps of `stride`.  These
are the indices that Python's slices and integers select.
-/

namespace TfReading.StridedSlice

open Int

variable {dim i : Nat} {d : DenseDim} {f f' : Flags} {p : ProcessedDim} {L masked s x : Int}
    {mask : Bool}

/-! ## Sizes -/

/-- The size is the number of multiples of the stride before the end of the interval. -/
structure Covers (L s : Int) (size : Nat) : Prop where
  before : ∀ o : Nat, o < size → (0 < s ∧ o * s < L) ∨ (s < 0 ∧ L < o * s)
  after : ¬ ((0 < s ∧ size * s < L) ∨ (s < 0 ∧ L < size * s))

theorem sizeOf_empty (h : L = 0 ∨ (decide (L < 0) ≠ decide (s < 0))) : sizeOf L s = 0 := if_pos h

theorem sizeOf_pos (hs : 0 < s) (hL : 0 < L) :
    sizeOf L s = L / s + (if L % s ≠ 0 then 1 else 0) := by
  have hno : ¬ (L = 0 ∨ (decide (L < 0) ≠ decide (s < 0))) := by
    rw [decide_eq_false (not_lt.mpr (le_of_lt hL)),
      decide_eq_false (not_lt.mpr (le_of_lt hs))]
    simp only [ne_eq, not_true_eq_false, or_false]
    omega
  rw [sizeOf, if_neg hno, tdiv_eq_ediv_of_nonneg (le_of_lt hL),
    tmod_eq_emod_of_nonneg (le_of_lt hL)]

theorem sizeOf_neg (hs : s < 0) : sizeOf L s = sizeOf (-L) (-s) := by
  by_cases hL : 0 ≤ L
  · rw [sizeOf_empty, sizeOf_empty]
    · by_cases h0 : L = 0
      · exact .inl (by omega)
      · right
        rw [decide_eq_true (by omega : -L < 0), decide_eq_false (by omega : ¬ -s < 0)]
        decide
    · by_cases h0 : L = 0
      · exact .inl h0
      · right
        rw [decide_eq_false (by omega : ¬ L < 0), decide_eq_true hs]
        decide
  · have hno : ¬ (L = 0 ∨ (decide (L < 0) ≠ decide (s < 0))) := by
      rw [decide_eq_true (by omega : L < 0), decide_eq_true hs]
      simp only [ne_eq, not_true_eq_false, or_false]
      omega
    rw [sizeOf_pos (by omega : 0 < -s) (by omega : 0 < -L), sizeOf, if_neg hno,
      ← Int.neg_tdiv_neg, ← Int.tdiv_eq_ediv_of_nonneg (by omega),
      ← Int.tmod_eq_emod_of_nonneg (by omega), Int.tmod_neg, Int.neg_tmod]
    simp only [ne_eq, Int.neg_eq_zero]

/-- The size for a positive stride, as a quotient that is rounded up. -/
theorem covers_pos (hs : 0 < s) : 0 ≤ sizeOf L s ∧ Covers L s (sizeOf L s).toNat := by
  by_cases hL : 0 < L
  · have hmod := Int.emod_add_mul_ediv L s
    have hlt := Int.emod_lt_of_pos L hs
    have hnonneg := Int.emod_nonneg L (by omega : s ≠ 0)
    have hq : 0 ≤ L / s := Int.ediv_nonneg (Int.le_of_lt hL) (Int.le_of_lt hs)
    have hsize : 0 ≤ sizeOf L s := by
      rw [sizeOf_pos hs hL]
      split <;> omega
    refine ⟨hsize, fun o ho => .inl ⟨hs, ?_⟩, ?_⟩
    · rw [sizeOf_pos hs hL] at ho
      split at ho
      · have hle : (o : Int) * s ≤ L / s * s := Int.mul_le_mul_of_nonneg_right (by omega) (by omega)
        rw [Int.mul_comm (L / s)] at hle
        omega
      · have hle : ((o : Int) + 1) * s ≤ L / s * s :=
          Int.mul_le_mul_of_nonneg_right (by omega) (by omega)
        rw [Int.mul_comm (L / s), Int.add_mul, Int.one_mul] at hle
        omega
    · rw [Int.toNat_of_nonneg hsize, sizeOf_pos hs hL, Int.add_mul, Int.mul_comm (L / s)]
      split <;> omega
  · have h0 : sizeOf L s = 0 := by
      apply sizeOf_empty
      by_cases h0 : L = 0
      · exact .inl h0
      · right
        rw [decide_eq_true (by omega : L < 0), decide_eq_false (by omega : ¬ s < 0)]
        decide
    rw [h0]
    refine ⟨Int.le_refl 0, fun o ho => absurd ho (Nat.not_lt_zero o), ?_⟩
    simp only [Int.toNat_zero, Int.natCast_zero, Int.zero_mul]
    omega

theorem covers_sizeOf (hs : s ≠ 0) : 0 ≤ sizeOf L s ∧ Covers L s (sizeOf L s).toNat := by
  by_cases hpos : 0 < s
  · exact covers_pos hpos
  · have hneg : s < 0 := by omega
    obtain ⟨hnonneg, hcov⟩ := covers_pos (s := -s) (by omega)
    rw [sizeOf_neg hneg]
    refine ⟨hnonneg, fun o ho => .inr ⟨hneg, ?_⟩, fun h => hcov.after (.inl ⟨by omega, ?_⟩)⟩
    · have h := hcov.before o ho
      rw [mul_neg] at h
      omega
    · rw [mul_neg]
      omega

/-! ## Bounds -/

theorem canonical_mem {dimI lo hi : Int} (h : lo ≤ hi) (hm : lo ≤ masked) (hm' : masked ≤ hi) :
    lo ≤ canonical dimI lo hi masked mask x ∧ canonical dimI lo hi masked mask x ≤ hi := by
  unfold canonical
  dsimp only
  split_ifs <;> omega

theorem elim_adjust {masked' : Int} (hs : s ≠ 0) :
    (if mask then none else some x).elim (if s < 0 then masked' else masked) (adjust dim s) =
      if s > 0 then canonical dim 0 dim masked mask x
      else canonical dim (-1) ((dim : Int) - 1) masked' mask x := by
  cases mask with
  | true =>
    simp only [canonical, if_true, Option.elim_none]
    split_ifs <;> omega
  | false => exact adjust_eq_canonical dim hs

/-! ## Indices -/

def ProcessedDim.indices (p : ProcessedDim) : List Int :=
  (List.range p.size.toNat).map fun o : Nat => p.beginI + o * p.strideI

structure Selects (dim : Nat) (d : DenseDim) (p : ProcessedDim) : Prop where
  size_nonneg : 0 ≤ p.size
  select_eq : select dim d.index = some p.indices
  inBounds : ∀ k ∈ p.indices, 0 ≤ k ∧ k < dim

theorem sizeOf_one (hs : 0 < s) : sizeOf 1 s = 1 := by
  rw [sizeOf_pos hs one_pos]
  by_cases h1 : s = 1
  · rw [h1]
    decide
  · rw [ediv_eq_zero_of_lt (by omega) (by omega), emod_eq_of_lt (by omega) (by omega)]
    rfl

theorem selects_shrink (hshrink : d.shrink = true)
    (h0 : 0 ≤ forward dim d.beginI) (hlt : forward dim d.beginI < dim) :
    Selects dim d ⟨forward dim d.beginI, forward dim d.beginI + 1, d.strideI, 1⟩ := by
  have hidx : (⟨forward dim d.beginI, forward dim d.beginI + 1, d.strideI, 1⟩ :
      ProcessedDim).indices = [forward dim d.beginI] := by
    show [forward dim d.beginI + ((0 : Nat) : Int) * d.strideI] = [forward dim d.beginI]
    rw [Int.natCast_zero, Int.zero_mul, Int.add_zero]
  refine ⟨Int.one_nonneg, ?_, ?_⟩
  · rw [hidx, DenseDim.index, if_pos hshrink, select, if_pos]
    · congr 2
      rw [forward]
      split_ifs <;> omega
    · rw [forward] at h0 hlt
      split_ifs at h0 hlt <;> omega
  · rw [hidx]
    intro k hk
    rw [List.mem_singleton.mp hk]
    exact ⟨h0, hlt⟩

structure InRange (dim : Nat) (s b e : Int) : Prop where
  pos : 0 < s → 0 ≤ b ∧ e ≤ dim
  neg : s < 0 → b ≤ (dim : Int) - 1 ∧ -1 ≤ e

theorem inRange_canonical :
    InRange dim d.strideI (canonicalBegin dim d) (canonicalEnd dim d) := by
  rw [canonicalBegin, canonicalEnd]
  constructor
  · intro hpos
    rw [if_pos hpos, if_pos hpos]
    exact ⟨(canonical_mem (by omega) (by omega) (by omega)).1,
      (canonical_mem (by omega) (by omega) (by omega)).2⟩
  · intro hneg
    rw [if_neg (by omega), if_neg (by omega)]
    exact ⟨(canonical_mem (by omega) (by omega) (by omega)).2,
      (canonical_mem (by omega) (by omega) (by omega)).1⟩

namespace InRange

variable {b e : Int} {size o : Nat}

theorem index_mem (h : InRange dim s b e) (hcov : Covers (e - b) s size) (ho : o < size) :
    0 ≤ b + o * s ∧ b + o * s < dim := by
  have hin := hcov.before o ho
  by_cases hpos : 0 < s
  · have hmul : 0 ≤ (o : Int) * s := Int.mul_nonneg (by omega) (by omega)
    have hb := h.pos hpos
    omega
  · have hneg : s < 0 := by omega
    have hmul : (o : Int) * s ≤ 0 := Int.mul_nonpos_of_nonneg_of_nonpos (by omega) (by omega)
    have hb := h.neg hneg
    omega

theorem size_le (h : InRange dim s b e) (hcov : Covers (e - b) s size) : size ≤ dim := by
  by_contra hgt
  have hin := hcov.before dim (not_le.mp hgt)
  by_cases hpos : 0 < s
  · have hmul : (dim : Int) * 1 ≤ dim * s := Int.mul_le_mul_of_nonneg_left (by omega) (by omega)
    have hb := h.pos hpos
    omega
  · have hneg : s < 0 := by omega
    have hmul : (dim : Int) * s ≤ dim * -1 := Int.mul_le_mul_of_nonneg_left (by omega) (by omega)
    have hb := h.neg hneg
    omega

end InRange

theorem selects_slice (hs : d.strideI ≠ 0) (hshrink : d.shrink = false) :
    Selects dim d ⟨canonicalBegin dim d, canonicalEnd dim d, d.strideI,
      sizeOf (canonicalEnd dim d - canonicalBegin dim d) d.strideI⟩ := by
  have hrange : InRange dim d.strideI (canonicalBegin dim d) (canonicalEnd dim d) :=
    inRange_canonical
  obtain ⟨hnonneg, hcov⟩ := covers_sizeOf hs
  refine ⟨hnonneg, ?_, ?_⟩
  · rw [DenseDim.index, hshrink, if_neg Bool.false_ne_true, select, if_neg hs, sliceIndices,
      elim_adjust hs, elim_adjust hs, ← canonicalBegin, ← canonicalEnd]
    refine congrArg some (pyRange_eq_map (hrange.size_le hcov) (fun o ho => ?_) ?_)
    · have hin := hcov.before o ho
      omega
    · have hout := hcov.after
      dsimp only
      omega
  · intro k hk
    obtain ⟨o, ho, rfl⟩ := List.mem_map.mp hk
    exact hrange.index_mem hcov (List.mem_range.mp ho)

/-- What is computed for a dimension of a fully defined shape, with known begin and end. -/
structure Known (i dim : Nat) (d : DenseDim) (f : Flags) (p : ProcessedDim) (f' : Flags) : Prop where
  stride_ne_zero : d.strideI ≠ 0
  stride_pos : d.shrink = true → 0 < d.strideI
  bounds : d.shrink = true → 0 ≤ forward dim d.beginI ∧ forward dim d.beginI < dim
  dim_eq : p = ⟨knownBegin dim d, knownEnd dim d, d.strideI,
    sizeOf (knownEnd dim d - knownBegin dim d) d.strideI⟩
  flags : f' =
    { isIdentity := f.isIdentity && takesAll dim d
      sliceDim0 := f.sliceDim0 && (decide (i = 0) && decide (d.strideI = 1) || takesAll dim d)
      isSimpleSlice := f.isSimpleSlice && decide (d.strideI = 1) }

theorem processDim_known (h : processDim true i (dim : Int) d f = .ok (p, f')) :
    Known i dim d f p f' := by
  unfold processDim at h
  split at h
  · cases h
  next hs =>
    rw [if_neg (by omega : ¬ (dim : Int) = -1)] at h
    split at h
    · cases h
    next hstride =>
      rw [if_pos rfl, processKnown] at h
      split at h
      · cases h
      next hbounds =>
        cases h
        refine ⟨hs, fun hshrink => ?_, fun hshrink => ?_, rfl, rfl⟩
        · by_contra hle
          exact hstride ⟨hshrink, not_lt.mp hle⟩
        · by_contra hno
          exact hbounds ⟨hshrink, by omega⟩

namespace Known

theorem size_of_shrink (h : Known i dim d f p f') (hshrink : d.shrink = true) : p.size = 1 := by
  rw [h.dim_eq, knownBegin, knownEnd, hshrink, if_pos rfl, if_pos rfl,
    show forward dim d.beginI + 1 - forward dim d.beginI = 1 by omega]
  exact sizeOf_one (h.stride_pos hshrink)

theorem selects (h : Known i dim d f p f') : Selects dim d p := by
  cases hshrink : d.shrink with
  | true =>
    have hsize := h.size_of_shrink hshrink
    rw [h.dim_eq] at hsize
    have hsize : sizeOf (knownEnd dim d - knownBegin dim d) d.strideI = 1 := hsize
    rw [h.dim_eq, hsize, knownBegin, knownEnd, hshrink]
    exact selects_shrink hshrink (h.bounds hshrink).1 (h.bounds hshrink).2
  | false =>
    rw [h.dim_eq, knownBegin, knownEnd, hshrink]
    exact selects_slice h.stride_ne_zero hshrink

end Known

end TfReading.StridedSlice
