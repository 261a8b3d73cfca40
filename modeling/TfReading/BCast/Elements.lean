import TfReading.BCast.Plan

/-!
# Element correctness of `BCastList`

For shapes whose products stay in range, reshaping an input and tiling it, as the plan says,
gives the elements that numpy's broadcasting gives.
-/

namespace TfReading.BCast

open MixedRadix Util List

variable {n N : Nat} {x : Fin N → Vec} {i : Fin N} {p : Nat} {s : Merged N}
  {stack : List (Position N)} {fewer : Bool}

/-- The position, in an array of shape `reshape`, of the element at position `p` of the array that
is tiled by `bcast`. -/
def planIndex (reshape bcast : Vec) (p : Nat) : Nat :=
  let sizes := (reshape.map Int.toNat).reverse
  let extents := ((List.zipWith (· * ·) reshape bcast).map Int.toNat).reverse
  value sizes (List.zipWith (· % ·) (digits extents p) sizes)

/-- The position, in an array of shape `x`, of the element that broadcasting to `output` puts at
position `p`: ones are prepended to the shape, and dimensions of size 1 are repeated. -/
def numpyIndex (x output : Vec) (p : Nat) : Nat :=
  let sizes := (List.range output.length).map fun j => (dimAt x j).toNat
  let index := digits (output.reverse.map Int.toNat) p
  value sizes (List.zipWith (fun d i => if d = 1 then 0 else i) sizes index)

structure PlanCorrect (x : Fin N → Vec) (b : BCastList N) : Prop where
  /-- No product has overflowed. -/
  defined : b.defined = true
  reshape_prod : ∀ i, (b.reshape i).prod = (x i).prod
  lengths : ∀ i, (b.reshape i).length = b.result.length ∧ (b.bcast i).length = b.result.length
  extents : ∀ i, List.zipWith (· * ·) (b.reshape i) (b.bcast i) = b.result
  result_prod : b.result.prod = b.output.prod
  elements : ∀ i (p : Nat), (p : Int) < b.output.prod →
    planIndex (b.reshape i) (b.bcast i) p = numpyIndex (x i) (numpyShape x) p

/-- The products that are formed stay in range.  For identical shapes, these are the products of
their leading dimensions.  Otherwise they are those of the innermost dimensions of the output
and, to save dimensions, of the dimensions in runs of positions at which the same inputs are 1. -/
def ProductsFit (x : Fin (n + 1) → Vec) (fewer : Bool) : Prop :=
  if allEqual x && fewer then PrefixesFit (x ⟨0, n.succ_pos⟩)
  else PrefixesFit (numpyShape x).reverse ∧ (fewer = true → RunsFit none (positions x))

/-! ## Positions of elements -/

theorem planIndex_eq_tiled {l : List (Nat × Nat)} {reshape bcast : Vec}
    (hsize : reshape.map Int.toNat = (l.map Prod.snd).reverse)
    (hext : (zipWith (· * ·) reshape bcast).map Int.toNat = (l.map Prod.fst).reverse) :
    planIndex reshape bcast p = tiled l p := by
  rw [planIndex, hsize, hext, reverse_reverse, reverse_reverse]
  exact value_mod_digits

theorem zipWith_map_cast (f g : Position N → Nat) :
    zipWith (· * ·) (stack.map fun b => (f b : Int)) (stack.map fun b => (g b : Int)) =
      stack.map fun b => ((f b * g b : Nat) : Int) := by
  rw [zipWith_map, zipWith_self]
  apply map_congr_left
  intro b _
  exact (Int.natCast_mul _ _).symm

theorem toNat_map_cast (f : Position N → Nat) :
    (stack.map fun b => (f b : Int)).map Int.toNat = stack.map f := by
  rw [map_map]
  exact map_congr_left fun b _ => Int.toNat_natCast (f b)

theorem prod_map_cast (f : Position N → Nat) :
    (stack.map fun b => (f b : Int)).prod = ((stack.map f).prod : Nat) := by
  induction stack with
  | nil => rfl
  | cons b stack ih => rw [map_cons, map_cons, prod_cons, prod_cons, ih,
      Int.natCast_mul]

theorem natCast_prod_toNat {l : List Int} (h : ∀ d ∈ l, 0 ≤ d) :
    (((l.map Int.toNat).prod : Nat) : Int) = l.prod := by
  induction l with
  | nil => rfl
  | cons d l ih =>
    obtain ⟨hd, hl⟩ := forall_mem_cons.mp h
    rw [map_cons, prod_cons, prod_cons, Int.natCast_mul, ih hl,
      Int.toNat_of_nonneg hd]

namespace Vectors

section

variable (h : Vectors s stack)

include h

theorem planIndex_eq (i : Fin N) :
    planIndex (s.reshape i) (s.bcast i) p = tiled (rows i stack) p := by
  apply planIndex_eq_tiled
  · rw [h.reshape, toNat_map_cast, rows, map_map, map_reverse, reverse_reverse]
    rfl
  · rw [h.reshape, h.bcast, zipWith_map_cast, toNat_map_cast, rows, map_map, map_reverse,
      reverse_reverse]
    exact map_congr_left fun b _ => Position.size_mul_copies

theorem extents (i : Fin N) :
    zipWith (· * ·) (s.reshape i) (s.bcast i) = s.result := by
  rw [h.reshape, h.bcast, h.result, zipWith_map_cast]
  exact map_congr_left fun b _ => congrArg Nat.cast Position.size_mul_copies

theorem reshape_prod (i : Fin N) :
    (s.reshape i).prod = (copied (rows i stack) : Nat) := by
  rw [h.reshape, prod_map_cast, copied, rows, map_map, map_reverse, prod_reverse]
  rfl

theorem result_prod (i : Fin N) :
    s.result.prod = (extent (rows i stack) : Nat) := by
  rw [h.result, prod_map_cast, extent, rows, map_map, map_reverse, prod_reverse]
  rfl

theorem lengths (i : Fin N) :
    (s.reshape i).length = s.result.length ∧ (s.bcast i).length = s.result.length := by
  rw [h.reshape, h.bcast, h.result, length_map, length_map, length_map]
  exact ⟨rfl, rfl⟩

/-- The dimension that is added to an empty result. -/
theorem orOne : ∃ stack', Vectors s.orOne stack' ∧
    ∀ i, SameTiles (rows i stack') (rows i stack) := by
  cases stack with
  | nil =>
    refine ⟨[⟨1, fun _ => true⟩], ?_, fun i => ?_⟩
    · have hnil : s.result = [] := h.result
      rw [Merged.orOne, if_pos (by rw [hnil]; rfl)]
      constructor
      · rfl
      · intro i
        show 1 :: s.reshape i = _
        rw [h.reshape]
        rfl
      · intro i
        show 1 :: s.bcast i = _
        rw [h.bcast]
        rfl
    · exact SameTiles.one.symm
  | cons b stack =>
    refine ⟨b :: stack, ?_, fun i => .refl _⟩
    rw [Merged.orOne, if_neg (by rw [h.result]; exact Bool.false_ne_true)]
    exact h

end

end Vectors

/-! ## Numbers of elements -/

theorem map_dimAt_range {v : Vec} {m : Nat} (h : v.length ≤ m) :
    (range m).map (dimAt v) = v.reverse ++ replicate (m - v.length) 1 := by
  apply ext_getElem
  · rw [length_map, length_range, length_append, length_reverse,
      length_replicate]
    omega
  · intro j h₁ h2
    rw [getElem_map, getElem_range, dimAt]
    by_cases hj : j < v.reverse.length
    · rw [getElem_append_left hj, getD_eq_getElem _ _ hj]
    · have hj : v.reverse.length ≤ j := not_lt.mp hj
      rw [getElem_append_right hj, getD_eq_default _ _ hj, getElem_replicate]

theorem copied_positions (hx : Dims x) (i : Fin N) :
    ((copied (rows i (positions x).reverse) : Nat) : Int) = (x i).prod := by
  have hpad := map_dimAt_range (length_le_largestRank x i)
  have hnonneg : ∀ d ∈ (range (largestRank x)).map (dimAt (x i)), 0 ≤ d := by
    intro d hd
    obtain ⟨j, -, rfl⟩ := mem_map.mp hd
    exact dimAt_nonneg (hx.nonneg i) j
  have hprod := natCast_prod_toNat hnonneg
  rw [rows_positions hx.compatible, copied, map_map]
  rw [hpad, prod_append, prod_replicate, one_pow, mul_one, prod_reverse, ← hpad,
    map_map] at hprod
  exact hprod

theorem numpyShape_reverse : (numpyShape x).reverse = (range (largestRank x)).map (numpyDim x) :=
  reverse_reverse _

theorem numpyShape_nonneg (h : ∀ i, ∀ d ∈ x i, 0 ≤ d) : ∀ d ∈ numpyShape x, 0 ≤ d := by
  intro d hd
  obtain ⟨j, -, rfl⟩ := mem_map.mp (mem_reverse.mp hd)
  exact numpyDim_nonneg h j

theorem extent_positions (hx : Dims x) (i : Fin N) :
    ((extent (rows i (positions x).reverse) : Nat) : Int) = (numpyShape x).prod := by
  rw [← natCast_prod_toNat (numpyShape_nonneg hx.nonneg), rows_positions hx.compatible, extent,
    map_map, numpyShape, map_reverse, prod_reverse, map_map]
  rfl

theorem numpyIndex_eq (hx : Dims x) (i : Fin N) :
    numpyIndex (x i) (numpyShape x) p = tiled (rows i (positions x).reverse) p := by
  have hlen : (numpyShape x).length = largestRank x := by
    rw [numpyShape, length_reverse, length_map, length_range]
  rw [rows_positions hx.compatible, ← value_zero_digits, map_map, map_map, numpyIndex,
    hlen, numpyShape_reverse, map_map]
  · rfl
  · intro y hy
    obtain ⟨j, -, rfl⟩ := mem_map.mp hy
    by_cases h1 : dimAt (x i) j = 1
    · exact .inl (by rw [h1]; rfl)
    · exact .inr (congrArg Int.toNat (hx.compatible.dimAt_eq i h1))

/-! ## The plan -/

section Constructor

variable {x : Fin (n + 1) → Vec} {batches : Bool} {b : BCastList (n + 1)}

theorem represents_start (fewer : Bool) : Represents fewer (Merged.start : Merged N) [] :=
  ⟨⟨rfl, fun _ => rfl, fun _ => rfl⟩, fun _ => rfl, fun _ _ _ h => nomatch h⟩

theorem planCorrect_slow (hx : Dims x) (hslow : (allEqual x && fewer) = false) :
    (∃ b, bcastList x fewer batches = some b ∧ PlanCorrect x b) ↔ ProductsFit x fewer := by
  obtain ⟨s, hs, hdef, hrep⟩ := loop_spec (range (largestRank x)) hx
    (represents_start fewer) rfl (show Merged.start.outputBatchSize = ((1 : Nat) : Int) from rfl)
    (by decide)
  have hfit : s.defined = true ↔ ProductsFit x fewer := by
    rw [hdef, ProductsFit, hslow, if_neg Bool.false_ne_true, PrefixesFit, numpyShape_reverse]
    simp only [Int.natCast_one, one_mul]
    rfl
  have hdefined : s.orOne.defined = s.defined := by
    rw [Merged.orOne]
    split <;> rfl
  constructor
  · rintro ⟨b, hb, hplan⟩
    rw [bcastList, hslow, if_neg Bool.false_ne_true, hs, Option.some_inj] at hb
    subst hb
    rw [← hfit, ← hdefined]
    exact hplan.defined
  · intro hprod
    obtain ⟨stack, hvec, hsame⟩ := (hrep (hfit.mpr hprod)).toVectors.orOne
    have htiles : ∀ i, SameTiles (rows i stack) (rows i (positions x).reverse) := by
      intro i
      apply (hsame i).trans
      have hfold := sameTiles_foldl_join i fewer [] (fun b (hb : b ∈ positions x) h1 => by
          obtain ⟨j, -, rfl⟩ := mem_map.mp hb
          exact extent_position_of_allOnes h1)
      rw [append_nil] at hfold
      exact hfold
    have hvalid : ∃ b, bcastList x fewer batches = some b ∧ b.defined = s.orOne.defined ∧
        b.reshape = s.orOne.reshape ∧ b.bcast = s.orOne.bcast ∧ b.result = s.orOne.result := by
      rw [bcastList, hslow, if_neg Bool.false_ne_true, hs]
      exact ⟨_, rfl, rfl, rfl, rfl, rfl⟩
    obtain ⟨b, hb, hbdef, hreshape, hbcast, hresult⟩ := hvalid
    have hout := output_eq_numpyShape hx.nonneg hx.numpyDim_lt hb
    refine ⟨b, hb, ?_⟩
    constructor
    · rw [hbdef, hdefined]
      exact hfit.mpr hprod
    · intro i
      rw [hreshape, hvec.reshape_prod, (htiles i).copied_eq, copied_positions hx]
    · rw [hreshape, hbcast, hresult]
      exact hvec.lengths
    · rw [hreshape, hbcast, hresult]
      exact hvec.extents
    · rw [hresult, hout, hvec.result_prod 0, (htiles 0).extent_eq, extent_positions hx]
    · intro i p _
      rw [hreshape, hbcast, hvec.planIndex_eq, (htiles i).tiled_eq, numpyIndex_eq hx]

theorem numpyIndex_of_allEqual (hx : Dims x) (heq : allEqual x = true) (i : Fin (n + 1))
    (hp : (p : Int) < (x 0).prod) : numpyIndex (x i) (numpyShape x) p = p := by
  have hrows : rows i (positions x).reverse =
      ((range (largestRank x)).map fun j => (numpyDim x j).toNat).map fun d => (d, d) := by
    rw [rows_positions hx.compatible, map_map]
    apply map_congr_left
    intro j _
    rw [Function.comp_apply, numpyDim_of_allEqual heq j, allEqual_iff.mp heq i]
  have hext := extent_positions hx i
  rw [numpyShape_of_allEqual heq, hrows, extent, map_map] at hext
  rw [numpyIndex_eq hx, hrows]
  apply tiled_diag
  have hid : (Prod.fst ∘ fun d : Nat => (d, d)) = id := rfl
  rw [hid, map_id] at hext
  omega

theorem planCorrect_fast (hx : Dims x) (hfast : (allEqual x && fewer) = true) :
    (∃ b, bcastList x fewer batches = some b ∧ PlanCorrect x b) ↔ ProductsFit x fewer := by
  have heq : allEqual x = true := (Bool.and_eq_true_iff.mp hfast).1
  obtain ⟨hdef, hval⟩ := countElements_spec (hx.nonneg 0) Int.one_nonneg (by decide)
  simp only [one_mul] at hdef hval
  have hfit : (countElements (x 0) 1 true).2 = true ↔ ProductsFit x fewer := by
    rw [hdef, ProductsFit, if_pos hfast]
    rfl
  have hlist : bcastList x fewer batches = some (identicalShapes x) := by
    rw [bcastList, if_pos hfast]
  rw [hlist]
  constructor
  · rintro ⟨b, hb, hplan⟩
    cases hb
    exact hfit.mp hplan.defined
  · intro hprod
    have helems := hval (hfit.mpr hprod)
    refine ⟨_, rfl, hfit.mpr hprod, fun i => ?_, fun i => ⟨rfl, rfl⟩, fun i => ?_, ?_, fun i p hp => ?_⟩
    · show [(countElements (x 0) 1 true).1].prod = _
      rw [helems, prod_singleton, allEqual_iff.mp heq i]
    · show [_ * 1] = [_]
      rw [Int.mul_one]
    · show [(countElements (x 0) 1 true).1].prod = (x 0).prod
      rw [helems, prod_singleton]
    · have hp : (p : Int) < (x 0).prod := hp
      have hplan : planIndex [(x 0).prod] [1] p = tiled [((x 0).prod.toNat, (x 0).prod.toNat)] p := by
        apply planIndex_eq_tiled
        · rfl
        · show [((x 0).prod * 1).toNat] = [(x 0).prod.toNat]
          rw [Int.mul_one]
      show planIndex [(countElements (x 0) 1 true).1] [1] p = _
      rw [helems, hplan, numpyIndex_of_allEqual hx heq i hp]
      show tiled ([(x 0).prod.toNat].map fun d => (d, d)) p = p
      apply tiled_diag
      rw [prod_singleton]
      omega

theorem planCorrect_iff (hx : Dims x) :
    (∃ b, bcastList x fewer batches = some b ∧ PlanCorrect x b) ↔ ProductsFit x fewer := by
  cases hpath : allEqual x && fewer with
  | true => exact planCorrect_fast hx hpath
  | false => exact planCorrect_slow hx hpath

theorem dims_outer : Dims ![[2, 1], [3]] where
  compatible := by
    intro j
    match j with
    | 0 => decide
    | 1 => decide
    | j + 2 =>
      intro i _ hi _
      have hlen : ∀ i, (![[2, 1], [3]] i : Vec).length ≤ 2 := by decide
      exact absurd (dimAt_of_le (le_trans (hlen i) (Nat.le_add_left 2 j))) hi
  nonneg := by decide
  lt := by decide

theorem planCorrect_iff_outer :
    (∃ b, bcastList ![[2, 1], [3]] true false = some b ∧ PlanCorrect ![[2, 1], [3]] b) ↔
      ProductsFit ![[2, 1], [3]] true :=
  planCorrect_iff dims_outer

/-- Three dimensions are collapsed into one whose size does not fit. -/
theorem not_planCorrect_of_large :
    Dims ![[2 ^ 31 - 1, 2 ^ 31 - 1, 2 ^ 31 - 1]] ∧
      ∃ b, bcastList ![[2 ^ 31 - 1, 2 ^ 31 - 1, 2 ^ 31 - 1]] true false = some b ∧
        b.result.prod ≠ b.output.prod ∧
          ¬ PlanCorrect ![[2 ^ 31 - 1, 2 ^ 31 - 1, 2 ^ 31 - 1]] b := by
  have hprod : ∃ b, bcastList ![[2 ^ 31 - 1, 2 ^ 31 - 1, 2 ^ 31 - 1]] true false = some b ∧
      b.result.prod ≠ b.output.prod := ⟨_, rfl, by decide +kernel⟩
  obtain ⟨b, hb, hne⟩ := hprod
  constructor
  · constructor
    · intro j i k _ _
      rw [Subsingleton.elim i k]
    · decide
    · decide
  · exact ⟨b, hb, hne, fun h => hne h.result_prod⟩

end Constructor

end TfReading.BCast
