import Mathlib.Algebra.BigOperators.Ring.List
import Mathlib.Data.List.GetD
import Mathlib.Data.List.Nodup
import TfReading.Library.MixedRadix
import TfReading.Util.Overflow

/-!
# Array shapes and `xla/index_util`

A `Shape` is an array shape with a dense layout that `ShapeUtil::ValidateShape` accepts, which
every shape made through `ShapeUtil` has passed.  Tiles, dynamic dimensions and memory spaces
play no part in the functions modelled here.

The loops over `minor_to_major` are mixed-radix numbers in the order of the layout.
`physical_eq_strided` turns them into sums over the logical order of the dimensions.
-/

namespace TfReading.ShapeUtil

open MixedRadix List

inductive PrimitiveType
  | pred | s8 | s16 | s32 | s64 | u8 | u16 | u32 | u64 | f16 | bf16 | f32 | f64 | c64 | c128
  deriving DecidableEq, Repr

def byteSizeOfPrimitiveType : PrimitiveType → Nat
  | .pred | .s8 | .u8 => 1
  | .s16 | .u16 | .f16 | .bf16 => 2
  | .s32 | .u32 | .f32 => 4
  | .s64 | .u64 | .f64 | .c64 => 8
  | .c128 => 16

/-- The loop of `ValidateShapeSize`, with a negative result for sizes that do not fit. -/
def denseShapeSize (elementType : PrimitiveType) : Nat → List Nat → Int
  | size, [] => Util.multiplyUnsigned size (byteSizeOfPrimitiveType elementType)
  | size, dim :: dims =>
    if Util.multiplyUnsigned size dim < 0 then Util.multiplyUnsigned size dim
    else denseShapeSize elementType (Util.multiplyUnsigned size dim).toNat dims

def validateShapeSize (elementType : PrimitiveType) (dimensions : List Nat) : Bool :=
  dimensions.isEmpty || decide (0 ≤ denseShapeSize elementType 1 dimensions)

structure Shape where
  elementType : PrimitiveType
  dimensions : List Nat
  /-- The dimensions from the most minor to the most major one. -/
  minorToMajor : List Nat
  perm : minorToMajor.Perm (List.range dimensions.length)
  size_valid : validateShapeSize elementType dimensions = true

namespace Shape

def rank (s : Shape) : Nat := s.dimensions.length

def dim (s : Shape) (d : Nat) : Nat := s.dimensions.getD d 0

end Shape

def elementsIn (s : Shape) : Nat := s.dimensions.prod

variable {elementType : PrimitiveType} {dims : List Nat}

theorem denseShapeSize_nonneg_iff {size : Nat}
    (hpos : ∀ d ∈ dims, 1 ≤ d) : 0 ≤ denseShapeSize elementType size dims ↔
      size * dims.prod * byteSizeOfPrimitiveType elementType < 2 ^ 63 := by
  have hbyte : 1 ≤ byteSizeOfPrimitiveType elementType := by cases elementType <;> decide
  induction dims generalizing size with
  | nil =>
    rw [denseShapeSize, prod_nil, Nat.mul_one, ← Int.not_lt]
    constructor
    · intro h
      by_contra hge
      exact h (Util.multiplyUnsigned_neg (not_lt.mp hge))
    · intro h
      rw [Util.multiplyUnsigned_of_lt h]
      omega
  | cons d dims ih =>
    have hrest : ∀ e ∈ dims, 1 ≤ e := fun e he => hpos e (mem_cons_of_mem _ he)
    rw [denseShapeSize, prod_cons, ← Nat.mul_assoc]
    by_cases hlt : size * d < 2 ^ 63
    · rw [Util.multiplyUnsigned_of_lt hlt, if_neg (by omega), Int.toNat_natCast]
      exact ih hrest
    · have hneg := Util.multiplyUnsigned_neg (not_lt.mp hlt)
      have hle : size * d ≤ size * d * dims.prod * byteSizeOfPrimitiveType elementType := by
        rw [Nat.mul_assoc]
        exact Nat.le_mul_of_pos_right _ (Nat.mul_pos (prod_pos hrest) hbyte)
      rw [if_pos hneg]
      constructor <;> intro h <;> omega

theorem validateShapeSize_iff (hpos : ∀ d ∈ dims, 1 ≤ d) : validateShapeSize elementType dims = true
    ↔
      dims.prod * byteSizeOfPrimitiveType elementType < 2 ^ 63 := by
  rw [validateShapeSize, Bool.or_eq_true, decide_eq_true_eq, denseShapeSize_nonneg_iff hpos,
    Nat.one_mul]
  refine or_iff_right_of_imp fun hempty => ?_
  rw [isEmpty_iff.mp hempty]
  cases elementType <;> decide

/-- No product of dimensions exceeds an `int64`. -/
theorem elementsIn_lt (s : Shape) : elementsIn s < 2 ^ 63 := by
  by_cases hzero : elementsIn s = 0
  · rw [hzero]
    decide
  · have hpos : ∀ d ∈ s.dimensions, 1 ≤ d := by
      intro d hd
      exact Nat.one_le_iff_ne_zero.mpr fun h => hzero (prod_eq_zero_iff.mpr (h ▸ hd))
    have hbyte : 1 ≤ byteSizeOfPrimitiveType s.elementType := by cases s.elementType <;> decide
    exact lt_of_le_of_lt (Nat.le_mul_of_pos_right _ hbyte)
      ((validateShapeSize_iff hpos).mp s.size_valid)

/-- `MakeShapeWithDescendingLayout`, for the dimensions and the element type of a shape. -/
def makeShapeWithDescendingLayout (s : Shape) : Shape :=
  { s with
    minorToMajor := (List.range s.dimensions.length).reverse
    perm := reverse_perm _ }

/-! ## `IndexUtil` -/

/-- The loop of `MultidimensionalIndexToLinearIndex` after its first turn. -/
def linearIndexLoop (s : Shape) (multiIndex : List Nat) : List Nat → Nat → Nat → Nat
  | [], _, linearIndex => linearIndex
  | d :: ds, scale, linearIndex =>
    linearIndexLoop s multiIndex ds (scale * s.dim d) (linearIndex + scale * multiIndex.getD d 0)

def multidimensionalIndexToLinearIndex (s : Shape) (multiIndex : List Nat) : Nat :=
  match s.minorToMajor with
  | [] => 0
  | d :: ds => linearIndexLoop s multiIndex ds (s.dim d) (multiIndex.getD d 0)

def multiIndexLoop (s : Shape) (linearIndex : Nat) : List Nat → Nat → List Nat → List Nat
  | [], _, multiIndex => multiIndex
  | d :: ds, divisor, multiIndex =>
    multiIndexLoop s linearIndex ds (divisor * s.dim d)
      (multiIndex.set d (linearIndex / divisor % s.dim d))

def linearIndexToMultidimensionalIndex (s : Shape) (linearIndex : Nat) : List Nat :=
  multiIndexLoop s linearIndex s.minorToMajor 1 (List.replicate s.rank 0)

/-- The loop of `BumpIndices` over the dimensions below `dimno`, from the last one down. -/
def bumpLoop (s : Shape) (indices : List Nat) : Nat → Bool × List Nat
  | 0 => (false, indices)
  | dimno + 1 =>
    if indices.getD dimno 0 + 1 < s.dim dimno then
      (true, (indices.set dimno (indices.getD dimno 0 + 1)).take (dimno + 1) ++
        replicate (indices.length - (dimno + 1)) 0)
    else bumpLoop s indices dimno

/-- `BumpIndices`, with what it leaves in `indices`. -/
def bumpIndices (s : Shape) (indices : List Nat) : Bool × List Nat :=
  bumpLoop s indices indices.length

/-- The indices after `n` calls of `BumpIndices`, from the all-zero ones on. -/
def bumped (s : Shape) (n : Nat) : List Nat :=
  (fun indices => (bumpIndices s indices).2)^[n] (replicate s.rank 0)

/-! ## Positions -/

/-- The row-major position of an index, whatever the layout. -/
def logical (s : Shape) (index : List Nat) : Nat :=
  value s.dimensions.reverse index.reverse

/-- The position in memory: the digits in the order of the layout. -/
def physical (s : Shape) (index : List Nat) : Nat :=
  value (s.minorToMajor.map s.dim) (s.minorToMajor.map fun d => index.getD d 0)

variable {s : Shape} {index ds vs : List Nat} {n : Nat}

theorem linearIndexLoop_eq (scale linearIndex : Nat) :
    linearIndexLoop s index ds scale linearIndex =
      linearIndex + scale * value (ds.map s.dim) (ds.map fun d => index.getD d 0) := by
  induction ds generalizing scale linearIndex with
  | nil => rfl
  | cons d ds ih =>
    rw [linearIndexLoop, ih, map_cons, map_cons, value]
    ring

theorem multidimensionalIndexToLinearIndex_eq :
    multidimensionalIndexToLinearIndex s index = physical s index := by
  rw [multidimensionalIndexToLinearIndex, physical]
  split
  next h => rw [h]; rfl
  next d ds h => rw [h, linearIndexLoop_eq, map_cons, map_cons, value]

/-- The writes `output[ds[i]] = vs[i]`, one after the other. -/
def scatter : List Nat → List Nat → List Nat → List Nat
  | d :: ds, v :: vs, output => scatter ds vs (output.set d v)
  | _, _, output => output

theorem length_scatter : (scatter ds vs index).length = index.length := by
  fun_induction scatter ds vs index with
  | case1 d ds v vs index ih => rw [ih, length_set]
  | case2 => rfl

theorem scatter_getD (hd : ds.Nodup) (hlt : ∀ d ∈ ds, d < index.length)
    (hlen : ds.length = vs.length) : ds.map (fun d => (scatter ds vs index).getD d 0) = vs ∧
      ∀ d, d ∉ ds → (scatter ds vs index).getD d 0 = index.getD d 0 := by
  induction ds generalizing vs index with
  | nil => exact ⟨(length_eq_zero_iff.mp hlen.symm).symm, fun _ _ => rfl⟩
  | cons d ds ih =>
    obtain ⟨v, vs, rfl⟩ := exists_cons_of_length_eq_add_one hlen.symm
    obtain ⟨hnot, hd⟩ := nodup_cons.mp hd
    have hlt' : ∀ e ∈ ds, e < (index.set d v).length := fun e he => by
      rw [length_set]
      exact hlt e (mem_cons_of_mem d he)
    obtain ⟨hmap, hrest⟩ := ih hd hlt' (Nat.succ.inj hlen)
    constructor
    · rw [map_cons, scatter, hmap, hrest d hnot, getD_eq_getElem?_getD,
        getElem?_set_self (hlt d mem_cons_self)]
      rfl
    · intro e he
      obtain ⟨hne, hin⟩ := not_or.mp (mt mem_cons.mpr he)
      rw [scatter, hrest e hin, getD_eq_getElem?_getD, getElem?_set_ne (Ne.symm hne),
        getD_eq_getElem?_getD]

theorem multiIndexLoop_eq (n divisor : Nat) : multiIndexLoop s n ds divisor index =
    scatter ds (digits (ds.map s.dim) (n / divisor)) index := by
  induction ds generalizing divisor index with
  | nil => rfl
  | cons d ds ih => rw [multiIndexLoop, ih, map_cons, digits, scatter, Nat.div_div_eq_div_mul]

theorem map_getD_range (l : List Nat) (n : Nat) (hn : l.length = n) :
    (range n).map (fun d => l.getD d 0) = l := by
  subst hn
  apply ext_getElem
  · rw [length_map, length_range]
  · intro i h1 h2
    rw [getElem_map, getElem_range, getD_eq_getElem _ _ h2]

theorem length_linearIndexToMultidimensionalIndex (n : Nat) :
    (linearIndexToMultidimensionalIndex s n).length = s.rank := by
  rw [linearIndexToMultidimensionalIndex, multiIndexLoop_eq, length_scatter, length_replicate]

theorem map_linearIndexToMultidimensionalIndex (n : Nat) :
    s.minorToMajor.map (fun d => (linearIndexToMultidimensionalIndex s n).getD d 0) =
      digits (s.minorToMajor.map s.dim) n := by
  rw [linearIndexToMultidimensionalIndex, multiIndexLoop_eq, Nat.div_one]
  refine (scatter_getD (s.perm.nodup_iff.mpr nodup_range) (fun d hd => ?_) ?_).1
  · rw [length_replicate]
    exact mem_range.mp (s.perm.mem_iff.mp hd)
  · rw [length_digits, length_map]

theorem map_dim_range : (range s.rank).map s.dim = s.dimensions := map_getD_range _ _ rfl

theorem linearIndexToMultidimensionalIndex_descending (n : Nat) :
    linearIndexToMultidimensionalIndex (makeShapeWithDescendingLayout s) n =
      (digits s.dimensions.reverse n).reverse := by
  have hmap := map_linearIndexToMultidimensionalIndex (s := makeShapeWithDescendingLayout s) n
  have hdims : (range s.rank).reverse.map s.dim = s.dimensions.reverse := by
    rw [map_reverse, map_dim_range]
  rw [← hdims]
  refine (map_getD_range _ _ (length_linearIndexToMultidimensionalIndex n)).symm.trans ?_
  refine .trans ?_ (congrArg reverse hmap)
  rw [← map_reverse]
  exact congrArg (map _) (reverse_reverse _).symm

theorem prod_minorToMajor : (s.minorToMajor.map s.dim).prod = elementsIn s := by
  rw [(s.perm.map s.dim).prod_eq]
  exact congrArg prod map_dim_range

theorem inBounds_map {f g : Nat → Nat} :
    InBounds (ds.map f) (ds.map g) ↔ ∀ d ∈ ds, g d < f d := by
  rw [InBounds, forall₂_map_left_iff, forall₂_map_right_iff, forall₂_same]

theorem inBounds_iff (hds : ds.Perm (range s.rank)) (hlen : index.length = s.rank) :
    InBounds s.dimensions index ↔ InBounds (ds.map s.dim) (ds.map fun d => index.getD d 0) := by
  conv_lhs => rw [← map_dim_range, ← map_getD_range index s.rank hlen]
  rw [inBounds_map, inBounds_map]
  exact forall_congr' fun d => imp_congr_left hds.mem_iff.symm

theorem linearIndexToMultidimensionalIndex_inverse (hn : n < elementsIn s) :
    InBounds s.dimensions (linearIndexToMultidimensionalIndex s n) ∧
      multidimensionalIndexToLinearIndex s (linearIndexToMultidimensionalIndex s n) = n := by
  rw [← prod_minorToMajor] at hn
  rw [inBounds_iff s.perm (length_linearIndexToMultidimensionalIndex n),
    multidimensionalIndexToLinearIndex_eq, physical, map_linearIndexToMultidimensionalIndex]
  exact ⟨digits_inBounds hn, value_digits hn⟩

theorem multidimensionalIndexToLinearIndex_inverse (h : InBounds s.dimensions index) :
    multidimensionalIndexToLinearIndex s index < elementsIn s ∧
      linearIndexToMultidimensionalIndex s (multidimensionalIndexToLinearIndex s index) = index := by
  have hlen : index.length = s.rank := h.length_eq.symm
  have hbounds := (inBounds_iff s.perm hlen).mp h
  have hmap := map_linearIndexToMultidimensionalIndex (s := s) (physical s index)
  rw [physical, digits_value hbounds] at hmap
  rw [multidimensionalIndexToLinearIndex_eq, ← prod_minorToMajor]
  refine ⟨value_lt hbounds, ?_⟩
  rw [← map_getD_range (linearIndexToMultidimensionalIndex s _) s.rank
    (length_linearIndexToMultidimensionalIndex _), physical]
  conv_rhs => rw [← map_getD_range index s.rank hlen]
  exact map_congr_left fun d hd => map_inj_left.mp hmap d (s.perm.mem_iff.mpr hd)

/-- With the indices below `k` those of position `p`, and the others at their last value. -/
theorem bumpLoop_eq {k p : Nat} (hk : k ≤ s.rank) (hlen : index.length = s.rank)
    (hp : p < (s.dimensions.take k).prod)
    (hindex : index.take k = (digits (s.dimensions.take k).reverse p).reverse) :
    bumpLoop s index k = if p + 1 < (s.dimensions.take k).prod then
      (true, (digits (s.dimensions.take k).reverse (p + 1)).reverse ++ replicate (s.rank - k) 0)
      else (false, index) := by
  induction k generalizing p with
  | zero =>
    rw [take_zero, prod_nil] at hp ⊢
    rw [bumpLoop, if_neg (by omega)]
  | succ k ih =>
    have hdims : s.dimensions.take (k + 1) = s.dimensions.take k ++ [s.dim k] := by
      rw [take_add_one, Shape.dim, getD_eq_getElem _ _ hk, getElem?_eq_getElem hk]
      rfl
    have htake : index.take (k + 1) = index.take k ++ [index.getD k 0] := by
      rw [take_add_one, getD_eq_getElem _ _ (hlen ▸ hk), getElem?_eq_getElem (hlen ▸ hk)]
      rfl
    rw [hdims, prod_append, prod_singleton] at hp
    rw [hdims, htake, reverse_concat, digits, reverse_cons] at hindex
    obtain ⟨hrest, hlast⟩ := append_inj' hindex rfl
    have hd : 0 < s.dim k := Nat.pos_of_mul_pos_left (Nat.zero_lt_of_lt hp)
    have hdiv := Nat.div_add_mod p (s.dim k)
    have hmod := Nat.mod_lt p hd
    have hq : p / s.dim k < (s.dimensions.take k).prod := (Nat.div_lt_iff_lt_mul hd).mpr hp
    rw [bumpLoop, singleton_inj.mp hlast, hdims, prod_append, prod_singleton, reverse_concat, digits,
      reverse_cons, ← if_congr (Nat.div_lt_iff_lt_mul hd) rfl rfl]
    by_cases hnext : p % s.dim k + 1 < s.dim k
    · have hp : p + 1 = p % s.dim k + 1 + s.dim k * (p / s.dim k) := by omega
      rw [if_pos hnext, hp, Nat.add_mul_mod_self_left, Nat.mod_eq_of_lt hnext,
        Nat.add_mul_div_left _ _ hd, Nat.div_eq_of_lt hnext, Nat.zero_add, if_pos hq, take_add_one,
        getElem?_set_self (hlen ▸ hk), take_set_of_le le_rfl, hrest, hlen]
      rfl
    · -- This index goes back to zero, and one is carried to the dimension before it.
      have hp : p + 1 = s.dim k * (p / s.dim k + 1) := by
        rw [Nat.mul_add]
        omega
      rw [if_neg hnext, hp, Nat.mul_mod_right, Nat.mul_div_cancel_left _ hd,
        ih (Nat.le_of_succ_le hk) hq hrest, append_assoc, singleton_append, ← replicate_succ,
        show s.rank - (k + 1) + 1 = s.rank - k by omega]

theorem bumpIndices_digits (hn : n < elementsIn s) :
    bumpIndices s (digits s.dimensions.reverse n).reverse = if n + 1 < elementsIn s then
      (true, (digits s.dimensions.reverse (n + 1)).reverse)
      else (false, (digits s.dimensions.reverse n).reverse) := by
  have hlen : (digits s.dimensions.reverse n).reverse.length = s.rank := by
    rw [length_reverse, length_digits, length_reverse, Shape.rank]
  have htake : s.dimensions.take s.rank = s.dimensions := take_length
  have hloop := bumpLoop_eq (p := n) le_rfl hlen
  rw [htake, take_of_length_le hlen.le, Nat.sub_self, replicate_zero,
    append_nil] at hloop
  rw [bumpIndices, hlen]
  exact hloop hn rfl

theorem bumped_eq (hn : n < elementsIn s) :
    bumped s n = (digits s.dimensions.reverse n).reverse := by
  induction n with
  | zero =>
    rw [digits_zero, reverse_replicate, length_reverse]
    rfl
  | succ n ih =>
    rw [bumped, Function.iterate_succ_apply', ← bumped, ih (Nat.lt_of_succ_lt hn),
      bumpIndices_digits (Nat.lt_of_succ_lt hn), if_pos hn]

theorem logical_digits (hn : n < elementsIn s) :
    InBounds s.dimensions (digits s.dimensions.reverse n).reverse ∧
      logical s (digits s.dimensions.reverse n).reverse = n := by
  rw [elementsIn, ← prod_reverse] at hn
  have h := rel_reverse (digits_inBounds hn)
  rw [reverse_reverse] at h
  refine ⟨h, ?_⟩
  rw [logical, reverse_reverse]
  exact value_digits hn

theorem digits_logical (h : InBounds s.dimensions index) : logical s index < elementsIn s ∧
    (digits s.dimensions.reverse (logical s index)).reverse = index := by
  have hrev : InBounds s.dimensions.reverse index.reverse := rel_reverse h
  rw [elementsIn, ← prod_reverse]
  refine ⟨value_lt hrev, ?_⟩
  rw [logical, digits_value hrev, reverse_reverse]

/-- The two index maps are inverse to each other, and `BumpIndices` goes through the indices in
row-major order. -/
theorem index_maps_inverse (s : Shape) :
    elementsIn s < 2 ^ 63 ∧
    (∀ n < elementsIn s, InBounds s.dimensions (linearIndexToMultidimensionalIndex s n) ∧
      multidimensionalIndexToLinearIndex s (linearIndexToMultidimensionalIndex s n) = n) ∧
    (∀ i, InBounds s.dimensions i → multidimensionalIndexToLinearIndex s i < elementsIn s ∧
      linearIndexToMultidimensionalIndex s (multidimensionalIndexToLinearIndex s i) = i) ∧
    (∀ n < elementsIn s, InBounds s.dimensions (bumped s n) ∧ logical s (bumped s n) = n ∧
      ((bumpIndices s (bumped s n)).1 = true ↔ n + 1 < elementsIn s)) ∧
    ∀ i, InBounds s.dimensions i → ∃! n, n < elementsIn s ∧ bumped s n = i := by
  refine ⟨elementsIn_lt s, fun n => linearIndexToMultidimensionalIndex_inverse,
    fun i => multidimensionalIndexToLinearIndex_inverse, fun n hn => ?_, fun i hi => ?_⟩
  · rw [bumped_eq hn, bumpIndices_digits hn]
    refine ⟨(logical_digits hn).1, (logical_digits hn).2, ?_⟩
    split <;> simp [*]
  · obtain ⟨hlt, heq⟩ := digits_logical hi
    refine ⟨logical s i, ⟨hlt, (bumped_eq hlt).trans heq⟩, fun n ⟨hn, hni⟩ => ?_⟩
    rw [← hni, bumped_eq hn, (logical_digits hn).2]

/-! ## Strides -/

def stride (s : Shape) (d : Nat) : Nat := ((s.minorToMajor.takeWhile (· ≠ d)).map s.dim).prod

def strides (s : Shape) : List (Nat × Nat) :=
  (List.range s.rank).reverse.map fun d => (s.dim d, stride s d)

/-- A mixed-radix number as a sum, for a list of dimensions without repetition. -/
theorem value_eq_sum (hd : ds.Nodup) (f g : Nat → Nat) :
    value (ds.map f) (ds.map g) =
      (ds.map fun d => g d * ((ds.takeWhile (· ≠ d)).map f).prod).sum := by
  induction ds with
  | nil => rfl
  | cons d ds ih =>
    obtain ⟨hnot, hd⟩ := nodup_cons.mp hd
    have hrest : ∀ e ∈ ds, g e * (((d :: ds).takeWhile (· ≠ e)).map f).prod =
        f d * (g e * ((ds.takeWhile (· ≠ e)).map f).prod) := by
      intro e he
      have hne : d ≠ e := by
        intro h
        exact hnot (h ▸ he)
      rw [takeWhile_cons_of_pos (by simpa using hne), map_cons, prod_cons]
      ring
    rw [map_cons, map_cons, value, ih hd, map_cons, sum_cons,
      map_congr_left hrest, sum_map_mul_left]
    simp

theorem physical_eq_sum : physical s index =
    ((range s.rank).reverse.map fun d => index.getD d 0 * stride s d).sum := by
  have hnodup : s.minorToMajor.Nodup := s.perm.nodup_iff.mpr nodup_range
  rw [physical, value_eq_sum hnodup]
  exact ((s.perm.trans (reverse_perm _).symm).map _).sum_eq

theorem strided_map (f g : Nat → Nat) (n : Nat) :
    strided (ds.map fun d => (f d, g d)) n =
      (zipWith (fun i d => i * g d) (digits (ds.map f) n) ds).sum := by
  induction ds generalizing n with
  | nil => rfl
  | cons d ds ih => rw [map_cons, strided, ih, map_cons, digits, zipWith_cons_cons,
      sum_cons]

theorem physical_eq_strided (n : Nat) :
    physical s (digits s.dimensions.reverse n).reverse = strided (strides s) n := by
  have hdims : (range s.rank).reverse.map s.dim = s.dimensions.reverse := by
    rw [map_reverse, map_dim_range]
  have hlen : (digits s.dimensions.reverse n).reverse.length = s.rank := by
    rw [length_reverse, length_digits, length_reverse]
    rfl
  rw [physical_eq_sum, strides, strided_map, hdims]
  congr 1
  have hidx : (range s.rank).reverse.map
      (fun d => (digits s.dimensions.reverse n).reverse.getD d 0) =
        digits s.dimensions.reverse n := by
    rw [map_reverse, map_getD_range _ _ hlen, reverse_reverse]
  conv_rhs => rw [← hidx]
  rw [zipWith_map_left, zipWith_self]

end TfReading.ShapeUtil
