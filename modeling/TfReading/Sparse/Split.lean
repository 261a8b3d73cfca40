import TfReading.TensorShape.Runs

/-!
# `SparseTensor::Split` of `core/util/sparse/sparse_tensor.h`

The indices and the dense shape are `int64`, the sizes and positions along the dimension that is
split are `int`.  As for shapes, `none` says that a `CHECK` fails or that the behaviour is
undefined.
-/

namespace TfReading.Sparse

open Util TensorShape List

/-- The rows of `ix_` with their values from `vals_`, and `shape_`.  The order is left out. -/
structure SparseTensor (α : Type) where
  entries : List (List Int × α)
  shape : List Int
deriving DecidableEq

variable {α β γ : Type} {l : List Int} {d i q r x : Nat} {v : Int}

def getSliceIndex (dim splitSize residual : Int) : Int :=
  if residual = 0 then dim.tdiv splitSize
  else
    let offset := toInt32 (residual * (splitSize + 1))
    if dim < offset then dim.tdiv (splitSize + 1)
    else residual + (dim - offset).tdiv splitSize

def getDimensionInSlice (dim splitSize residual : Int) : Int :=
  if residual = 0 then dim.tmod splitSize
  else
    let offset := toInt32 (residual * (splitSize + 1))
    if dim < offset then dim.tmod (splitSize + 1) else (dim - offset).tmod splitSize

def getSliceShape (sliceIndex splitSize residual : Int) : Int :=
  if residual = 0 then splitSize
  else if sliceIndex < residual then splitSize + 1
  else splitSize

/-- The loop that writes the outputs.  `values_inserted_in_slice` counts the rows that an output
has so far, and so the next one is written behind them. -/
def fill (sliceIndex : β → Nat) (row : β → γ) (out : List (List γ)) (entries : List β) :
    List (List γ) :=
  entries.foldl (fun out e => out.modify (sliceIndex e) (· ++ [row e])) out

def sliceOf (splitDim : Nat) (splitSize residual : Int) (e : List Int × α) : Int :=
  getSliceIndex (toInt32 (e.1.getD splitDim 0)) splitSize residual

def inSlice (splitDim : Nat) (splitSize residual : Int) (e : List Int × α) : List Int × α :=
  (e.1.modify splitDim fun dim => getDimensionInSlice (toInt32 dim) splitSize residual, e.2)

/-- `Split` from the first loop on.  The loops count the entries with an `int`.  The first one
also counts the entries of each slice, for the sizes of the outputs, and `Create` finds the types
and ranks that it asks for. -/
def splitInto (t : SparseTensor α) (splitDim numSplit : Nat) (splitSize residual : Int) :
    Option (Except String (List (SparseTensor α))) :=
  let sliceIndex := sliceOf splitDim splitSize residual
  if 2 ^ 31 ≤ t.entries.length then none
  else
    -- the index is compared as a `size_t`
    match t.entries.find? fun e => numSplit ≤ sliceIndex e % 2 ^ 64 with
    | some e => some (.error s!"Slice index {sliceIndex e} is larger than num_split.")
    | none => do
      let outputShapes ← (List.range numSplit).mapM fun i : Nat => do
        let shape ← ofDimSizes false t.shape
        let shape ← setDim false shape splitDim (getSliceShape i splitSize residual)
        return dimSizes false shape
      let outputs := fill (fun e => (sliceIndex e).toNat) (inSlice splitDim splitSize residual)
        (List.replicate numSplit []) t.entries
      return .ok (List.zipWith SparseTensor.mk outputs outputShapes)

/-- `split_dim` is used as a subscript and `num_split` as a divisor before they are tested, so
that the test of `split_dim` cannot fail. -/
def split (t : SparseTensor α) (splitDim numSplit : Nat) :
    Option (Except String (List (SparseTensor α))) := do
  let splitDimSize := toInt32 (← t.shape[splitDim]? : Int)
  if numSplit = 0 then none
  else if splitDimSize < numSplit then
    return .error s!"num_split must be in the interval (0, {splitDimSize}]"
  else splitInto t splitDim numSplit (splitDimSize.tdiv numSplit) (splitDimSize.tmod numSplit)

/-! ## The slices of a dimension -/

/-- Where a slice starts, if the first `r` slices have one more than `q`. -/
def sliceStart (q r i : Nat) : Nat := i * q + min i r

theorem sliceStart_succ (q r i : Nat) :
    (sliceStart q r (i + 1) : Int) = sliceStart q r i + getSliceShape i q r := by
  have hmul : (i + 1) * q = i * q + q := Nat.succ_mul i q
  rw [sliceStart, sliceStart, getSliceShape, hmul]
  split
  · omega
  · split <;> omega

theorem exists_slice {n : Nat} (hx : x < sliceStart q r n) :
    ∃ i < n, sliceStart q r i ≤ x ∧ x < sliceStart q r (i + 1) := by
  induction n with
  | zero =>
    rw [sliceStart] at hx
    omega
  | succ n ih =>
    by_cases hn : x < sliceStart q r n
    · obtain ⟨i, hi, h⟩ := ih hn
      exact ⟨i, by omega, h⟩
    · exact ⟨n, by omega, by omega, hx⟩

theorem tdiv_tmod_eq {k : Nat} (hle : i * k ≤ x) (hlt : x < (i + 1) * k) :
    (x : Int).tdiv k = i ∧ (x : Int).tmod k = x - (i * k : Nat) := by
  have hdiv : x / k = i := Nat.div_eq_of_lt_le hle hlt
  have hmod := Nat.div_add_mod' x k
  rw [hdiv] at hmod
  rw [← Int.ofNat_tdiv, ← Int.ofNat_tmod]
  omega

/-- The formulas for the slice and for the position in it fit together. -/
theorem slice_eq (hle : sliceStart q r i ≤ x) (hlt : x < sliceStart q r (i + 1))
    (hoff : r * (q + 1) < 2 ^ 31) :
    getSliceIndex x q r = i ∧ getDimensionInSlice x q r = x - sliceStart q r i := by
  have hcast : toInt32 (r * (q + 1)) = (r * (q + 1) : Nat) := by
    rw [← toInt32_of_lt (n := (r * (q + 1) : Nat)) (by omega) (by omega)]
    rfl
  have hmul (k : Nat) : k * (q + 1) = k * q + k := Nat.mul_succ k q
  unfold getSliceIndex getDimensionInSlice
  unfold sliceStart at hle hlt ⊢
  by_cases hr : r = 0
  · rw [if_pos (by omega), if_pos (by omega)]
    obtain ⟨hdiv, hmod⟩ := tdiv_tmod_eq (k := q) (i := i) (x := x) (by omega) (by omega)
    exact ⟨hdiv, by omega⟩
  · have hr' : ¬(r : Int) = 0 := by omega
    simp only [if_neg hr', hcast]
    by_cases hi : i < r
    · have hle' : (i + 1) * (q + 1) ≤ r * (q + 1) := Nat.mul_le_mul_right _ hi
      have hi1 := hmul (i + 1)
      have hi0 := hmul i
      have hx : (x : Int) < (r * (q + 1) : Nat) := by omega
      simp only [if_pos hx]
      obtain ⟨hdiv, hmod⟩ := tdiv_tmod_eq (k := q + 1) (i := i) (x := x) (by omega) (by omega)
      refine ⟨hdiv, hmod.trans ?_⟩
      omega
    · obtain ⟨k, rfl⟩ := Nat.exists_eq_add_of_le (not_lt.mp hi)
      have hr1 := hmul r
      rw [Nat.add_assoc, Nat.add_mul] at hlt
      rw [Nat.add_mul] at hle ⊢
      have hx : ¬(x : Int) < (r * (q + 1) : Nat) := by omega
      simp only [if_neg hx]
      obtain ⟨hdiv, hmod⟩ := tdiv_tmod_eq (k := q) (i := k) (x := x - r * (q + 1)) (by omega)
        (by omega)
      rw [Int.ofNat_sub (by omega)] at hdiv hmod
      rw [hdiv, hmod]
      omega

theorem fill_getElem? (f : β → Nat) (g : β → γ) (out : List (List γ)) (l : List β) (i : Nat) :
    (fill f g out l)[i]? = out[i]?.map (· ++ (l.filter (f · = i)).map g) := by
  induction l generalizing out with
  | nil => simp [fill]
  | cons e l ih =>
    rw [fill, foldl_cons, ← fill, ih, getElem?_modify]
    by_cases he : f e = i
    · simp [he, Function.comp_def]
    · simp [he]

theorem fill_replicate (f : β → Nat) (g : β → γ) (n : Nat) (l : List β) :
    fill f g (replicate n []) l =
      (range n).map fun i => (l.filter (f · = i)).map g := by
  apply ext_getElem?
  intro i
  rw [fill_getElem?]
  by_cases hi : i < n
  · simp [hi]
  · simp [hi]

theorem flatten_slices (f : β → Nat) (l : List β) (n : Nat) :
    ((range n).map fun i => l.filter (f · = i)).flatten.Perm (l.filter (f · < n)) := by
  induction n with
  | zero => simp
  | succ n ih =>
    have hlt : l.filter (f · < n) = (l.filter (f · < n + 1)).filter (f · < n) := by
      rw [filter_filter]
      exact filter_congr (by grind)
    have heq : l.filter (f · = n) = (l.filter (f · < n + 1)).filter fun e => !decide (f e < n) := by
      rw [filter_filter]
      exact filter_congr (by grind)
    rw [range_succ, map_append, flatten_append, map_singleton,
      flatten_singleton, heq]
    rw [hlt] at ih
    exact (ih.append_right _).trans (filter_append_perm _ _)

/-! ## What the outputs have to be -/

def SparseTensor.dimSize (t : SparseTensor α) (d : Nat) : Int := t.shape.getD d 0

def SparseTensor.InBounds (t : SparseTensor α) : Prop :=
  ∀ e ∈ t.entries, e.1.length = t.shape.length ∧
    ∀ (d : Nat) x size, e.1[d]? = some x → t.shape[d]? = some size → 0 ≤ x ∧ x < size

/-- The entries of the pieces, moved along the dimension by the sizes of the pieces before. -/
def moved (d : Nat) (pieces : List (SparseTensor α)) : List (List (List Int × α)) :=
  pieces.mapIdx fun i p => p.entries.map fun e =>
    (e.1.modify d (· + ((pieces.take i).map (·.dimSize d)).sum), e.2)

structure Partition (t : SparseTensor α) (d n : Nat) (pieces : List (SparseTensor α)) : Prop where
  length : pieces.length = n
  sum : (pieces.map (·.dimSize d)).sum = t.dimSize d
  even : ∀ p ∈ pieces, ∀ p' ∈ pieces, p.dimSize d ≤ p'.dimSize d + 1
  shape : ∀ p ∈ pieces, p.shape = t.shape.set d (p.dimSize d)
  inBounds : ∀ p ∈ pieces, p.InBounds
  perm : (moved d pieces).flatten.Perm t.entries
  sublist : ∀ es ∈ moved d pieces, es.Sublist t.entries

/-! ## The shapes -/

theorem prod_set_le (hl : ∀ u ∈ l, 0 ≤ u)
    (hle : ∀ size ∈ l[d]?, v ≤ size) : (l.set d v).prod ≤ l.prod := by
  by_cases hd : d < l.length
  · have hsame := prod_set l d l[d]
    rw [set_getElem_self, if_pos hd] at hsame
    rw [prod_set, if_pos hd, hsame]
    have htake : 0 ≤ (l.take d).prod := prod_nonneg fun u hu => hl u (mem_of_mem_take hu)
    have hdrop : 0 ≤ (l.drop (d + 1)).prod := prod_nonneg fun u hu => hl u (mem_of_mem_drop hu)
    have hv := hle _ (getElem?_eq_getElem hd)
    gcongr
  · rw [set_eq_of_length_le (not_lt.mp hd)]

theorem fitsInt64_set (h : FitsInt64 l)
    (hl : ∀ u ∈ l, 0 ≤ u) (hle : ∀ size ∈ l[d]?, v ≤ size) : FitsInt64 (l.set d v) := by
  intro p hp _
  have hm : ∀ u ∈ l.take p.length, 0 ≤ u := fun u hu => hl u (mem_of_mem_take hu)
  rw [prefix_iff_eq_take.mp hp, take_set]
  refine Int.lt_of_le_of_lt (prod_set_le hm ?_) (h _ ?_ hm)
  · grind
  · exact take_prefix p.length l

theorem exists_setDim {s : TensorShapeRep} {size : Int}
    (h : Represents false s l) (hd : l[d]? = some size) (hv : 0 ≤ v) (hle : v ≤ size) :
    ∃ s', setDim false s d v = some s' := by
  have hdl : d < l.length := (List.getElem?_eq_some_iff.mp hd).1
  have hfit := fitsInt64_set (d := d) h.buildable.fits (h.buildable.nonneg rfl)
    (by simpa [hd])
  have hlegal := legal_of_mem_set (d := d) h.legal (.of_nonneg hv)
  have hlen : (l.set d v).length = l.length := length_set
  have hmax : (l.set d v).length ≤ maxDimensions := hlen ▸ h.buildable.length_le
  rw [TensorShape.setDim, h.dims, h.dimSizes, if_neg (by omega), if_neg (by omega),
    if_neg (by omega), Int.toNat_natCast]
  cases hrep : s.rep.setDim false d v with
  | some rep =>
    rcases recomputeNumElements_eq (s := { s with rep }) (h.ndims.trans hlen.symm) hmax hlegal
      (h.stores.setDim hdl (.of_nonneg hv) hrep) with ⟨-, heq⟩ | ⟨hno, -⟩
    · dsimp only
      rw [heq]
      exact ⟨_, rfl⟩
    · exact absurd hfit hno
  | none =>
    obtain ⟨s', hadd⟩ := (addDims_eq_some_iff .clear .nil).mpr
      (.of_legal hmax hlegal hfit)
    refine ⟨s', ?_⟩
    simp [hadd, (Represents.rebuild hlegal hadd).recompute_ok, checkOk]

/-! ## Splitting -/

def piece (t : SparseTensor α) (d q r i : Nat) : SparseTensor α where
  entries := (t.entries.filter fun e => (sliceOf d q r e).toNat = i).map (inSlice d q r)
  shape := t.shape.set d (getSliceShape i q r)

section Sizes

variable {t : SparseTensor α} {d q r : Nat} (hd : d < t.shape.length)
include hd

theorem dimSize_piece (i : Nat) : (piece t d q r i).dimSize d = getSliceShape i q r := by
  simp [SparseTensor.dimSize, piece, hd]

theorem sum_dimSize (k : Nat) :
    (((range k).map (piece t d q r)).map (·.dimSize d)).sum = sliceStart q r k := by
  induction k with
  | zero => simp [sliceStart]
  | succ k ih =>
    rw [range_succ, map_append, map_append, sum_append, ih, sliceStart_succ]
    simp [dimSize_piece hd]

end Sizes

theorem map_eq_of_mapM {f : β → Option γ} {g : β → γ} (hf : ∀ i y, f i = some y → g i = y)
    {l : List β} {out : List γ} (h : l.mapM f = some out) : l.map g = out := by
  induction l generalizing out with
  | nil => simpa using h
  | cons i l ih =>
    rw [mapM_cons] at h
    obtain ⟨y, hy, h⟩ := Option.bind_eq_some_iff.mp h
    obtain ⟨ys, hys, h⟩ := Option.bind_eq_some_iff.mp h
    cases h
    rw [map_cons, hf i y hy, ih hys]

/-- The outputs, whether or not the sizes fit the tensor. -/
theorem splitInto_ok {t : SparseTensor α} {d n q r : Nat} {pieces : List (SparseTensor α)}
    (hnn : ∀ v ∈ t.shape, 0 ≤ v) (hn : 0 < n) (h : splitInto t d n q r = some (.ok pieces)) :
    t.entries.length < 2 ^ 31 ∧ (ofDimSizes false t.shape).isSome ∧
      (range n).map (piece t d q r) = pieces := by
  rw [splitInto] at h
  split at h
  · cases h
  next hcount =>
    split at h
    · cases h
    · obtain ⟨shapes, hshapes, h⟩ := Option.bind_eq_some_iff.mp h
      cases h
      cases hs : ofDimSizes false t.shape with
      | none =>
        obtain ⟨n, rfl⟩ := Nat.exists_eq_succ_of_ne_zero hn.ne'
        rw [range_succ_eq_map, mapM_cons, hs] at hshapes
        cases hshapes
      | some s =>
        have hrep := Represents.ofDimSizes (fun v hv => .of_nonneg (hnn v hv)) hs
        rw [hs] at hshapes
        have hmap := map_eq_of_mapM (g := fun i : Nat => t.shape.set d (getSliceShape i q r))
          (fun i y hi => by
            rw [Option.bind_eq_bind, Option.bind_some] at hi
            obtain ⟨s', hs', hi⟩ := Option.bind_eq_some_iff.mp hi
            cases hi
            exact (hrep.setDim hs').dimSizes.symm) hshapes
        refine ⟨not_le.mp hcount, rfl, ?_⟩
        rw [← hmap, fill_replicate, zipWith_map, zipWith_self]
        rfl

/-- The sizes that `split` computes, and entries that have a place in the slices. -/
structure Sliced (t : SparseTensor α) (d n q r : Nat) : Prop where
  size : t.shape[d]? = some ((n * q + r : Nat) : Int)
  lt : r < n
  fits : n * q + r < 2 ^ 31
  inBounds : t.InBounds

namespace Sliced

variable {t : SparseTensor α} {d n q r : Nat} (h : Sliced t d n q r)
include h

theorem dim_lt : d < t.shape.length := (List.getElem?_eq_some_iff.mp h.size).1

theorem exists_position {e : List Int × α} (he : e ∈ t.entries) :
    ∃ x i : Nat, e.1[d]? = some (x : Int) ∧ i < n ∧ sliceStart q r i ≤ x ∧
      x < sliceStart q r (i + 1) ∧ sliceOf d q r e = i ∧
      getDimensionInSlice (toInt32 x) q r = x - sliceStart q r i := by
  obtain ⟨hlen, hall⟩ := h.inBounds e he
  have hd : d < e.1.length := hlen ▸ h.dim_lt
  obtain ⟨hnn, hlt⟩ := hall d _ _ (getElem?_eq_getElem hd) h.size
  obtain ⟨x, hx⟩ := Int.eq_ofNat_of_zero_le hnn
  have hr := h.lt.le
  have hoff : r * (q + 1) ≤ n * q + r := Nat.add_le_add_right (Nat.mul_le_mul_right q hr) r
  have hn : sliceStart q r n = n * q + r := by rw [sliceStart, Nat.min_eq_right hr]
  have hfits := h.fits
  obtain ⟨i, hi, hle, hlt'⟩ := exists_slice (q := q) (r := r) (n := n) (x := x) (by omega)
  obtain ⟨hindex, hdim⟩ := slice_eq hle hlt' (by omega)
  have h32 : toInt32 x = x := toInt32_of_lt (by omega) (by omega)
  have hget : e.1.getD d 0 = x := by
    rw [getD_eq_getElem?_getD, getElem?_eq_getElem hd, hx]
    rfl
  rw [← h32] at hindex hdim
  refine ⟨x, i, hx ▸ getElem?_eq_getElem hd, hi, hle, hlt', ?_, ?_⟩
  · rw [sliceOf, hget, hindex]
  · rw [hdim, h32]

theorem moved_pieces : moved d ((range n).map (piece t d q r)) =
    (range n).map fun i => t.entries.filter fun e => (sliceOf d q r e).toNat = i := by
  apply ext_getElem?
  intro i
  rw [moved, getElem?_mapIdx, getElem?_map, getElem?_map]
  by_cases hi : i < n
  · rw [getElem?_range hi, ← map_take, take_range, Nat.min_eq_left hi.le, sum_dimSize h.dim_lt]
    simp only [Option.map_some, piece, map_map]
    congr 1
    refine (map_congr_left fun e he => ?_).trans (map_id _)
    obtain ⟨he, hs⟩ := mem_filter.mp he
    obtain ⟨x, j, hx, -, -, -, hj, hdim⟩ := h.exists_position he
    obtain rfl : j = i := by simpa [hj] using hs
    refine Prod.ext (ext_getElem? fun k => ?_) rfl
    simp only [Function.comp_apply, inSlice, getElem?_modify]
    by_cases hk : d = k
    · simp [← hk, hx, hdim]
    · simp [hk]
  · simp [hi]

theorem inBounds_piece (i : Nat) : (piece t d q r i).InBounds := by
  intro e' he'
  obtain ⟨e, hmem, rfl⟩ := mem_map.mp he'
  obtain ⟨he, hs⟩ := mem_filter.mp hmem
  obtain ⟨x, j, hx, -, hle, hlt, hj, hdim⟩ := h.exists_position he
  obtain rfl : j = i := by simpa [hj] using hs
  obtain ⟨hlen, hall⟩ := h.inBounds e he
  have hd := h.dim_lt
  have hsucc := sliceStart_succ q r j
  refine ⟨by simpa [inSlice, piece] using hlen, fun k y size hy hk => ?_⟩
  rw [inSlice, getElem?_modify] at hy
  by_cases hdk : d = k
  · subst hdk
    simp [piece, hd] at hk
    simp [hx, hdim] at hy
    omega
  · simp [hdk] at hy
    simp [piece, hdk] at hk
    exact hall k y size hy hk

theorem partition : Partition t d n ((range n).map (piece t d q r)) where
  length := by simp
  sum := by
    rw [sum_dimSize h.dim_lt, sliceStart, Nat.min_eq_right h.lt.le, SparseTensor.dimSize,
      getD_eq_getElem?_getD, h.size, Option.getD_some]
  even := by
    simp only [forall_mem_map, dimSize_piece h.dim_lt, getSliceShape]
    grind
  shape := by
    simp only [forall_mem_map, dimSize_piece h.dim_lt]
    exact fun _ _ => rfl
  inBounds := by
    simp only [forall_mem_map]
    exact fun i _ => h.inBounds_piece i
  perm := by
    rw [h.moved_pieces]
    refine (flatten_slices _ _ _).trans (.of_eq (filter_eq_self.mpr fun e he => ?_))
    obtain ⟨x, i, -, hi, -, -, hs, -⟩ := h.exists_position he
    simpa [hs] using hi
  sublist := by
    rw [h.moved_pieces]
    simp only [forall_mem_map]
    exact fun _ _ => filter_sublist

theorem split_eq (hq : 0 < q) (hcount : t.entries.length < 2 ^ 31) (hnn : ∀ v ∈ t.shape, 0 ≤ v)
    (hshape : (ofDimSizes false t.shape).isSome) :
    split t d n = some (.ok ((range n).map (piece t d q r))) := by
  have hr := h.lt
  have hfits := h.fits
  have hmod : (n * q + r) % n = r := by rw [Nat.mul_add_mod, Nat.mod_eq_of_lt hr]
  have hdiv : (n * q + r) / n = q := by
    rw [Nat.mul_add_div (by omega), Nat.div_eq_of_lt hr, Nat.add_zero]
  have hnq : n ≤ n * q := Nat.le_mul_of_pos_right n hq
  have hqn : q ≤ n * q := Nat.le_mul_of_pos_left q (by omega)
  obtain ⟨s, hs⟩ := Option.isSome_iff_exists.mp hshape
  have hrep := Represents.ofDimSizes (fun v hv => .of_nonneg (hnn v hv)) hs
  have hset (i : Nat) : ((setDim false s d (getSliceShape i q r)).bind
      fun s' => some (dimSizes false s')) = some (t.shape.set d (getSliceShape i q r)) := by
    have hv : 0 ≤ getSliceShape i q r ∧ getSliceShape i q r ≤ (n * q + r : Nat) := by
      unfold getSliceShape
      split_ifs <;> omega
    obtain ⟨s', hs'⟩ := exists_setDim hrep h.size hv.1 hv.2
    rw [hs', Option.bind_some, (hrep.setDim hs').dimSizes]
    rfl
  have hmapM (l : List Nat) : (l.mapM fun i : Nat => some (t.shape.set d (getSliceShape i q r))) =
      some (l.map fun i : Nat => t.shape.set d (getSliceShape i q r)) := mapM_pure
  have hfind : (t.entries.find? fun e => (n : Int) ≤ sliceOf d q r e % 2 ^ 64) = none := by
    refine find?_eq_none.mpr fun e he => ?_
    obtain ⟨x, i, -, hi, -, -, hindex, -⟩ := h.exists_position he
    rw [hindex, decide_eq_true_iff]
    omega
  rw [split, h.size, Option.bind_eq_bind, Option.bind_some, toInt32_of_lt (by omega) (by omega)]
  rw [if_neg (by omega), if_neg (by omega), ← Int.ofNat_tdiv, ← Int.ofNat_tmod, hdiv, hmod,
    splitInto, if_neg (not_le.mpr hcount), hfind]
  simp only [hs, Option.bind_eq_bind, Option.bind_some, Option.pure_def, hset, hmapM]
  rw [fill_replicate, zipWith_map, zipWith_self]
  rfl

end Sliced

/-- The pieces are a partition if and only if the size along the dimension and the number of
entries fit into an `int` and the dense shape is one that a `TensorShape` can have. -/
theorem split_partition_iff (t : SparseTensor α) (splitDim numSplit : Nat) (size : Int)
    (hnn : ∀ v ∈ t.shape, 0 ≤ v) (hin : t.InBounds) (hd : t.shape[splitDim]? = some size)
    (hpos : 0 < numSplit) (hle : numSplit ≤ size) :
    (∃ pieces, split t splitDim numSplit = some (.ok pieces) ∧
      Partition t splitDim numSplit pieces) ↔
    size < 2 ^ 31 ∧ t.entries.length < 2 ^ 31 ∧ (ofDimSizes false t.shape).isSome := by
  constructor
  · rintro ⟨pieces, h, hpart⟩
    rw [split, hd, Option.bind_eq_bind, Option.bind_some, if_neg hpos.ne'] at h
    split at h
    · cases h
    next hsize =>
      -- the sizes add up to the size as an `int`
      have hlt := toInt32_lt size
      generalize toInt32 size = size' at h hsize hlt
      lift size' to Nat using by omega
      rw [← Int.ofNat_tdiv, ← Int.ofNat_tmod] at h
      obtain ⟨hcount, hshape, rfl⟩ := splitInto_ok hnn hpos h
      have hsum := hpart.sum
      rw [sum_dimSize (List.getElem?_eq_some_iff.mp hd).1, sliceStart,
        Nat.min_eq_right (Nat.mod_lt _ hpos).le, Nat.div_add_mod, SparseTensor.dimSize,
        getD_eq_getElem?_getD, hd, Option.getD_some] at hsum
      exact ⟨by omega, hcount, hshape⟩
  · rintro ⟨hsize, hcount, hshape⟩
    lift size to Nat using by omega
    have hsum : numSplit * (size / numSplit) + size % numSplit = size := Nat.div_add_mod ..
    have h : Sliced t splitDim numSplit (size / numSplit) (size % numSplit) :=
      ⟨hsum.symm ▸ hd, Nat.mod_lt size hpos, by omega, hin⟩
    exact ⟨_, h.split_eq (Nat.div_pos (by omega) hpos) hcount hnn hshape, h.partition⟩

theorem split_partition_unordered :
    ∃ pieces, split ⟨[([2], 'a'), ([0], 'b')], [3]⟩ 0 2 = some (.ok pieces) ∧
      Partition ⟨[([2], 'a'), ([0], 'b')], [3]⟩ 0 2 pieces := by
  refine (split_partition_iff _ 0 2 3 (by decide) (fun e he => ?_) rfl (by decide) (by decide)).mpr
    ⟨by decide, by decide, by decide⟩
  simp only [mem_cons, not_mem_nil, or_false] at he
  rcases he with rfl | rfl
  all_goals
    refine ⟨rfl, fun d x size hx hs => ?_⟩
    cases d <;> cases hx
    cases hs
    decide

/-- A size of `2 ^ 31` becomes negative, so that no number of pieces is in the interval. -/
theorem split_huge : (SparseTensor.mk (α := Char) [] [2 ^ 31]).InBounds ∧
    split (SparseTensor.mk (α := Char) [] [2 ^ 31]) 0 1 =
      some (.error "num_split must be in the interval (0, -2147483648]") := by
  constructor
  · exact nofun
  · rfl

end TfReading.Sparse
