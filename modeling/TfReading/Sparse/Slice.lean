import TfReading.Sparse.Split

/-!
# `SparseTensor::Slice` of `core/util/sparse/sparse_tensor.h`

The sum of a start and a size is formed in `int64`, once for the shape and twice for each entry.
-/

namespace TfReading.Sparse

open Util TensorShape List

variable {α : Type}

/-- A dimension of the result. -/
def slicedSize (inputSize startIndex sliceSize : Int) : Int :=
  if toInt64 (startIndex + sliceSize) < inputSize then sliceSize
  else if startIndex < inputSize then inputSize - startIndex
  else 0

/-- The loop over the dimensions from `d` on. -/
def slicedShape : Nat → List (Int × Int) → TensorShapeRep → Option TensorShapeRep
  | _, [], s => some s
  | d, (start, size) :: box, s => do
    let s ← setDim false s d (slicedSize (dimSize false s d) start size)
    slicedShape (d + 1) box s

def hit (box : List (Int × Int)) (ix : List Int) : Bool :=
  (ix.zip box).all fun x => x.2.1 ≤ x.1 ∧ x.1 < toInt64 (x.2.1 + x.2.2)

/-- The first loop over the entries only counts what the second one writes. -/
def slice (t : SparseTensor α) (start size : List Int) : Option (SparseTensor α) := do
  let outputShape ← ofDimSizes false t.shape
  let outputShape ← slicedShape 0 (start.zip size) outputShape
  if 2 ^ 31 ≤ t.entries.length then none
  else
    return {
      entries := (t.entries.filter fun e => hit (start.zip size) e.1).map fun e =>
        (zipWith (· - ·) e.1 start, e.2)
      shape := dimSizes false outputShape }

/-! ## The box in unbounded integers -/

def boxSize (dim : Int) (side : Int × Int) : Int := max 0 (min (side.1 + side.2) dim - side.1)

def inBox (t : SparseTensor α) (start size : List Int) : SparseTensor α where
  entries := (t.entries.filter fun e => (e.1.zip (start.zip size)).all fun x =>
      x.2.1 ≤ x.1 ∧ x.1 < x.2.1 + x.2.2).map fun e => (zipWith (· - ·) e.1 start, e.2)
  shape := zipWith boxSize t.shape (start.zip size)

/-- A value of an `int64` that is not negative. -/
abbrev IsSize (v : Int) : Prop := 0 ≤ v ∧ v < 2 ^ 63

/-- Sides that end at an `int64`. -/
def Fits (box : List (Int × Int)) : Prop := ∀ side ∈ box, side.1 + side.2 < 2 ^ 63

variable {box : List (Int × Int)} {start size ix done rest : List Int} {t : SparseTensor α}
    {s s' : TensorShapeRep}

/-- A sum that leaves the range is negative, and the size is then taken as it is. -/
theorem slicedSize_eq_iff {dim : Int} {side : Int × Int} (hdim : IsSize dim)
    (hside : IsSize side.1 ∧ IsSize side.2) :
    slicedSize dim side.1 side.2 = boxSize dim side ↔ side.1 + side.2 < 2 ^ 63 := by
  rw [slicedSize, boxSize, toInt64, Int.bmod_def]
  split_ifs <;> omega

section Box

variable (hbox : ∀ side ∈ box, IsSize side.1 ∧ IsSize side.2)
include hbox

theorem hit_eq (h : Fits box) :
    hit box ix = (ix.zip box).all fun x => x.2.1 ≤ x.1 ∧ x.1 < x.2.1 + x.2.2 := by
  rw [hit, Bool.eq_iff_iff, all_eq_true, all_eq_true]
  refine forall₂_congr fun x hx => ?_
  have hmem := (of_mem_zip hx).2
  have hside := hbox _ hmem
  rw [toInt64_of_lt (by omega) (h _ hmem)]

theorem zipWith_slicedSize_eq_iff (hsize : ∀ v ∈ rest, IsSize v) (hlen : box.length = rest.length) :
    zipWith (fun dim side => slicedSize dim side.1 side.2) rest box = zipWith boxSize rest box ↔
      Fits box := by
  induction box generalizing rest with
  | nil => simp [Fits]
  | cons side box ih =>
    cases rest with
    | nil => cases hlen
    | cons dim rest =>
      obtain ⟨hside, hbox⟩ := forall_mem_cons.1 hbox
      obtain ⟨hdim, hrest⟩ := forall_mem_cons.1 hsize
      rw [zipWith_cons_cons, zipWith_cons_cons, cons.injEq, slicedSize_eq_iff hdim hside,
        ih hbox hrest (Nat.succ.inj hlen), Fits, Fits, forall_mem_cons]

/-- The dimensions in `done` have been set. -/
theorem exists_slicedShape (h : Fits box) (hsize : ∀ v ∈ rest, IsSize v)
    (hlen : box.length = rest.length) (hs : Represents false s (done ++ rest)) :
    ∃ s', slicedShape done.length box s = some s' := by
  induction box generalizing done rest s with
  | nil => exact ⟨s, rfl⟩
  | cons side box ih =>
    cases rest with
    | nil => cases hlen
    | cons dim rest =>
      obtain ⟨hside, hbox⟩ := forall_mem_cons.1 hbox
      obtain ⟨hdim, hrest⟩ := forall_mem_cons.1 hsize
      have hget : (done ++ dim :: rest)[done.length]? = some dim := by simp
      have heq := (slicedSize_eq_iff hdim hside).2 (h side mem_cons_self)
      have hle : 0 ≤ boxSize dim side ∧ boxSize dim side ≤ dim := by
        rw [boxSize]
        omega
      obtain ⟨s', hset⟩ := exists_setDim hs hget hle.1 hle.2
      have hs' : Represents false s' (done ++ [boxSize dim side] ++ rest) := by
        simpa using hs.setDim hset
      obtain ⟨s'', hloop⟩ := ih hbox (forall_mem_cons.1 h).2 hrest (Nat.succ.inj hlen) hs'
      refine ⟨s'', ?_⟩
      rw [slicedShape, hs.dimSize hget, heq, hset]
      simpa using hloop

end Box

theorem slicedShape_represents (hlen : box.length = rest.length)
    (hs : Represents false s (done ++ rest)) (h : slicedShape done.length box s = some s') :
    Represents false s'
      (done ++ zipWith (fun dim side => slicedSize dim side.1 side.2) rest box) := by
  induction box generalizing done rest s with
  | nil =>
    obtain rfl := length_eq_zero_iff.1 hlen.symm
    cases h
    exact hs
  | cons side box ih =>
    cases rest with
    | nil => cases hlen
    | cons dim rest =>
      rw [slicedShape, hs.dimSize (v := dim) (by simp)] at h
      obtain ⟨s'', hset, hloop⟩ := Option.bind_eq_some_iff.1 h
      have hs'' : Represents false s'' (done ++ [slicedSize dim side.1 side.2] ++ rest) := by
        simpa using hs.setDim hset
      simpa using ih (Nat.succ.inj hlen) hs'' (by simpa using hloop)

theorem inBounds_inBox (hin : t.InBounds) (hstart : start.length = t.shape.length)
    (hsize : size.length = t.shape.length) : (inBox t start size).InBounds := by
  intro e' he'
  obtain ⟨e, hmem, rfl⟩ := mem_map.1 he'
  obtain ⟨he, hbox⟩ := mem_filter.1 hmem
  obtain ⟨hlen, hall⟩ := hin e he
  constructor
  · simp [inBox, hlen, hstart, hsize]
  · intro d y v hy hv
    obtain ⟨x, st, hx, hst, rfl⟩ := getElem?_zipWith_eq_some.1 hy
    obtain ⟨dim, side, hdim, hside, rfl⟩ := getElem?_zipWith_eq_some.1 hv
    obtain ⟨hnn, hlt⟩ := hall d x dim hx hdim
    have hin := all_eq_true.1 hbox (x, side)
      (mem_of_getElem? (i := d) (getElem?_zip_eq_some.2 ⟨hx, hside⟩))
    obtain rfl : side.1 = st := by
      have := (getElem?_zip_eq_some.1 hside).1
      rw [hst] at this
      exact (Option.some.inj this).symm
    rw [decide_eq_true_iff] at hin
    rw [boxSize]
    dsimp only at hin ⊢
    omega

/-- The slice is the box if and only if no sum of a start and a size leaves the range of `int64`,
the entries can be counted with an `int` and the dense shape is one that a `TensorShape` can have. -/
theorem slice_eq_inBox_iff (hnn : ∀ v ∈ t.shape, IsSize v) (hin : t.InBounds)
    (hstart : start.length = t.shape.length) (hsize : size.length = t.shape.length)
    (hbox : ∀ side ∈ start.zip size, IsSize side.1 ∧ IsSize side.2) :
    slice t start size = some (inBox t start size) ∧ (inBox t start size).InBounds ↔
      Fits (start.zip size) ∧ t.entries.length < 2 ^ 31 ∧ (ofDimSizes false t.shape).isSome := by
  have hlen : (start.zip size).length = t.shape.length := by
    rw [length_zip, hstart, hsize, Nat.min_self]
  have hzip := zipWith_slicedSize_eq_iff hbox hnn hlen
  have hrep {s} (hs : ofDimSizes false t.shape = some s) : Represents false s ([] ++ t.shape) :=
    .ofDimSizes (fun v hv => .of_nonneg (hnn v hv).1) hs
  rw [slice]
  constructor
  · rintro ⟨h, -⟩
    obtain ⟨s, hs, h⟩ := Option.bind_eq_some_iff.1 h
    obtain ⟨s', hs', h⟩ := Option.bind_eq_some_iff.1 h
    have hdims := (slicedShape_represents hlen (hrep hs) hs').dimSizes
    split at h
    · cases h
    next hcount =>
      have hshape := congrArg SparseTensor.shape (Option.some.inj h)
      exact ⟨hzip.1 (hdims.symm.trans hshape), not_le.1 hcount, hs ▸ rfl⟩
  · rintro ⟨hfits, hcount, hshape⟩
    obtain ⟨s, hs⟩ := Option.isSome_iff_exists.1 hshape
    obtain ⟨s', hs'⟩ := exists_slicedShape hbox hfits hnn hlen (hrep hs)
    have hdims := (slicedShape_represents hlen (hrep hs) hs').dimSizes
    refine ⟨?_, inBounds_inBox hin hstart hsize⟩
    rw [length_nil] at hs'
    rw [hs, Option.bind_eq_bind, Option.bind_some, hs']
    simp only [Option.bind_some]
    rw [if_neg (not_le.2 hcount), hdims, nil_append, hzip.2 hfits]
    simp only [hit_eq hbox hfits]
    rfl

theorem inBounds_single : (SparseTensor.mk [([4], 'a')] [5]).InBounds := by
  intro e he
  cases mem_singleton.1 he
  refine ⟨rfl, fun d x size hx hs => ?_⟩
  cases d <;> cases hx
  cases hs
  decide

theorem slice_eq_inBox_overlap : slice ⟨[([4], 'a')], [5]⟩ [3] [7] =
    some (inBox ⟨[([4], 'a')], [5]⟩ [3] [7]) ∧ (inBox ⟨[([4], 'a')], [5]⟩ [3] [7]).InBounds :=
  (slice_eq_inBox_iff (by decide) inBounds_single (by rfl) (by rfl) (by decide)).2
    ⟨by simp [Fits], by decide, by decide⟩

/-- The end of the selection wraps around: the size is taken as it is, and nothing is selected. -/
theorem slice_wraps : (SparseTensor.mk [([4], 'a')] [5]).InBounds ∧
    slice ⟨[([4], 'a')], [5]⟩ [1] [2 ^ 63 - 1] = some ⟨[], [2 ^ 63 - 1]⟩ :=
  ⟨inBounds_single, by rfl⟩

end TfReading.Sparse
