import Mathlib.Data.List.GetD
import TfReading.StridedSlice.Dense
import TfReading.StridedSlice.Dims

/-!
# `ValidateStridedSliceOp` is basic indexing

For a fully defined shape and known begin and end, a successful call has the shapes and the
elements of numpy's basic indexing.
-/

namespace TfReading.StridedSlice

open List

variable {spec : Spec} {shape : List Int} {r : Result} {dims : List Nat} {ds : List DenseDim}
    {ps : List ProcessedDim} {f f' : Flags} {i : Nat} {valid : Bool} {items : List Item}
    {d : DenseDim}

structure Succeeds (spec : Spec) (shape : List Int) (r : Result) (dense : DenseSpec)
    (ps : List ProcessedDim) (f : Flags) : Prop where
  sizes : sizesAgree spec = true
  ellipses : spec.ellipsisMask &&& (spec.ellipsisMask - 1) = 0
  dense_eq : buildDenseSpec spec (sparseSpec spec) shape.length = .ok dense
  dims_eq : processDims (spec.beginTensor.isSome && spec.endTensor.isSome) 0 shape dense.dims
    ⟨true, true, true⟩ = .ok (ps, f)
  result : r = gatherDims dense ps f

theorem exists_succeeds (h : validateStridedSliceOp spec shape = .ok r) :
    ∃ dense ps f, Succeeds spec shape r dense ps f := by
  unfold validateStridedSliceOp at h
  split at h
  · cases h
  next hsizes =>
    split at h
    · cases h
    next hell =>
      split at h
      · cases h
      next dense hdense =>
        split at h
        · cases h
        next ps f hdims =>
          cases h
          refine ⟨dense, ps, f, ?_, ?_, hdense, hdims, rfl⟩
          · exact Bool.not_eq_false _ ▸ hsizes
          · by_contra hne
            refine hell ⟨fun h0 => hne ?_, hne⟩
            rw [h0]
            rfl

/-! ## The dimensions -/

theorem exists_of_forall₂ {α β : Type} {R : α → β → Prop} {l : List α} {m : List β}
    (h : Forall₂ R l m) : ∀ a ∈ l, ∃ b, R a b := by
  induction h with
  | nil => exact forall_mem_nil _
  | cons hr _ ih => exact forall_mem_cons.mpr ⟨⟨_, hr⟩, ih⟩

theorem processDims_cons {dim : Int}
    (h : processDims valid i (dim :: shape) (d :: ds) f = .ok (ps, f')) :
    ∃ p g qs, processDim valid i dim d f = .ok (p, g) ∧
      processDims valid (i + 1) shape ds g = .ok (qs, f') ∧ ps = p :: qs := by
  rw [processDims] at h
  split at h
  · cases h
  next p g hp =>
    split at h
    · cases h
    next qs _ hqs =>
      cases h
      exact ⟨p, g, qs, hp, hqs, rfl⟩

/-- The dimensions of a fully defined shape with known begin and end. -/
theorem processDims_selects (hlen : ds.length = dims.length)
    (h : processDims true i (dims.map fun d : Nat => (d : Int)) ds f = .ok (ps, f')) :
    Forall₂ (fun (x : Nat × DenseDim) p => Selects x.1 x.2 p) (dims.zip ds) ps := by
  induction dims generalizing i ds f ps with
  | nil =>
    cases h
    exact .nil
  | cons dim dims ih =>
    cases ds with
    | nil => cases hlen
    | cons =>
      obtain ⟨p, g, qs, hp, hqs, rfl⟩ := processDims_cons h
      exact .cons (processDim_known hp).selects (ih (Nat.succ.inj hlen) hqs)

theorem strideI_ne_zero (hlen : ds.length = shape.length)
    (h : processDims valid i shape ds f = .ok (ps, f')) : ∀ d ∈ ds, d.strideI ≠ 0 := by
  induction shape generalizing i ds f ps with
  | nil =>
    intro d hd
    rw [length_eq_zero_iff.mp hlen] at hd
    cases hd
  | cons dim shape ih =>
    cases ds with
    | nil => cases hlen
    | cons d ds =>
      obtain ⟨p, g, qs, hp, hqs, rfl⟩ := processDims_cons h
      refine forall_mem_cons.mpr ⟨fun h0 => ?_, ih (Nat.succ.inj hlen) hqs⟩
      rw [processDim, if_pos h0] at hp
      cases hp

theorem size_eq_length {dim : Nat} {p : ProcessedDim} (h : Selects dim d p) :
    p.size = (p.indices.length : Nat) := by
  rw [ProcessedDim.indices, length_map, length_range, Int.toNat_of_nonneg h.size_nonneg]

/-- The items select the indices of the processed dimensions, and the final shape is theirs. -/
theorem view_items (hsel : Forall₂ (fun (x : Nat × DenseDim) p => Selects x.1 x.2 p)
      (dims.zip (axes items)) ps) (hlen : (axes items).length = dims.length) (Q : List Int) :
    ∃ out, view dims (items.map Item.index) = some (ps.map ProcessedDim.indices, out) ∧
      (gatherOf Q.length items).filterMap (finalDim (Q ++ ps.map (·.size))) =
        out.map fun d : Nat => (d : Int) := by
  induction items generalizing dims ps Q with
  | nil =>
    cases dims with
    | nil =>
      cases hsel
      exact ⟨[], rfl, rfl⟩
    | cons => cases hlen
  | cons it items ih =>
    cases it with
    | newAxis =>
      obtain ⟨out, hview, hfinal⟩ := ih hsel hlen Q
      refine ⟨1 :: out, ?_, ?_⟩
      · show view dims (.newAxis :: items.map Item.index) = _
        rw [view, hview]
        rfl
      · rw [gatherOf, filterMap_cons]
        exact congrArg (1 :: ·) hfinal
    | axis d =>
      cases dims with
      | nil => cases hlen
      | cons dim dims =>
        cases hsel with
        | @cons _ p _ ps hp hsel =>
          obtain ⟨out, hview, hfinal⟩ := ih hsel (Nat.succ.inj hlen) (Q ++ [p.size])
          have hselect := hp.select_eq
          rw [length_append, append_assoc] at hfinal
          cases hshrink : d.shrink with
          | true =>
            refine ⟨out, ?_, ?_⟩
            · show view (dim :: dims) (d.index :: items.map Item.index) = _
              rw [DenseDim.index, hshrink] at hselect ⊢
              rw [if_pos rfl] at hselect ⊢
              rw [view, hselect, hview]
              rfl
            · rw [gatherOf, filterMap_cons, Item.gather, hshrink]
              exact hfinal
          | false =>
            refine ⟨p.indices.length :: out, ?_, ?_⟩
            · show view (dim :: dims) (d.index :: items.map Item.index) = _
              rw [DenseDim.index, hshrink] at hselect ⊢
              rw [if_neg Bool.false_ne_true] at hselect ⊢
              rw [view, hselect, hview]
              rfl
            · have hget : (Q ++ (p :: ps).map (·.size)).getD Q.length 0 = p.size := by
                rw [getD_append_right _ _ _ _ le_rfl, Nat.sub_self]
                rfl
              rw [gatherOf, filterMap_cons, Item.gather, hshrink, if_neg Bool.false_ne_true,
                finalDim, hget, size_eq_length hp]
              exact congrArg (_ :: ·) hfinal

/-! ## The whole call -/

def Spec.known (spec : Spec) (b e : List Int) : Spec :=
  { spec with beginTensor := some b, endTensor := some e }

structure MatchesNumpy (dims : List Nat) (idx : List Index) (r : Result) : Prop where
  /-- Dimension `d` selects `begin[d] + o * strides[d]` for the `o` below its size. -/
  numpy : ∃ out, basicIndexing dims idx = some (r.dims.map ProcessedDim.indices, out) ∧
    r.finalShape = out.map fun d : Nat => (d : Int)
  processing : r.processingShape = r.dims.map fun p => (p.indices.length : Int)
  inBounds : Forall₂ (fun (dim : Nat) (p : ProcessedDim) => ∀ k ∈ p.indices, 0 ≤ k ∧ k < dim)
    dims r.dims

/-- A used stride is 0, or there are two ellipses, or too many dimensions are indexed, or an integer
is out of range. -/
def Faulty (spec : Spec) (dims : List Nat) : Prop :=
  (∃ i, i < spec.stridesTensor.length ∧ spec.ellipsisMask.getLsbD i = false ∧
      spec.newAxisMask.getLsbD i = false ∧ spec.stridesTensor.getD i 0 = 0) ∨
    (∃ i j, i ≠ j ∧ spec.ellipsisMask.getLsbD i = true ∧ spec.ellipsisMask.getLsbD j = true) ∨
    dims.length < spec.indices.countP Index.consumes ∨
    ∃ idx, expand dims.length spec.indices = some idx ∧
      ∃ dim k, (dim, Index.int k) ∈ dims.zip (idx.filter Index.consumes) ∧
        ¬ (-(dim : Int) ≤ k ∧ k < dim)

theorem filter_consumes (items : List Item) :
    (items.map Item.index).filter Index.consumes = (axes items).map DenseDim.index := by
  induction items with
  | nil => rfl
  | cons it items ih =>
    rw [map_cons, filter_cons, consumes_index, ih]
    cases it with
    | newAxis => rfl
    | axis => rfl

theorem countP_insertEllipsis (idx : List Index) :
    (insertEllipsis idx).countP Index.consumes = idx.countP Index.consumes := by
  rw [insertEllipsis]
  split
  · rfl
  · rw [countP_append]
    rfl

theorem lt_of_sizesAgree {b e : List Int} (h : sizesAgree (spec.known b e) = true) :
    spec.stridesTensor.length < 32 := by
  have hb := of_decide_eq_true (Bool.and_eq_true_iff.mp h).1
  have hb : b.length = spec.stridesTensor.length ∧ b.length < 32 := hb
  omega

namespace Succeeds

variable {b e : List Int} {dense : DenseSpec}

structure Items (spec : Spec) (dims : List Nat) (dense : DenseSpec) (ps : List ProcessedDim)
    (items : List Item) : Prop where
  lists : Lists dense items
  length : (axes items).length = dims.length
  expand_eq : expand dims.length spec.indices = some (items.map Item.index)
  entries : ∀ i, i < spec.stridesTensor.length → spec.ellipsisMask.getLsbD i = false →
    itemOf spec i ∈ items
  selects : Forall₂ (fun (x : Nat × DenseDim) p => Selects x.1 x.2 p)
    (dims.zip (axes items)) ps

section

variable (h : Succeeds (spec.known b e) (dims.map fun d : Nat => (d : Int)) r dense ps f)

include h

theorem exists_items :
    ∃ items, Items (spec.known b e) dims dense ps items := by
  have hn : (spec.known b e).stridesTensor.length < 32 := lt_of_sizesAgree h.sizes
  obtain ⟨pre, _, post, hsplit⟩ := exists_split hn h.ellipses
  obtain ⟨items, hlists, hlen, hexpand, hmem⟩ := hsplit.exists_items h.dense_eq
  rw [length_map] at hlen hexpand
  refine ⟨items, hlists, hlists.dims ▸ hlen, hexpand, fun i hi hno => ?_, ?_⟩
  · exact hmem i (hsplit.entries i hi hno)
  · have hdims := h.dims_eq
    rw [hlists.dims] at hdims
    exact processDims_selects (hlists.dims ▸ hlen) hdims

theorem matchesNumpy (hitems : Items (spec.known b e) dims dense ps items) :
    MatchesNumpy dims (spec.known b e).indices r := by
  obtain ⟨out, hview, hfinal⟩ := view_items hitems.selects hitems.length []
  cases h.result
  constructor
  · refine ⟨out, ?_, ?_⟩
    · rw [basicIndexing, hitems.expand_eq]
      exact hview
    · rw [← hfinal]
      show dense.gather.filterMap (fun g => finalDim _ g.1) = (gatherOf 0 items).filterMap _
      rw [← hitems.lists.gather, filterMap_map]
      rfl
  · apply map_congr_left
    intro p hp
    obtain ⟨x, hx⟩ := exists_of_forall₂ hitems.selects.flip p hp
    exact size_eq_length hx
  · have hfst : (dims.zip (axes items)).map Prod.fst = dims :=
      map_fst_zip hitems.length.symm.le
    rw [← hfst, forall₂_map_left_iff]
    exact hitems.selects.imp fun _ _ hx => hx.inBounds

theorem not_faulty (hitems : Items (spec.known b e) dims dense ps items) :
    ¬ Faulty (spec.known b e) dims := by
  intro hfaulty
  rcases hfaulty with ⟨i, hi, hell, hnew, hzero⟩ | ⟨i, j, hne, hi, hj⟩ | hmany | hrange
  · have hentry := hitems.entries i hi hell
    rw [itemOf, hnew, if_neg Bool.false_ne_true] at hentry
    have hmem : DenseSpec.entry (spec.known b e) i ∈ dense.dims := by
      rw [hitems.lists.dims]
      exact mem_filterMap.mpr ⟨_, hentry, rfl⟩
    have hlen : dense.dims.length = (dims.map fun d : Nat => (d : Int)).length := by
      rw [hitems.lists.dims, hitems.length, length_map]
    exact strideI_ne_zero hlen h.dims_eq _ hmem hzero
  · exact hne (getLsbD_unique h.ellipses hi hj)
  · have hexpand := hitems.expand_eq
    rw [expand, countP_insertEllipsis] at hexpand
    rw [if_neg fun hc => not_lt.mpr hc.2 hmany] at hexpand
    cases hexpand
  · obtain ⟨idx, hidx, dim, k, hmem, hout⟩ := hrange
    rw [hitems.expand_eq, Option.some_inj] at hidx
    rw [← hidx, filter_consumes, zip_map_right] at hmem
    obtain ⟨⟨dim', d⟩, hd, heq⟩ := mem_map.mp hmem
    obtain ⟨hdim, hindex⟩ : dim' = dim ∧ d.index = .int k := Prod.mk.inj heq
    obtain ⟨p, hp⟩ := exists_of_forall₂ hitems.selects _ hd
    have hselect : select dim' d.index = some p.indices := hp.select_eq
    rw [hdim, hindex, select, if_neg hout] at hselect
    cases hselect

end

end Succeeds

theorem MatchesNumpy.nonneg {idx : List Index} (h : MatchesNumpy dims idx r) :
    (∀ d ∈ r.processingShape, 0 ≤ d) ∧ ∀ d ∈ r.finalShape, 0 ≤ d := by
  obtain ⟨out, -, hfinal⟩ := h.numpy
  rw [h.processing, hfinal, forall_mem_map, forall_mem_map]
  exact ⟨fun _ _ => Int.natCast_nonneg _, fun _ _ => Int.natCast_nonneg _⟩

/-- Basic indexing for a specification with known begin and end.  The variant with fully defined
shapes as results does not differ. -/
theorem validateStridedSliceOp_numpy (spec : Spec) (b e : List Int) (dims : List Nat) :
    (∀ r, validateStridedSliceOp (spec.known b e) (dims.map fun d : Nat => (d : Int)) = .ok r →
      MatchesNumpy dims (spec.known b e).indices r) ∧
    (Faulty (spec.known b e) dims → ∃ err,
      validateStridedSliceOp (spec.known b e) (dims.map fun d : Nat => (d : Int)) = .error err) ∧
    validateFullStridedSliceOp (spec.known b e) (dims.map fun d : Nat => (d : Int)) =
      validateStridedSliceOp (spec.known b e) (dims.map fun d : Nat => (d : Int)) := by
  have hok : ∀ r, validateStridedSliceOp (spec.known b e) (dims.map fun d : Nat => (d : Int)) =
      .ok r → MatchesNumpy dims (spec.known b e).indices r ∧ ¬ Faulty (spec.known b e) dims := by
    intro r h
    obtain ⟨dense, ps, f, hr⟩ := exists_succeeds h
    obtain ⟨items, hitems⟩ := hr.exists_items
    exact ⟨hr.matchesNumpy hitems, hr.not_faulty hitems⟩
  rw [validateFullStridedSliceOp]
  cases hr : validateStridedSliceOp (spec.known b e) (dims.map fun d : Nat => (d : Int)) with
  | error err => exact ⟨fun r h => (nomatch h), fun _ => ⟨err, rfl⟩, rfl⟩
  | ok r =>
    obtain ⟨hmatch, hfault⟩ := hok r hr
    refine ⟨fun r' h => ?_, fun h => absurd h hfault, if_pos hmatch.nonneg⟩
    cases h
    exact hmatch

/-- The slice `[..., newaxis, -1]` of a matrix. -/
example : (validateStridedSliceOp ⟨some [0, 0, -1], some [0, 0, 0], [1, 1, 1], 0, 0, 1, 2, 4⟩
    [3, 4]).toOption.map (fun r => (r.processingShape, r.finalShape)) =
      some ([3, 1], [3, 1]) := by decide

end TfReading.StridedSlice
