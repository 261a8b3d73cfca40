import Mathlib.Algebra.BigOperators.Group.List.Basic
import Mathlib.Algebra.Order.BigOperators.GroupWithZero.List
import TfReading.TensorShape.Rep

/-!
# Lists of sizes that a shape can hold

`AddDim` multiplies the sizes from the left.  It goes through for a list of sizes if every
beginning without an unknown size has a product that fits into an `int64`.
-/

namespace TfReading.TensorShape

open Util List

/-- The number of elements, which is `-1` if a size is unknown. -/
def numElementsOf (sizes : List Int) : Int := if ∀ v ∈ sizes, 0 ≤ v then sizes.prod else -1

def FitsInt64 (sizes : List Int) : Prop :=
  ∀ p, p <+: sizes → (∀ v ∈ p, 0 ≤ v) → p.prod < 2 ^ 63

/-- A shape can be built from these sizes, one at a time. -/
structure Buildable (kIsPartial : Bool) (sizes : List Int) : Prop where
  length_le : sizes.length ≤ maxDimensions
  nonneg : kIsPartial = false → ∀ v ∈ sizes, 0 ≤ v
  fits : FitsInt64 sizes

variable {k : Bool} {l l' : List Int} {v : Int}

theorem numElementsOf_of_nonneg (h : ∀ v ∈ l, 0 ≤ v) : numElementsOf l = l.prod := if_pos h

theorem numElementsOf_of_neg (hv : v ∈ l) (hneg : v < 0) : numElementsOf l = -1 :=
  if_neg fun h => absurd (h v hv) (Int.not_le.mpr hneg)

theorem numElementsOf_neg_iff : numElementsOf l < 0 ↔ ∃ v ∈ l, v < 0 := by
  constructor
  · intro hlt
    by_contra hno
    push Not at hno
    rw [numElementsOf_of_nonneg hno] at hlt
    exact absurd (prod_nonneg hno) (Int.not_le.mpr hlt)
  · intro h
    obtain ⟨v, hv, hneg⟩ := h
    rw [numElementsOf_of_neg hv hneg]
    decide

theorem FitsInt64.nil : FitsInt64 [] := by
  intro p hp _
  rw [prefix_nil.mp hp]
  decide

theorem FitsInt64.of_le (h : FitsInt64 l) (hp : l' <+: l) : FitsInt64 l' :=
  fun p hp' => h p (hp'.trans hp)

theorem fitsInt64_concat :
    FitsInt64 (l ++ [v]) ↔
      FitsInt64 l ∧ ((∀ w ∈ l ++ [v], 0 ≤ w) → (l ++ [v]).prod < 2 ^ 63) := by
  constructor
  · intro h
    exact ⟨h.of_le (prefix_append l [v]), h _ (prefix_refl _)⟩
  · intro h p hp
    rcases prefix_concat_iff.mp hp with heq | hp
    · rw [heq]
      exact h.2
    · exact h.1 p hp

/-- Beginnings that reach an unknown size do not count. -/
theorem FitsInt64.append_neg (h : FitsInt64 l) (hv : v < 0) (vs : List Int) :
    FitsInt64 (l ++ v :: vs) := by
  intro p hp hnonneg
  by_cases hlen : p.length ≤ l.length
  · exact h p (prefix_of_prefix_length_le hp (prefix_append l _) hlen) hnonneg
  · have hpv : l ++ [v] <+: p := by
      refine prefix_of_prefix_length_le ?_ hp ?_
      · rw [append_cons l v vs]
        exact prefix_append _ vs
      · rw [length_append, length_singleton]
        exact not_le.mp hlen
    exact absurd (hnonneg v (hpv.subset (by simp))) (Int.not_le.mpr hv)

theorem Buildable.nil : Buildable k [] where
  length_le := Nat.zero_le _
  nonneg := nofun
  fits := .nil

theorem Buildable.of_le (h : Buildable k l) (hp : l' <+: l) : Buildable k l' where
  length_le := le_trans hp.length_le h.length_le
  nonneg := fun hk v hv => h.nonneg hk v (hp.subset hv)
  fits := h.fits.of_le hp

theorem buildable_concat (h : Buildable k l) :
    Buildable k (l ++ [v]) ↔ l.length < maxDimensions ∧
      (k = false → 0 ≤ v) ∧ ((∀ w ∈ l ++ [v], 0 ≤ w) → l.prod * v < 2 ^ 63) := by
  have hprod : (l ++ [v]).prod = l.prod * v := by
    rw [prod_append, prod_singleton]
  constructor
  · intro hb
    have hlen := hb.length_le
    rw [length_append, length_singleton] at hlen
    have hfit := (fitsInt64_concat.mp hb.fits).2
    rw [hprod] at hfit
    exact ⟨hlen, fun hk => hb.nonneg hk v (by simp), hfit⟩
  · intro hb
    constructor
    · rw [length_append, length_singleton]
      exact hb.1
    · intro hk
      exact forall_mem_append.mpr ⟨h.nonneg hk, forall_mem_singleton.mpr (hb.2.1 hk)⟩
    · rw [fitsInt64_concat, hprod]
      exact ⟨h.fits, hb.2.2⟩

/-! ## What the functions count -/

structure Counts (s : TensorShapeRep) (l : List Int) : Prop where
  ndims : s.ndimsByte = l.length
  numElements : s.numElements = numElementsOf l

variable {s : TensorShapeRep}

theorem Counts.clear : Counts clear [] := ⟨rfl, rfl⟩

theorem Counts.unsafeAddDim (h : Counts s l) :
    Counts (unsafeAddDim k s v (numElementsOf (l ++ [v]))) (l ++ [v]) where
  ndims := by
    show s.ndimsByte + 1 = _
    rw [h.ndims, length_append, length_singleton]
  numElements := rfl

theorem unknownRank_of_le (h : s.ndimsByte ≤ maxDimensions) : unknownRank k s = false := by
  have hne : s.ndimsByte ≠ kUnknownRank := (Nat.lt_succ_of_le h).ne
  rw [unknownRank, beq_eq_false_iff_ne.mpr hne, Bool.and_false]

theorem Counts.unknownRank (h : Counts s l) (hl : l.length ≤ maxDimensions) :
    unknownRank k s = false := by
  apply unknownRank_of_le
  rw [h.ndims]
  exact hl

theorem Counts.dims (h : Counts s l) (hl : l.length ≤ maxDimensions) :
    dims k s = l.length := by
  rw [TensorShape.dims, h.unknownRank hl, h.ndims]
  rfl

theorem addDim_of_buildable (hs : Counts s l) (h : Buildable k (l ++ [v])) :
    addDim k s v = some (unsafeAddDim k s v (numElementsOf (l ++ [v]))) := by
  have hl : Buildable k l := h.of_le (prefix_append l [v])
  obtain ⟨hlen, hv, hfit⟩ := (buildable_concat hl).mp h
  have hndims : ¬maxDimensions ≤ s.ndimsByte := by
    rw [hs.ndims]
    exact not_le.mpr hlen
  have hsize : ¬(¬k ∧ v < 0) := by
    intro hc
    exact absurd (hv (eq_false_of_ne_true hc.1)) (Int.not_le.mpr hc.2)
  rw [addDim, if_neg hsize, hs.unknownRank hl.length_le, if_neg (by decide), if_neg hndims, hs.numElements]
  by_cases hneg : ∃ w ∈ l ++ [v], w < 0
  · obtain ⟨w, hw, hneg⟩ := hneg
    have hk : k = true := by
      by_contra hk
      exact absurd (h.nonneg (by simpa using hk) w hw) (Int.not_le.mpr hneg)
    rw [numElementsOf_of_neg hw hneg, if_pos]
    refine ⟨hk, ?_⟩
    rcases mem_append.mp hw with hw | hw
    · exact .inl (numElementsOf_neg_iff.mpr ⟨w, hw, hneg⟩)
    · exact .inr (mem_singleton.mp hw ▸ hneg)
  · push Not at hneg
    have hln : ∀ w ∈ l, 0 ≤ w := fun w hw => hneg w (mem_append_left _ hw)
    have hvn : 0 ≤ v := hneg v (by simp)
    have hmul : multiplyWithoutOverflow (numElementsOf l) v = numElementsOf (l ++ [v]) := by
      rw [numElementsOf_of_nonneg hln, numElementsOf_of_nonneg hneg, prod_append,
        prod_singleton]
      exact multiplyWithoutOverflow_of_lt (prod_nonneg hln) hvn (hfit hneg)
    rw [if_neg, hmul, if_neg]
    · rw [numElementsOf_of_nonneg hneg]
      exact Int.not_lt.mpr (prod_nonneg hneg)
    · intro hc
      rcases hc.2 with hlt | hlt
      · rw [numElementsOf_of_nonneg hln] at hlt
        exact absurd (prod_nonneg hln) (Int.not_le.mpr hlt)
      · exact absurd hvn (Int.not_le.mpr hlt)

theorem addDim_of_not_buildable (hs : Counts s l) (hl : Buildable k l)
    (h : ¬Buildable k (l ++ [v])) : addDim k s v = none := by
  rw [buildable_concat hl] at h
  rw [addDim]
  split
  · rfl
  next hsize =>
    rw [hs.unknownRank hl.length_le, if_neg (by decide), hs.ndims]
    split
    · rfl
    next hlen =>
      have hv : k = false → 0 ≤ v := by
        intro hk
        by_contra hneg
        exact hsize ⟨by rw [hk]; decide, Int.not_le.mp hneg⟩
      have hover : ¬((∀ w ∈ l ++ [v], 0 ≤ w) → l.prod * v < 2 ^ 63) :=
        fun hfit => h ⟨not_le.mp hlen, hv, hfit⟩
      push Not at hover
      obtain ⟨hneg, hge⟩ := hover
      have hln : ∀ w ∈ l, 0 ≤ w := fun w hw => hneg w (mem_append_left _ hw)
      have hvn : 0 ≤ v := hneg v (by simp)
      rw [hs.numElements, numElementsOf_of_nonneg hln, if_neg, if_pos]
      · exact multiplyWithoutOverflow_neg (prod_nonneg hln) hvn hge
      · intro hc
        rcases hc.2 with hlt | hlt
        · exact absurd (prod_nonneg hln) (Int.not_le.mpr hlt)
        · exact absurd hvn (Int.not_le.mpr hlt)

/-- The loop of `AddDim` goes through if and only if the sizes can be built. -/
theorem addDims_eq_some_iff {vs : List Int} (hs : Counts s l) (hl : Buildable k l) :
    (∃ s', addDims k s vs = some s') ↔ Buildable k (l ++ vs) := by
  induction vs generalizing s l with
  | nil =>
    rw [append_nil]
    exact ⟨fun _ => hl, fun _ => ⟨s, rfl⟩⟩
  | cons v vs ih =>
    rw [addDims, foldlM_cons, append_cons]
    by_cases hv : Buildable k (l ++ [v])
    · rw [addDim_of_buildable hs hv]
      exact ih hs.unsafeAddDim hv
    · rw [addDim_of_not_buildable hs hl hv]
      exact iff_of_false nofun fun h => hv (h.of_le (prefix_append _ vs))

theorem recomputeLoop_eq (hl : ∀ w ∈ l, 0 ≤ w) (hfit : FitsInt64 l) (vs : List Int)
    (hk : k = false → ∀ w ∈ vs, 0 ≤ w) :
    (FitsInt64 (l ++ vs) ∧ recomputeLoop k l.prod vs = some (numElementsOf (l ++ vs))) ∨
      (¬FitsInt64 (l ++ vs) ∧ recomputeLoop k l.prod vs = none) := by
  induction vs generalizing l with
  | nil =>
    rw [append_nil, numElementsOf_of_nonneg hl]
    exact .inl ⟨hfit, rfl⟩
  | cons v vs ih =>
    rw [recomputeLoop]
    split
    next hneg =>
      -- The loop stops at an unknown size.
      left
      rw [numElementsOf_of_neg (mem_append_right l mem_cons_self) hneg.2]
      exact ⟨hfit.append_neg hneg.2 vs, rfl⟩
    next hneg =>
      have hv : 0 ≤ v := by
        by_contra hlt
        cases hp : k with
        | false => exact hlt (hk hp v mem_cons_self)
        | true => exact hneg ⟨hp, Int.not_le.mp hlt⟩
      have hlv : ∀ w ∈ l ++ [v], 0 ≤ w :=
        forall_mem_append.mpr ⟨hl, forall_mem_singleton.mpr hv⟩
      have hprod : (l ++ [v]).prod = l.prod * v := by
        rw [prod_append, prod_singleton]
      rw [append_cons]
      by_cases hlt : l.prod * v < 2 ^ 63
      · have hmul := multiplyWithoutOverflow_of_lt (prod_nonneg hl) hv hlt
        rw [hmul, if_neg (Int.not_lt.mpr (Int.mul_nonneg (prod_nonneg hl) hv)), ← hprod]
        apply ih hlv
        · rw [fitsInt64_concat, hprod]
          exact ⟨hfit, fun _ => hlt⟩
        · exact fun hp => (forall_mem_cons.mp (hk hp)).2
      · right
        constructor
        · intro h
          apply hlt
          rw [← hprod]
          exact h _ (prefix_append _ vs) hlv
        · rw [if_pos]
          exact multiplyWithoutOverflow_neg (prod_nonneg hl) hv (Int.not_lt.mp hlt)

end TfReading.TensorShape
