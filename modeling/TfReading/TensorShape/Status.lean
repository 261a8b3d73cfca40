import TfReading.TensorShape.Represents

/-!
# Variants that return a status

A function with a status and its variant with `CHECK`s duplicate their guards.  `checkOk` turns a
result with a status into what the other variant should return.
-/

namespace TfReading.TensorShape

open Util List

variable {k : Bool} {s t : TensorShapeRep} {l : List Int} {size : Int}

theorem checkOk_of_ne {status : Status} (h : status ≠ .ok) : checkOk (status, s) = none := by
  cases status with
  | ok => exact absurd rfl h
  | internal => rfl
  | invalidArgument => rfl

theorem checkOk_eq_some_iff {r : Status × TensorShapeRep} : checkOk r = some t ↔ r = (.ok, t) := by
  obtain ⟨status, u⟩ := r
  cases status with
  | ok =>
    constructor
    · intro h
      cases h
      rfl
    · intro h
      cases h
      rfl
  | internal message | invalidArgument message => exact ⟨fun h => (nomatch h), fun h => (nomatch h)⟩

/-! ## Adding dimensions -/

theorem checkOk_addDimWithStatus (size : Int) :
    checkOk (addDimWithStatus k s size) = addDim k s size := by
  unfold addDimWithStatus addDim
  split
  · rfl
  split
  · rfl
  split
  · rfl
  split
  · rfl
  dsimp only
  split
  · rfl
  · rfl

theorem addDimWithStatus_of_none (h : addDim k s size = none) :
    ∃ status, status ≠ .ok ∧ addDimWithStatus k s size = (status, s) := by
  unfold addDim at h
  unfold addDimWithStatus
  split_ifs at h ⊢
  · exact ⟨_, by nofun, rfl⟩
  · exact ⟨_, by nofun, rfl⟩
  next hneg =>
    rw [if_pos hneg]
    exact ⟨_, by nofun, rfl⟩

theorem addDimWithStatus_of_some (h : addDim k s size = some t) :
    addDimWithStatus k s size = (.ok, t) := by
  rw [← checkOk_addDimWithStatus] at h
  exact checkOk_eq_some_iff.mp h

/-- The loop stops at the first size that `AddDim` rejects, with what it has built so far. -/
theorem addDimsWithStatus_cases (vs : List Int) :
    (∃ t, addDims k s vs = some t ∧ addDimsWithStatus k s vs = (.ok, t)) ∨
    (addDims k s vs = none ∧ ∃ built v rest t status, vs = built ++ v :: rest ∧
      addDims k s built = some t ∧ addDim k t v = none ∧ status ≠ .ok ∧
      addDimsWithStatus k s vs = (status, t)) := by
  induction vs generalizing s with
  | nil => exact .inl ⟨s, rfl, rfl⟩
  | cons v vs ih =>
    rw [addDims, foldlM_cons, addDimsWithStatus]
    cases hadd : addDim k s v with
    | none =>
      obtain ⟨status, hne, heq⟩ := addDimWithStatus_of_none hadd
      right
      refine ⟨rfl, [], v, vs, s, status, rfl, rfl, hadd, hne, ?_⟩
      rw [heq]
      cases status with
      | ok => exact absurd rfl hne
      | internal => rfl
      | invalidArgument => rfl
    | some u =>
      rw [addDimWithStatus_of_some hadd]
      rcases ih with hok | ⟨hnone, built, w, rest, t, status, hvs, hbuilt, hw, hne, heq⟩
      · exact .inl hok
      · right
        refine ⟨hnone, v :: built, w, rest, t, status, ?_, ?_, hw, hne, heq⟩
        · rw [hvs, cons_append]
        · rw [addDims, foldlM_cons, hadd]
          exact hbuilt

theorem checkOk_addDimsWithStatus (vs : List Int) :
    checkOk (addDimsWithStatus k s vs) = addDims k s vs := by
  rcases addDimsWithStatus_cases vs with
    ⟨t, hadd, heq⟩ | ⟨hadd, _, _, _, t, status, _, _, _, hne, heq⟩
  · rw [heq, hadd]
    rfl
  · rw [heq, hadd, checkOk_of_ne hne]

/-! ## The other mutators -/

theorem checkOk_insertDimWithStatus (d size : Int) :
    checkOk (insertDimWithStatus k s d size) = insertDim k s d size := by
  unfold insertDimWithStatus insertDim
  by_cases hsize : ¬k ∧ size < 0
  · rw [if_pos hsize, if_pos hsize, ite_self, ite_self]
    rfl
  · rw [if_neg hsize, if_neg hsize]
    split
    · rfl
    split
    · rfl
    split
    · rfl
    exact checkOk_addDimsWithStatus _

/-- The status of the loop is passed on, otherwise the elements are counted again. -/
theorem checkOk_rebuild (vs : List Int) :
    checkOk (match addDimsWithStatus k s vs with
      | (.ok, t) => recomputeNumElements k t
      | failed => failed) =
    (addDims k s vs).bind fun t => checkOk (recomputeNumElements k t) := by
  rcases addDimsWithStatus_cases vs with
    ⟨t, hadd, heq⟩ | ⟨hadd, _, _, _, t, status, _, _, _, hne, heq⟩
  · rw [heq, hadd]
    rfl
  · rw [heq, hadd]
    cases status with
    | ok => exact absurd rfl hne
    | internal => rfl
    | invalidArgument => rfl

theorem checkOk_setDimWithStatus (d size : Int) :
    checkOk (setDimWithStatus k s d size) = setDim k s d size := by
  unfold setDimWithStatus setDim
  split
  · rfl
  split
  · rfl
  split
  · rfl
  split
  · rfl
  exact checkOk_rebuild _

theorem checkOk_removeDimRangeWithStatus (first last : Int) :
    checkOk (removeDimRangeWithStatus k s first last) =
      removeDimRange k s first last := by
  unfold removeDimRangeWithStatus removeDimRange
  split
  · rfl
  dsimp only
  split
  · rfl
  split
  · rfl
  split
  · rfl
  split
  · rfl
  split
  · rfl
  exact checkOk_rebuild _

/-! ## Removing the last dimensions -/

/-- The beginning of what could be built can be built again. -/
theorem Represents.rebuild_isSome (h : Represents k s l) (n : Nat) :
    ∃ t, TensorShape.addDims k TensorShape.clear (l.take n) = some t ∧
      checkOk (recomputeNumElements k t) = some t := by
  have hb : Buildable k ([] ++ l.take n) := h.buildable.of_le (List.take_prefix n l)
  obtain ⟨t, ht⟩ := (addDims_eq_some_iff .clear .nil).mpr hb
  have hrep : Represents k t (l.take n) :=
    .rebuild (fun v hv => h.legal v (mem_of_mem_take hv)) ht
  refine ⟨t, ht, ?_⟩
  rw [hrep.recompute_ok]
  rfl

/-- A range up to the end goes through from every place in the list. -/
theorem Represents.removeDimRange_isSome (h : Represents k s l) (first : Int)
    (hfirst : 0 ≤ fromEnd l.length first) (hle : fromEnd l.length first ≤ l.length) :
    ∃ t, TensorShape.removeDimRange k s first l.length = some t := by
  have hlast : fromEnd l.length l.length = l.length := if_neg (by omega)
  unfold TensorShape.removeDimRange
  rw [h.unknownRank, if_neg (by decide), h.dims, h.dimSizes]
  rw [hlast, if_neg (Int.not_lt.mpr hfirst), if_neg (Int.not_lt.mpr hle), if_neg (by omega),
    if_neg (by omega)]
  split
  · exact ⟨s, rfl⟩
  · obtain ⟨t, hadd, hcheck⟩ := h.rebuild_isSome (fromEnd l.length first).toNat
    refine ⟨t, ?_⟩
    rw [eraseRange, Int.toNat_natCast, drop_length, append_nil, hadd]
    exact hcheck

theorem Represents.removeDimRange_eq_none {first last : Int} (h : Represents k s l)
    (hfirst : fromEnd l.length first < 0 ∨ l.length < fromEnd l.length first) :
    TensorShape.removeDimRange k s first last = none := by
  unfold TensorShape.removeDimRange
  rw [h.unknownRank, if_neg (by decide), h.dims]
  dsimp only
  split
  · rfl
  next hnonneg =>
    rw [if_pos]
    exact hfirst.resolve_left hnonneg

end TfReading.TensorShape
