import TfReading.TensorShape.Status

/-!
# Calls with and without a status

Two functions do not follow their variants.  `RemoveLastDimsWithStatus` compares the other way
round, and `ConcatenateWithStatus` extends its receiver and leaves `*out` as it was.
-/

namespace TfReading.TensorShape

open Util

inductive Call : Bool → Type
  | addDim {kIsPartial : Bool} (size : Int64) : Call kIsPartial
  | insertDim {kIsPartial : Bool} (d : Int32) (size : Int64) : Call kIsPartial
  | setDim {kIsPartial : Bool} (d : Int32) (size : Int64) : Call kIsPartial
  | removeDimRange {kIsPartial : Bool} (first last : Int32) : Call kIsPartial
  | removeLastDims {kIsPartial : Bool} (n : Int32) : Call kIsPartial
  | concatenate (size : Int64) (out : Shape true) : Call true
  | concatenateShape (other out : Shape true) : Call true

/-- The status is `OK` exactly if no `CHECK` of the plain variant fails, and then the shape is the
one that this variant yields. -/
def Agrees (kIsPartial : Bool) (plain : Option TensorShapeRep)
    (result : Status × TensorShapeRep) : Prop :=
  (result.1 = .ok ↔ plain.isSome) ∧
    ∀ t, result.1 = .ok → plain = some t → SameShape kIsPartial result.2 t

/-- `Agrees` for a result in `*out`, with a receiver that has to stay as it is. -/
def AgreesInOut (this : TensorShapeRep) (plain : Option TensorShapeRep)
    (result : Status × Concatenated) : Prop :=
  Agrees true plain (result.1, result.2.out) ∧
    (result.1 = .ok → SameShape true result.2.this this)

def Call.VariantsAgree {k : Bool} (call : Call k) (shape : Shape k) : Prop :=
  let s := shape.toTensorShapeRep
  match call with
  | .addDim size =>
    Agrees k (TensorShape.addDim k s size.toInt) (addDimWithStatus k s size.toInt)
  | .insertDim d size =>
    Agrees k (TensorShape.insertDim k s d.toInt size.toInt)
      (insertDimWithStatus k s d.toInt size.toInt)
  | .setDim d size =>
    Agrees k (TensorShape.setDim k s d.toInt size.toInt) (setDimWithStatus k s d.toInt size.toInt)
  | .removeDimRange first last =>
    Agrees k (TensorShape.removeDimRange k s first.toInt last.toInt)
      (removeDimRangeWithStatus k s first.toInt last.toInt)
  | .removeLastDims n =>
    Agrees k (TensorShape.removeLastDims k s n.toInt) (removeLastDimsWithStatus k s n.toInt)
  | .concatenate size out =>
    AgreesInOut s (TensorShape.concatenate s size.toInt)
      (concatenateWithStatus s size.toInt out.toTensorShapeRep)
  | .concatenateShape other out =>
    AgreesInOut s (TensorShape.concatenateShape s other.toTensorShapeRep)
      (concatenateShapeWithStatus s other.toTensorShapeRep out.toTensorShapeRep)

/-- The calls for which the defects do not show. -/
def Call.AgreesWhen {k : Bool} (call : Call k) (shape : Shape k) : Prop :=
  let s := shape.toTensorShapeRep
  match call with
  | .addDim _ => True
  | .insertDim _ _ => True
  | .setDim _ _ => True
  | .removeDimRange _ _ => True
  | .removeLastDims n =>
    if unknownRank k s then n.toInt = -1
    else n.toInt < 0 ∨ n.toInt = dims k s ∨ 2 * dims k s + 1 < n.toInt
  | .concatenate size out =>
    if unknownRank true s then unknownRank true out.toTensorShapeRep = true
    else ¬Buildable true (dimSizes true s ++ [size.toInt])
  | .concatenateShape other out =>
    unknownRank true s ∨ unknownRank true other.toTensorShapeRep ∨
      ¬Buildable true (dimSizes true s ++ dimSizes true other.toTensorShapeRep) ∨
      (dims true other.toTensorShapeRep = 0 ∧ SameShape true out.toTensorShapeRep s)

section Agreement

variable {k : Bool} {out s shape t : TensorShapeRep} {plain : Option TensorShapeRep} {l : List Int}
    {result : Status × TensorShapeRep}

theorem agrees_of_checkOk (h : checkOk result = plain) :
    Agrees k plain result := by
  obtain ⟨status, u⟩ := result
  cases status with
  | ok =>
    rw [← h]
    constructor
    · exact iff_of_true rfl rfl
    · intro t _ ht
      cases ht
      exact .refl u
  | internal message | invalidArgument message =>
    rw [← h]
    exact ⟨iff_of_false (by nofun) (by nofun), fun t hst => (nomatch hst)⟩

theorem not_agrees (h : (checkOk result).isSome ≠ plain.isSome) : ¬Agrees k plain result := by
  intro hagree
  apply h
  rw [Bool.eq_iff_iff, ← hagree.1]
  obtain ⟨status, u⟩ := result
  cases status with
  | ok => exact iff_of_true rfl rfl
  | internal message | invalidArgument message => exact iff_of_false (by nofun) (by nofun)

/-! ## `RemoveLastDims` -/

/-- Where the range to remove starts, in the list. -/
theorem fromEnd_toInt32 {len n : Int} (hlen : 0 ≤ len) (hmax : len ≤ 254) (hlo : -2 ^ 31 ≤ n)
    (hhi : n < 2 ^ 31) :
    (n < 0 → fromEnd len (toInt32 (len - n)) < 0 ∨ len < fromEnd len (toInt32 (len - n))) ∧
    (0 ≤ n → n ≤ len → fromEnd len (toInt32 (len - n)) = len - n) ∧
    (len < n → fromEnd len (toInt32 (len - n)) = 2 * len + 1 - n) := by
  rw [fromEnd, toInt32, Int.bmod_def]
  omega

theorem Represents.removeLastDims_agrees (h : Represents k s l) (n : Int32) :
    Agrees k (removeLastDims k s n.toInt) (removeLastDimsWithStatus k s n.toInt) ↔
      n.toInt < 0 ∨ n.toInt = l.length ∨ 2 * (l.length : Int) + 1 < n.toInt := by
  have hlen : (l.length : Int) ≤ 254 := by exact_mod_cast h.buildable.length_le
  obtain ⟨hneg, hmid, hbig⟩ :=
    fromEnd_toInt32 (Int.natCast_nonneg l.length) hlen n.le_toInt n.toInt_lt
  rw [removeLastDims, removeLastDimsWithStatus, h.dims]
  rcases Int.lt_trichotomy n.toInt l.length with hlt | heq | hgt
  · rw [if_neg (by omega), if_pos hlt]
    by_cases hn : n.toInt < 0
    · rw [h.removeDimRange_eq_none (hneg hn)]
      exact iff_of_true (agrees_of_checkOk rfl) (.inl hn)
    · obtain ⟨t, ht⟩ := h.removeDimRange_isSome (toInt32 (l.length - n.toInt)) (by omega) (by omega)
      rw [ht]
      apply iff_of_false
      · apply not_agrees
        nofun
      · omega
  · rw [if_neg (by omega), if_neg (by omega)]
    exact iff_of_true (agrees_of_checkOk (checkOk_removeDimRangeWithStatus _ _))
      (.inr (.inl heq))
  · rw [if_pos hgt, if_neg (by omega)]
    by_cases hn : 2 * (l.length : Int) + 1 < n.toInt
    · apply iff_of_true
      · apply agrees_of_checkOk
        rw [checkOk_removeDimRangeWithStatus]
        exact h.removeDimRange_eq_none (.inl (by omega))
      · exact .inr (.inr hn)
    · obtain ⟨t, ht⟩ :=
        h.removeDimRange_isSome (toInt32 (l.length - n.toInt)) (by omega) (by omega)
      apply iff_of_false
      · apply not_agrees
        rw [checkOk_removeDimRangeWithStatus, ht]
        nofun
      · omega

/-- Nothing is removed from a shape of unknown rank, which has `-1` dimensions. -/
theorem removeLastDims_agrees_of_unknownRank (h : unknownRank k s = true) (n : Int) :
    Agrees k (removeLastDims k s n) (removeLastDimsWithStatus k s n) ↔ n = -1 := by
  have hdims : dims k s = -1 := by rw [dims, h]; rfl
  have hrange : ∀ first last, removeDimRange k s first last = some s := by
    intro first last
    rw [removeDimRange, h, if_pos rfl]
  rw [removeLastDims, removeLastDimsWithStatus, hdims, hrange]
  rcases Int.lt_trichotomy n (-1) with hlt | heq | hgt
  · rw [if_neg (by omega), if_pos hlt]
    apply iff_of_false
    · apply not_agrees
      simp [checkOk]
    · omega
  · rw [if_neg (by omega), if_neg (by omega)]
    apply iff_of_true
    · apply agrees_of_checkOk
      rw [checkOk_removeDimRangeWithStatus, hrange]
    · exact heq
  · rw [if_pos hgt, if_neg (by omega)]
    apply iff_of_false
    · apply not_agrees
      rw [checkOk_removeDimRangeWithStatus, hrange]
      simp
    · omega

/-! ## `Concatenate` -/

/-- A shape that has been extended in place is not the receiver any more. -/
theorem not_agreesInOut_of_extended {m : List Int} (hs : Counts s l)
    (ht : Counts t m) (hl : l.length ≤ maxDimensions) (hm : m.length ≤ maxDimensions)
    (hne : m.length ≠ l.length) : ¬AgreesInOut s plain (.ok, ⟨t, out⟩) := by
  intro h
  have hdims := (h.2 rfl).dims
  rw [ht.dims hm, hs.dims hl] at hdims
  omega

theorem agreesInOut_of_failed {status : Status} (hne : status ≠ .ok) :
    AgreesInOut s none (status, ⟨t, out⟩) := by
  constructor
  · exact ⟨iff_of_false hne (by nofun), fun _ hok => absurd hok hne⟩
  · exact fun hok => absurd hok hne

/-- A receiver that stays as it is has to be in `*out` already. -/
theorem agreesInOut_unchanged_iff :
    AgreesInOut s (some s) (.ok, ⟨s, out⟩) ↔ SameShape true out s := by
  constructor
  · intro hagree
    exact hagree.1.2 s rfl rfl
  · intro hsame
    constructor
    · refine ⟨iff_of_true rfl rfl, ?_⟩
      intro t _ ht
      cases ht
      exact hsame
    · exact fun _ => .refl s

theorem Represents.concatenate_agrees (h : Represents true s l) (size : Int)
    (out : TensorShapeRep) :
    AgreesInOut s (concatenate s size) (concatenateWithStatus s size out) ↔
      ¬Buildable true (l ++ [size]) := by
  rw [concatenate, concatenateWithStatus]
  by_cases hb : Buildable true (l ++ [size])
  · have hadd := addDim_of_buildable h.toCounts hb
    rw [addDimWithStatus_of_some hadd]
    apply iff_of_false
    · apply not_agreesInOut_of_extended h.toCounts h.toCounts.unsafeAddDim
        h.buildable.length_le hb.length_le
      rw [List.length_append, List.length_singleton]
      exact Nat.succ_ne_self _
    · exact fun hnot => hnot hb
  · have hadd := addDim_of_not_buildable h.toCounts h.buildable hb
    obtain ⟨status, hne, heq⟩ := addDimWithStatus_of_none hadd
    rw [hadd, heq]
    exact iff_of_true (agreesInOut_of_failed hne) hb

theorem Represents.concatenateShape_agrees {m : List Int}
    (h : Represents true s l) (hm : Represents true shape m) (out : TensorShapeRep) :
    AgreesInOut s (concatenateShape s shape) (concatenateShapeWithStatus s shape out) ↔
      ¬Buildable true (l ++ m) ∨ (m.length = 0 ∧ SameShape true out s) := by
  have hrank : ¬(TensorShape.unknownRank true s = true ∨
      TensorShape.unknownRank true shape = true) := by
    rw [h.unknownRank, hm.unknownRank]
    decide
  rw [concatenateShape, concatenateShapeWithStatus, if_neg hrank, if_neg hrank, hm.dimSizes]
  rcases TensorShape.addDimsWithStatus_cases m with
    ⟨t, hadd, heq⟩ | ⟨hadd, _, _, _, t, status, _, _, _, hne, heq⟩
  · have ht := h.addDims hm.legal hadd
    rw [heq, hadd]
    cases m with
    | nil =>
      cases hadd
      rw [agreesInOut_unchanged_iff]
      constructor
      · exact fun hsame => .inr ⟨rfl, hsame⟩
      · exact fun hor => (hor.resolve_left fun hnot => hnot ht.buildable).2
    | cons =>
      apply iff_of_false
      · apply not_agreesInOut_of_extended h.toCounts ht.toCounts h.buildable.length_le
          ht.buildable.length_le
        rw [List.length_append, List.length_cons]
        omega
      · intro hor
        rcases hor with hnot | hnil
        · exact hnot ht.buildable
        · cases hnil.1
  · have hnot : ¬Buildable true (l ++ m) := by
      rw [← addDims_eq_some_iff h.toCounts h.buildable, hadd]
      nofun
    rw [heq, hadd]
    exact iff_of_true (agreesInOut_of_failed hne) (.inl hnot)

/-- Nothing is added to a shape of unknown rank, and `*out` is not written either. -/
theorem concatenate_agrees_of_unknownRank (hs : Valid true s)
    (hout : Valid true out) (h : unknownRank true s = true) (size : Int) :
    AgreesInOut s (concatenate s size) (concatenateWithStatus s size out) ↔
      unknownRank true out = true := by
  have hadd : addDim true s size = some s := by
    rw [addDim, if_neg (by simp), if_pos h]
  rw [concatenate, concatenateWithStatus, addDimWithStatus_of_some hadd, hadd,
    ← SameShape.iff_of_unknownRank hs hout h]
  exact agreesInOut_unchanged_iff

theorem concatenateShape_agrees_of_unknownRank
    (h : unknownRank true s = true ∨ unknownRank true shape = true) :
    AgreesInOut s (concatenateShape s shape) (concatenateShapeWithStatus s shape out) := by
  rw [concatenateShape, concatenateShapeWithStatus, if_pos h, if_pos h]
  constructor
  · exact agrees_of_checkOk rfl
  · exact fun _ => .refl s

end Agreement

/-! ## All calls -/

/-- The variants of a call agree exactly under the conditions of `AgreesWhen`. -/
theorem variantsAgree_iff (k : Bool) (s : Shape k) (call : Call k) :
    call.VariantsAgree s ↔ call.AgreesWhen s := by
  cases call with
  | addDim => exact iff_of_true (agrees_of_checkOk (checkOk_addDimWithStatus _)) trivial
  | insertDim =>
    exact iff_of_true (agrees_of_checkOk (checkOk_insertDimWithStatus _ _)) trivial
  | setDim => exact iff_of_true (agrees_of_checkOk (checkOk_setDimWithStatus _ _)) trivial
  | removeDimRange =>
    exact iff_of_true (agrees_of_checkOk (checkOk_removeDimRangeWithStatus _ _)) trivial
  | removeLastDims n =>
    unfold Call.AgreesWhen
    dsimp only
    split
    next hrank => exact removeLastDims_agrees_of_unknownRank hrank n.toInt
    next hrank =>
      obtain ⟨l, hl⟩ := s.valid.cases.resolve_left fun hno => hrank hno.1
      rw [hl.dims]
      exact hl.removeLastDims_agrees n
  | concatenate size out =>
    unfold Call.AgreesWhen
    dsimp only
    split
    next hrank => exact concatenate_agrees_of_unknownRank s.valid out.valid hrank size.toInt
    next hrank =>
      obtain ⟨l, hl⟩ := s.valid.cases.resolve_left fun hno => hrank hno.1
      rw [hl.dimSizes]
      exact hl.concatenate_agrees size.toInt out.toTensorShapeRep
  | concatenateShape other out =>
    unfold Call.AgreesWhen
    dsimp only
    by_cases hrank : unknownRank true s.toTensorShapeRep = true ∨
      unknownRank true other.toTensorShapeRep = true
    · apply iff_of_true
      · exact concatenateShape_agrees_of_unknownRank hrank
      · exact hrank.elim .inl fun h => .inr (.inl h)
    · obtain ⟨l, hl⟩ := s.valid.cases.resolve_left fun hno => hrank (.inl hno.1)
      obtain ⟨m, hm⟩ := other.valid.cases.resolve_left fun hno => hrank (.inr hno.1)
      rw [hl.dimSizes, hm.dimSizes, hm.dims, hl.unknownRank, hm.unknownRank, Int.natCast_eq_zero]
      exact (hl.concatenateShape_agrees hm out.toTensorShapeRep).trans (by simp)

def twoByThree (kIsPartial : Bool) : Shape kIsPartial where
  rep := .rep16 #v[2, 3, 0, 0, 0, 0]
  ndimsByte := 2
  numElements := 6
  valid := valid_of_addDims [2, 3]
    (by cases kIsPartial <;> decide) (by cases kIsPartial <;> decide +kernel)

/-- `RemoveLastDimsWithStatus(1)` rejects `[2,3]`, which `RemoveLastDims(1)` turns into `[2]`, and
`ConcatenateWithStatus(5, out)` leaves `[2,3]` in `*out`. -/
theorem not_variantsAgree_twoByThree :
    ¬(Call.removeLastDims 1).VariantsAgree (twoByThree false) ∧
    ¬(Call.concatenate 5 (twoByThree true)).VariantsAgree (twoByThree true) := by
  constructor
  · apply not_agrees
    decide +kernel
  · intro hagree
    have hdims := (hagree.2 (by decide +kernel)).dims
    revert hdims
    decide +kernel

end TfReading.TensorShape
