import TfReading.TensorShape.Status

/-!
# What a failed mutator leaves behind

A mutator that rebuilds the shape one size at a time, or that counts the elements after it has
written a size, may fail when the old sizes are gone already.
-/

namespace TfReading.TensorShape

open List

inductive Mutation (kIsPartial : Bool)
  | addDim (size : Int64)
  | appendShape (other : Shape kIsPartial)
  | insertDim (d : Int32) (size : Int64)
  | setDim (d : Int32) (size : Int64)
  | removeDimRange (first last : Int32)

def Mutation.apply {k : Bool} (m : Mutation k) (s : TensorShapeRep) : Status × TensorShapeRep :=
  match m with
  | .addDim size => addDimWithStatus k s size.toInt
  | .appendShape other => appendShapeWithStatus k s other.toTensorShapeRep
  | .insertDim d size => insertDimWithStatus k s d.toInt size.toInt
  | .setDim d size => setDimWithStatus k s d.toInt size.toInt
  | .removeDimRange first last => removeDimRangeWithStatus k s first.toInt last.toInt

/-- If the result is not `OK`, no caller can tell the shape from the one before. -/
def Atomic (k : Bool) (s : TensorShapeRep) (result : Status × TensorShapeRep) : Prop :=
  result.1 ≠ .ok → SameShape k result.2 s

def Mutation.FailureAtomic {k : Bool} (m : Mutation k) (s : Shape k) : Prop :=
  Atomic k s.toTensorShapeRep (m.apply s.toTensorShapeRep)

/-- Arguments with which `AppendShapeWithStatus` is atomic: all sizes can be added, or already the
first cannot. -/
def AppendSafe (k : Bool) (s : TensorShapeRep) (sizes : List Int) : Prop :=
  unknownRank k s ∨ Buildable k (dimSizes k s ++ sizes) ∨
    ¬Buildable k (dimSizes k s ++ sizes.take 1)

/-- Arguments with which `InsertDimWithStatus` is atomic: they are rejected at once, the new sizes
can be built, or all but the last of them are the old ones. -/
def InsertSafe (k : Bool) (s : TensorShapeRep) (d size : Int) : Prop :=
  d < 0 ∨ dims k s < d ∨ (k = false ∧ size < 0) ∨ maxDimensions ≤ dims k s ∨
    Buildable k ((dimSizes k s).insertIdx d.toNat size) ∨
    ∀ v ∈ (dimSizes k s).drop d.toNat, v = size

def SetSafe (k : Bool) (s : TensorShapeRep) (d size : Int) : Prop :=
  d < 0 ∨ dims k s ≤ d ∨ size < 0 ∨ Buildable k ((dimSizes k s).set d.toNat size)

def RemoveSafe (k : Bool) (s : TensorShapeRep) (first last : Int) : Prop :=
  unknownRank k s ∨ first < 0 ∨ dims k s < first ∨ last < 0 ∨ dims k s < last ∨ last ≤ first ∨
    Buildable k (eraseRange (dimSizes k s) first last)

def Mutation.AtomicWhen {k : Bool} (m : Mutation k) (s : TensorShapeRep) : Prop :=
  match m with
  | .addDim _ => True
  | .appendShape other => AppendSafe k s (dimSizes k other.toTensorShapeRep)
  | .insertDim d size => InsertSafe k s d.toInt size.toInt
  | .setDim d size => SetSafe k s d.toInt size.toInt
  | .removeDimRange first last =>
    RemoveSafe k s (fromEnd (dims k s) first.toInt) (fromEnd (dims k s) last.toInt)

variable {k : Bool} {s t : TensorShapeRep} {l m vs : List Int} {status : Status} {size x : Int}
    {d : Nat}

theorem atomic_of_ok : Atomic k s (.ok, t) := fun h => absurd rfl h

theorem atomic_of_unchanged : Atomic k s (status, s) :=
  fun _ => .refl s

theorem atomic_check_iff {c safe : Prop} [Decidable c]
    {result : Status × TensorShapeRep} (h : ¬c → (Atomic k s result ↔ safe)) :
    Atomic k s (if c then (status, s) else result) ↔ c ∨ safe := by
  split
  next hc => exact iff_of_true atomic_of_unchanged (.inl hc)
  next hc => rw [h hc, or_iff_right hc]

theorem not_atomic (hne : status ≠ .ok) (h : ¬SameShape k t s) :
    ¬Atomic k s (status, t) := fun hatomic => h (hatomic hne)

theorem Represents.sameShape_iff (ht : Represents k t m) (hs : Represents k s l) :
    SameShape k t s ↔ m = l := by
  constructor
  · intro h
    have hlen : m.length = l.length := by
      have hdims := h.dims
      rw [ht.dims, hs.dims] at hdims
      exact_mod_cast hdims
    apply ext_getElem hlen
    intro d hm hl
    have hd := h.dimSize d (by rw [ht.dims]; exact_mod_cast hm)
    rw [ht.dimSize (getElem?_eq_getElem hm), hs.dimSize (getElem?_eq_getElem hl)] at hd
    exact hd
  · intro heq
    subst heq
    constructor
    · rw [ht.dims, hs.dims]
    · intro d hd
      rw [ht.dims] at hd
      have hm : d < m.length := by exact_mod_cast hd
      rw [ht.dimSize (getElem?_eq_getElem hm), hs.dimSize (getElem?_eq_getElem hm)]
    · rw [ht.numElements, hs.numElements]

/-- The loop of `AddDimWithStatus` ends with all sizes, or before one that cannot be added. -/
theorem Represents.addDimsWithStatus_cases (h : Represents k s l) (hvs : ∀ v ∈ vs, Legal k v) :
    (Buildable k (l ++ vs) ∧
      ∃ t, addDimsWithStatus k s vs = (.ok, t) ∧ Represents k t (l ++ vs)) ∨
    (¬Buildable k (l ++ vs) ∧ ∃ built v rest t status, vs = built ++ v :: rest ∧
      Represents k t (l ++ built) ∧ ¬Buildable k (l ++ built ++ [v]) ∧ status ≠ .ok ∧
      addDimsWithStatus k s vs = (status, t)) := by
  rcases TensorShape.addDimsWithStatus_cases vs with
    ⟨t, hadd, heq⟩ | ⟨hadd, built, v, rest, t, status, hsplit, hbuilt, hv, hne, heq⟩
  · have ht := h.addDims hvs hadd
    exact .inl ⟨ht.buildable, t, heq, ht⟩
  · right
    have hlegal : ∀ u ∈ built, Legal k u := by
      intro u hu
      apply hvs
      rw [hsplit]
      exact mem_append_left _ hu
    have ht := h.addDims hlegal hbuilt
    constructor
    · rw [← addDims_eq_some_iff h.toCounts h.buildable, hadd]
      nofun
    · refine ⟨built, v, rest, t, status, hsplit, ht, ?_, hne, heq⟩
      intro hb
      rw [addDim_of_buildable ht.toCounts hb] at hv
      cases hv

/-- If the list to build is not longer than the old one, a failure is seen in the rank. -/
theorem Represents.rebuild_failed (h : Represents k s l) (hvs : ∀ v ∈ vs, Legal k v)
    (hlen : vs.length ≤ l.length) (hb : ¬Buildable k vs) :
    ∃ status t, status ≠ .ok ∧ addDimsWithStatus k TensorShape.clear vs = (status, t) ∧
      ¬SameShape k t s := by
  rcases Represents.clear.addDimsWithStatus_cases hvs with
    ⟨hok, _⟩ | ⟨_, built, v, rest, t, status, hsplit, ht, _, hne, heq⟩
  · exact absurd hok hb
  · refine ⟨status, t, hne, heq, ?_⟩
    rw [ht.sameShape_iff h]
    intro hbl
    rw [nil_append] at hbl
    rw [hsplit, hbl, length_append, length_cons] at hlen
    omega

/-! ## Adding -/

theorem addDimWithStatus_atomic : Atomic k s (addDimWithStatus k s size) := by
  cases hadd : addDim k s size with
  | none =>
    obtain ⟨status, _, heq⟩ := addDimWithStatus_of_none hadd
    rw [heq]
    exact atomic_of_unchanged
  | some =>
    rw [addDimWithStatus_of_some hadd]
    exact atomic_of_ok

theorem addDimsWithStatus_of_unknownRank (h : unknownRank k s = true) :
    addDimsWithStatus k s vs = (.ok, s) := by
  have hk : k = true := by
    rw [unknownRank, Bool.and_eq_true] at h
    exact h.1
  induction vs with
  | nil => rfl
  | cons v vs ih =>
    rw [addDimsWithStatus, addDimWithStatus, if_neg (by simp [hk]), if_pos h]
    exact ih

/-- Also the endless sizes of a shape of unknown rank are legal. -/
theorem Valid.legal (h : Valid k s) : ∀ v ∈ dimSizes k s, Legal k v := by
  rcases h with ⟨hk, hrank, _⟩ | ⟨l, h⟩
  · intro v hv
    obtain ⟨d, _, rfl⟩ := mem_map.mp hv
    rw [dimSize, unknownRank, hrank, hk]
    show Legal true (-1)
    decide
  · rw [h.dimSizes]
    exact h.legal

theorem Represents.append_atomic_iff (h : Represents k s l) (hvs : ∀ v ∈ vs, Legal k v) :
    Atomic k s (addDimsWithStatus k s vs) ↔
      Buildable k (l ++ vs) ∨ ¬Buildable k (l ++ vs.take 1) := by
  rcases h.addDimsWithStatus_cases hvs with
    ⟨hb, t, heq, _⟩ | ⟨hnot, built, v, rest, t, status, hsplit, ht, hv, hne, heq⟩
  · rw [heq]
    exact iff_of_true atomic_of_ok (.inl hb)
  · rw [heq]
    cases built with
    | nil =>
      apply iff_of_true
      · intro _
        rw [ht.sameShape_iff h, append_nil]
      · right
        rw [hsplit]
        rwa [append_nil] at hv
    | cons u built =>
      apply iff_of_false
      · apply not_atomic hne
        rw [ht.sameShape_iff h]
        intro hc
        have hlen := congrArg length hc
        rw [length_append, length_cons] at hlen
        omega
      · intro hor
        rcases hor with hb | hb
        · exact hnot hb
        · apply hb
          rw [hsplit]
          apply ht.buildable.of_le
          exact ⟨built, by simp⟩

/-! ## Inserting -/

theorem forall_eq_of_cons_eq_concat {y : Int} (h : x :: l = l ++ [y]) : ∀ v ∈ l, v = x := by
  induction l with
  | nil => exact nofun
  | cons u l ih =>
    obtain ⟨rfl, htail⟩ := cons.inj h
    intro v hv
    rcases mem_cons.mp hv with hv | hv
    · exact hv
    · exact ih htail v hv

theorem cons_eq_concat_of_forall (h : ∀ v ∈ l, v = x) : x :: l = l ++ [x] := by
  induction l with
  | nil => rfl
  | cons u l ih =>
    rw [h u mem_cons_self, cons_append, ← ih fun v hv => h v (mem_cons_of_mem u hv)]

theorem insertIdx_eq_take_cons_drop (hd : d ≤ l.length) :
    l.insertIdx d x = l.take d ++ x :: l.drop d := by
  induction d generalizing l with
  | zero => rfl
  | succ d ih =>
    cases l with
    | nil => cases hd
    | cons =>
      rw [insertIdx_succ_cons, take_succ_cons, drop_succ_cons, cons_append,
        ih (Nat.le_of_succ_le_succ hd)]

section Insert

variable {d : Nat} {size : Int}

theorem Buildable.insertIdx_neg (h : Buildable true l) (hd : d ≤ l.length)
    (hlen : l.length < maxDimensions) (hneg : size < 0) :
    Buildable true (l.insertIdx d size) where
  length_le := by
    rw [length_insertIdx_of_le_length hd]
    exact hlen
  nonneg := fun hk => absurd hk (by decide)
  fits := by
    rw [insertIdx_eq_take_cons_drop hd]
    exact (h.fits.of_le (List.take_prefix d l)).append_neg hneg _

/-- Without its last size, the new list is the old one exactly if all sizes from `d` on are equal
to the new one. -/
theorem eq_of_insertIdx_eq {built rest : List Int} {v : Int} (hd : d ≤ l.length)
    (hsplit : l.insertIdx d size = built ++ v :: rest) (hl : Buildable k l)
    (hv : ¬Buildable k (built ++ [v])) : built = l ↔ ∀ u ∈ l.drop d, u = size := by
  rw [insertIdx_eq_take_cons_drop hd] at hsplit
  constructor
  · intro hbuilt
    have hlen := congrArg length hsplit
    rw [hbuilt, length_append, length_append, length_cons, length_cons,
      length_take, length_drop] at hlen
    have hrest : rest = [] := eq_nil_of_length_eq_zero (by omega)
    have hcancel : l.take d ++ size :: l.drop d = l.take d ++ (l.drop d ++ [v]) := by
      rw [hsplit, hbuilt, hrest, ← append_assoc, take_append_drop]
    exact forall_eq_of_cons_eq_concat (append_cancel_left hcancel)
  · intro hall
    rw [cons_eq_concat_of_forall hall, ← append_assoc, take_append_drop,
      append_cons built] at hsplit
    have hpre : built ++ [v] <+: l ++ [size] := ⟨rest, hsplit.symm⟩
    rcases prefix_concat_iff.mp hpre with heq | hpre
    · exact (append_inj' heq rfl).1
    · exact absurd (hl.of_le hpre) hv

theorem Represents.insert_atomic_iff (h : Represents k s l) (hd : d ≤ l.length)
    (hlen : l.length < maxDimensions) (hsize : k = false → 0 ≤ size) :
    Atomic k s (addDimsWithStatus k TensorShape.clear (l.insertIdx d size)) ↔
      Buildable k (l.insertIdx d size) ∨ ∀ u ∈ l.drop d, u = size := by
  by_cases hb : Buildable k (l.insertIdx d size)
  · have hadd : ∃ t, TensorShape.addDims k TensorShape.clear (l.insertIdx d size) = some t :=
      (addDims_eq_some_iff .clear .nil).mpr hb
    obtain ⟨t, hadd⟩ := hadd
    rw [← checkOk_addDimsWithStatus, checkOk_eq_some_iff] at hadd
    rw [hadd]
    exact iff_of_true atomic_of_ok (.inl hb)
  · have hnonneg : 0 ≤ size := by
      by_contra hneg
      cases hk : k with
      | false => exact hneg (hsize hk)
      | true =>
        subst hk
        exact hb (h.buildable.insertIdx_neg hd hlen (Int.not_le.mp hneg))
    have hvs := legal_of_mem_insertIdx (d := d) h.legal (.of_nonneg hnonneg)
    rcases Represents.clear.addDimsWithStatus_cases hvs with
      ⟨hok, _⟩ | ⟨_, built, v, rest, t, status, hsplit, ht, hv, hne, heq⟩
    · exact absurd hok hb
    · rw [nil_append] at ht hv
      have hiff := eq_of_insertIdx_eq hd hsplit h.buildable hv
      rw [heq]
      constructor
      · intro hatomic
        exact .inr (hiff.mp ((ht.sameShape_iff h).mp (hatomic hne)))
      · intro hor _
        rw [ht.sameShape_iff h]
        exact hiff.mpr (hor.resolve_left hb)

end Insert

theorem insertDimWithStatus_atomic_iff {d : Int} (hs : Valid k s) :
    Atomic k s (insertDimWithStatus k s d size) ↔ InsertSafe k s d size := by
  rw [InsertSafe, or_left_comm (a := dims k s < d), or_left_comm, ← Bool.not_eq_true]
  refine atomic_check_iff fun hsize => atomic_check_iff fun hd => atomic_check_iff fun hle =>
    atomic_check_iff fun hmax => ?_
  obtain ⟨l, h⟩ : ∃ l, Represents k s l := by
    refine hs.cases.resolve_left fun hno => ?_
    rw [dims_eq_neg_one_iff.mpr hno.1] at hle
    omega
  rw [h.dims] at hle hmax
  have hnonneg : k = false → 0 ≤ size := by
    intro hk
    by_contra hneg
    exact hsize ⟨by rw [hk]; decide, Int.not_le.mp hneg⟩
  rw [h.dimSizes]
  exact h.insert_atomic_iff (by omega) (by omega) hnonneg

/-! ## Setting and removing -/

theorem Represents.set_in_place_iff {rep : Rep} (h : Represents k s l)
    (hd : d < l.length) (hsize : 0 ≤ size) (hrep : s.rep.setDim k d size = some rep) :
    Atomic k s (recomputeNumElements k { s with rep }) ↔ Buildable k (l.set d size) := by
  have hv : Legal k size := .of_nonneg hsize
  have hlen : s.ndimsByte = (l.set d size).length := by
    rw [length_set]
    exact h.ndims
  have hmax : (l.set d size).length ≤ maxDimensions := by
    rw [length_set]
    exact h.buildable.length_le
  have hlegal := legal_of_mem_set (d := d) h.legal hv
  have hstores := h.stores.setDim hd hv hrep
  rcases recomputeNumElements_eq (s := { s with rep }) hlen hmax hlegal hstores with
    ⟨hfit, heq⟩ | ⟨hfit, message, heq⟩
  · rw [heq]
    exact iff_of_true atomic_of_ok (.of_legal hmax hlegal hfit)
  · rw [heq]
    apply iff_of_false
    · apply not_atomic (by nofun)
      intro hsame
      apply hfit
      -- Equal sizes would mean that nothing was written.
      have hread := hsame.dimSize d (by
        rw [Counts.dims (s := { s with rep }) ⟨h.ndims, h.numElements⟩
          h.buildable.length_le]
        exact_mod_cast hd)
      rw [dimSize_of_stores (s := { s with rep }) h.unknownRank hstores
        (getElem?_set_self hd), h.dimSize (getElem?_eq_getElem hd)] at hread
      rw [hread, set_getElem_self]
      exact h.buildable.fits
    · exact fun hb => hfit hb.fits

theorem Represents.rebuild_atomic_iff (h : Represents k s l) (hvs : ∀ v ∈ vs, Legal k v)
    (hlen : vs.length ≤ l.length) :
    Atomic k s (match addDimsWithStatus k TensorShape.clear vs with
      | (.ok, t) => recomputeNumElements k t
      | failed => failed) ↔ Buildable k vs := by
  by_cases hb : Buildable k vs
  · obtain ⟨-, t, heq, ht⟩ := (Represents.clear.addDimsWithStatus_cases hvs).resolve_right
      fun h => h.1 hb
    rw [heq]
    dsimp only
    rw [ht.recompute_ok]
    exact iff_of_true atomic_of_ok hb
  · obtain ⟨status, t, hne, heq, hsame⟩ := h.rebuild_failed hvs hlen hb
    rw [heq]
    refine iff_of_false ?_ hb
    cases status with
    | ok => exact absurd rfl hne
    | internal message | invalidArgument message => exact not_atomic hne hsame

theorem setDimWithStatus_atomic_iff {d : Int} (hs : Valid k s) :
    Atomic k s (setDimWithStatus k s d size) ↔ SetSafe k s d size := by
  refine atomic_check_iff fun hd => atomic_check_iff fun hlt => atomic_check_iff fun hsize => ?_
  obtain ⟨l, h⟩ : ∃ l, Represents k s l := by
    refine hs.cases.resolve_left fun hno => ?_
    rw [dims_eq_neg_one_iff.mpr hno.1] at hlt
    omega
  rw [h.dims] at hlt
  rw [h.dimSizes]
  split
  next rep hrep => exact h.set_in_place_iff (by omega) (Int.not_lt.mp hsize) hrep
  next hrep =>
    apply h.rebuild_atomic_iff
    · exact legal_of_mem_set h.legal (.of_nonneg (Int.not_lt.mp hsize))
    · rw [length_set]

theorem removeDimRangeWithStatus_atomic_iff {first last : Int} (hs : Valid k s) :
    Atomic k s (removeDimRangeWithStatus k s first last) ↔
      RemoveSafe k s (fromEnd (dims k s) first) (fromEnd (dims k s) last) := by
  refine atomic_check_iff fun hrank => ?_
  obtain ⟨l, h⟩ := hs.cases.resolve_left fun hno => hrank hno.1
  rw [h.dimSizes]
  refine atomic_check_iff fun hfirst => atomic_check_iff fun _ => atomic_check_iff fun _ =>
    atomic_check_iff fun _ => atomic_check_iff fun hlt => ?_
  apply h.rebuild_atomic_iff
  · exact fun v hv => h.legal v (mem_of_mem_eraseRange hv)
  · rw [eraseRange, length_append, length_take, length_drop]
    omega

/-! ## All mutators -/

/-- A mutator is failure atomic exactly under the conditions of `AtomicWhen`. -/
theorem failureAtomic_iff (k : Bool) (s : Shape k) (m : Mutation k) :
    m.FailureAtomic s ↔ m.AtomicWhen s.toTensorShapeRep := by
  cases m with
  | addDim =>
    exact iff_of_true addDimWithStatus_atomic trivial
  | appendShape other =>
    show _ ↔ AppendSafe k s.toTensorShapeRep _
    unfold AppendSafe
    rcases s.valid.cases with ⟨hrank, _⟩ | ⟨l, h⟩
    · apply iff_of_true
      · rw [Mutation.FailureAtomic, Mutation.apply, appendShapeWithStatus,
          addDimsWithStatus_of_unknownRank hrank]
        exact atomic_of_ok
      · exact .inl hrank
    · rw [h.dimSizes, h.unknownRank]
      exact (h.append_atomic_iff other.valid.legal).trans (by simp)
  | insertDim => exact insertDimWithStatus_atomic_iff s.valid
  | setDim => exact setDimWithStatus_atomic_iff s.valid
  | removeDimRange => exact removeDimRangeWithStatus_atomic_iff s.valid

/-- The shape `[1,2^62]`, which is out of line. -/
def longRow : Shape false where
  rep := .outOfLine [1, 2 ^ 62]
  ndimsByte := 2
  numElements := 2 ^ 62
  valid := valid_of_addDims [1, 2 ^ 62] (by decide) (by decide +kernel)

/-- `SetDimWithStatus(0, 2)` sees that `2^63` elements are too many when the size is `2` already. -/
theorem not_failureAtomic_longRow : ¬(Mutation.setDim 0 2).FailureAtomic longRow := by
  intro hatomic
  have hsize := (hatomic (by decide +kernel)).dimSize 0 (by decide +kernel)
  revert hsize
  decide +kernel

end TfReading.TensorShape
