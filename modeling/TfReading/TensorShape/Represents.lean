import TfReading.TensorShape.Sizes

/-!
# The list of sizes that a shape represents

Each operation keeps, widens or rebuilds one of three encodings.  Whichever it is, the sizes read
back are those of the list, and so is the number of elements.
-/

namespace TfReading.TensorShape

open Util

variable {k : Bool} {l vs : List Int} {v : Int} {d w n : Nat}

/-- A size that may be stored: `-1` stands for an unknown one. -/
def Legal (kIsPartial : Bool) (size : Int) : Prop := (if kIsPartial then -1 else 0) ≤ size

instance : DecidablePred (Legal k) := fun _ => inferInstanceAs (Decidable (_ ≤ _))

theorem Legal.of_nonneg (hv : 0 ≤ v) : Legal k v := by
  rw [Legal]
  split
  · omega
  · exact hv

theorem Legal.nonneg (hv : Legal k v) (h : ¬(k ∧ v < 0)) : 0 ≤ v := by
  rw [Legal] at hv
  split at hv
  next hk =>
    by_contra hneg
    exact h ⟨hk, Int.not_le.mp hneg⟩
  · exact hv

theorem Buildable.of_legal (hlen : l.length ≤ maxDimensions) (hl : ∀ v ∈ l, Legal k v)
    (hfit : FitsInt64 l) : Buildable k l where
  length_le := hlen
  nonneg := by
    intro hk v hv
    exact (hl v hv).nonneg fun hc => absurd hc.1 (by rw [hk]; decide)
  fits := hfit

/-- Below the largest two words, which are not used for sizes, a size is read back as it was. -/
theorem decode_encode (hv : Legal k v) (hlt : v < kMaxRep w) :
    decode k (encode k w v) = v := by
  rw [encode]
  split
  next h =>
    rw [decode, if_pos ⟨h.1, rfl⟩]
    rw [Legal, if_pos h.1] at hv
    omega
  next h =>
    have hnonneg : 0 ≤ v := hv.nonneg h
    have hmod : v % ((2 ^ w : Nat) : Int) = v := by
      apply Int.emod_eq_of_lt hnonneg
      rw [kMaxRep] at hlt
      push_cast
      omega
    have hnat : ((BitVec.ofInt w v).toNat : Int) = v := by
      rw [BitVec.toNat_ofInt, hmod, Int.toNat_of_nonneg hnonneg]
    rw [decode, if_neg, hnat]
    intro hc
    have hones : (BitVec.ofInt w v).toNat = 2 ^ w - 1 := by
      rw [hc.2, kUnknownRep, BitVec.toNat_allOnes]
    rw [kMaxRep] at hlt
    have hcast : ((2 ^ w : Nat) : Int) = 2 ^ w := by push_cast; rfl
    omega

/-! ## The three encodings -/

structure Packs (kIsPartial : Bool) (words : Vector (BitVec w) n) (l : List Int) : Prop where
  length_le : l.length ≤ n
  decodes : ∀ (d : Nat) (v : Int), l[d]? = some v → decode kIsPartial (words[d]?.getD 0) = v

def Rep.Stores (kIsPartial : Bool) (rep : Rep) (l : List Int) : Prop :=
  match rep with
  | .rep16 words => Packs kIsPartial words l
  | .rep32 words => Packs kIsPartial words l
  | .outOfLine sizes => sizes = l

variable {words : Vector (BitVec w) n} {rep rep' : Rep}

theorem Packs.nil : Packs k words [] where
  length_le := Nat.zero_le n
  decodes := nofun

theorem Packs.concat (h : Packs k words l) (hlen : l.length < n)
    (hv : Legal k v) (hlt : v < kMaxRep w) :
    Packs k (words.setIfInBounds l.length (encode k w v)) (l ++ [v]) where
  length_le := by
    rw [List.length_append, List.length_singleton]
    exact hlen
  decodes := by
    intro d u hu
    by_cases hd : l.length = d
    · subst hd
      rw [List.getElem?_concat_length] at hu
      cases hu
      rw [Vector.getElem?_setIfInBounds_self_of_lt hlen]
      exact decode_encode hv hlt
    · rw [Vector.getElem?_setIfInBounds_ne hd]
      have hdl : d < l.length := by
        have hlt := (List.getElem?_eq_some_iff.mp hu).1
        rw [List.length_append, List.length_singleton] at hlt
        omega
      rw [List.getElem?_append_left hdl] at hu
      exact h.decodes d u hu

theorem Packs.set (h : Packs k words l) (hd : d < l.length)
    (hv : Legal k v) (hlt : v < kMaxRep w) :
    Packs k (words.setIfInBounds d (encode k w v)) (l.set d v) where
  length_le := by
    rw [List.length_set]
    exact h.length_le
  decodes := by
    intro i u hu
    by_cases hi : d = i
    · subst hi
      rw [List.getElem?_set_self hd] at hu
      cases hu
      rw [Vector.getElem?_setIfInBounds_self_of_lt (lt_of_lt_of_le hd h.length_le)]
      exact decode_encode hv hlt
    · rw [List.getElem?_set_ne hi] at hu
      rw [Vector.getElem?_setIfInBounds_ne hi]
      exact h.decodes i u hu

theorem Packs.ofFn (hlen : l.length ≤ n) (hl : ∀ v ∈ l, Legal k v)
    (hlt : ∀ v ∈ l, v < kMaxRep w) :
    Packs k (Vector.ofFn fun d : Fin n => encode k w (l.getD d 0)) l where
  length_le := hlen
  decodes := by
    intro d v hv
    obtain ⟨hd, hget⟩ := List.getElem?_eq_some_iff.mp hv
    have hmem : v ∈ l := List.mem_of_getElem? hv
    have hdn : d < n := lt_of_lt_of_le hd hlen
    rw [Vector.getElem?_eq_getElem hdn, Vector.getElem_ofFn, Option.getD_some,
      List.getD_eq_getElem?_getD, hv]
    exact decode_encode (hl v hmem) (hlt v hmem)

theorem Rep.Stores.dimSize (h : rep.Stores k l) (hd : l[d]? = some v) :
    rep.dimSize k d = v := by
  cases rep with
  | rep16 words | rep32 words => exact h.decodes d v hd
  | outOfLine sizes =>
    have hsizes : sizes = l := h
    rw [Rep.dimSize, hsizes, hd]
    rfl

theorem Rep.Stores.ofSizes (hl : ∀ v ∈ l, Legal k v) :
    (Rep.ofSizes k l).Stores k l := by
  rw [Rep.ofSizes]
  split
  next h => exact .ofFn h.1 hl h.2
  · rfl

theorem Rep.Stores.setDim (h : rep.Stores k l) (hd : d < l.length)
    (hv : Legal k v) (hrep : rep.setDim k d v = some rep') :
    rep'.Stores k (l.set d v) := by
  cases rep with
  | rep16 words | rep32 words =>
    rw [Rep.setDim] at hrep
    split at hrep
    next hlt =>
      cases hrep
      exact .set h hd hv hlt
    · cases hrep
  | outOfLine =>
    cases hrep
    exact congrArg (List.set · d v) h

/-! ## Shapes -/

/-- The sizes and the number of elements of the shape are those of the list. -/
structure Represents (kIsPartial : Bool) (s : TensorShapeRep) (l : List Int) : Prop extends
    Counts s l where
  buildable : Buildable kIsPartial l
  legal : ∀ v ∈ l, Legal kIsPartial v
  stores : s.rep.Stores kIsPartial l

open List

variable {s s' : TensorShapeRep}

theorem Represents.unknownRank (h : Represents k s l) :
    unknownRank k s = false :=
  h.toCounts.unknownRank h.buildable.length_le

theorem Represents.dims (h : Represents k s l) : dims k s = l.length :=
  h.toCounts.dims h.buildable.length_le

theorem dimSize_of_stores (hrank : unknownRank k s = false)
    (h : s.rep.Stores k l) (hd : l[d]? = some v) : dimSize k s d = v := by
  rw [dimSize, hrank]
  exact h.dimSize hd

theorem dimSizes_of_stores (hrank : unknownRank k s = false)
    (hlen : s.ndimsByte = l.length) (h : s.rep.Stores k l) :
    dimSizes k s = l := by
  rw [dimSizes, hrank, if_neg (by decide), hlen]
  apply ext_getElem
  · rw [length_map, length_range]
  · intro d h1 h2
    rw [getElem_map, getElem_range]
    exact dimSize_of_stores hrank h (getElem?_eq_getElem h2)

theorem Represents.dimSize (h : Represents k s l) (hd : l[d]? = some v) :
    dimSize k s d = v :=
  dimSize_of_stores h.unknownRank h.stores hd

theorem Represents.dimSizes (h : Represents k s l) : dimSizes k s = l :=
  dimSizes_of_stores h.unknownRank h.ndims h.stores

theorem Represents.clear : Represents k clear [] where
  toCounts := .clear
  buildable := .nil
  legal := nofun
  stores := .nil

/-- Whether it writes in place, widens the words or moves out of line, `UnsafeAddDim` appends. -/
theorem Represents.unsafeAddDim_stores (h : Represents k s l)
    (hv : Legal k v) (m : Int) :
    (unsafeAddDim k s v m).rep.Stores k (l ++ [v]) := by
  have hstores := h.stores
  unfold unsafeAddDim
  cases hrep : s.rep with
  | rep16 words | rep32 words =>
    rw [hrep] at hstores
    dsimp only
    split
    next hfit =>
      rw [h.ndims] at hfit ⊢
      exact .concat hstores hfit.1 hv hfit.2
    · rw [h.dimSizes]
      exact .ofSizes (forall_mem_append.mpr ⟨h.legal, forall_mem_singleton.mpr hv⟩)
  | outOfLine =>
    rw [hrep] at hstores
    exact congrArg (· ++ [v]) hstores

theorem Represents.addDim (h : Represents k s l) (hv : Legal k v)
    (hadd : addDim k s v = some s') : Represents k s' (l ++ [v]) := by
  by_cases hb : Buildable k (l ++ [v])
  · rw [addDim_of_buildable h.toCounts hb] at hadd
    cases hadd
    constructor
    · exact h.toCounts.unsafeAddDim
    · exact hb
    · exact forall_mem_append.mpr ⟨h.legal, forall_mem_singleton.mpr hv⟩
    · exact h.unsafeAddDim_stores hv _
  · rw [addDim_of_not_buildable h.toCounts h.buildable hb] at hadd
    cases hadd

theorem Represents.addDims (h : Represents k s l) (hvs : ∀ v ∈ vs, Legal k v)
    (hadd : addDims k s vs = some s') : Represents k s' (l ++ vs) := by
  induction vs generalizing s l with
  | nil =>
    cases hadd
    rw [append_nil]
    exact h
  | cons v vs ih =>
    rw [TensorShape.addDims, foldlM_cons] at hadd
    obtain ⟨t, ht, hadd⟩ := Option.bind_eq_some_iff.mp hadd
    obtain ⟨hv, hvs⟩ := forall_mem_cons.mp hvs
    rw [append_cons]
    exact ih (h.addDim hv ht) hvs hadd

/-- From a cleared shape, the loop of `AddDim` builds exactly the sizes it is given. -/
theorem Represents.rebuild (hvs : ∀ v ∈ vs, Legal k v)
    (hadd : TensorShape.addDims k TensorShape.clear vs = some s') :
    Represents k s' vs :=
  Represents.clear.addDims hvs hadd

/-! ## Counting again -/

section Recompute

variable (hlen : s.ndimsByte = l.length) (hmax : l.length ≤ maxDimensions)
  (hl : ∀ v ∈ l, Legal k v) (h : s.rep.Stores k l)
include hlen hmax hl h

theorem recomputeNumElements_eq :
    (FitsInt64 l ∧
      recomputeNumElements k s = (.ok, { s with numElements := numElementsOf l })) ∨
    (¬FitsInt64 l ∧
      ∃ message, recomputeNumElements k s = (.invalidArgument message, s)) := by
  have hrank : unknownRank k s = false := unknownRank_of_le (hlen ▸ hmax)
  have hnonneg : k = false → ∀ v ∈ l, 0 ≤ v := by
    intro hk v hv
    exact (hl v hv).nonneg fun hc => absurd hc.1 (by rw [hk]; decide)
  have hloop := recomputeLoop_eq (l := []) nofun
    .nil l hnonneg
  rw [prod_nil, nil_append] at hloop
  rw [recomputeNumElements, hrank, if_neg (by decide), dimSizes_of_stores hrank hlen h]
  rcases hloop with ⟨hfit, hloop⟩ | ⟨hfit, hloop⟩
  · left
    rw [hloop]
    exact ⟨hfit, rfl⟩
  · right
    rw [hloop]
    exact ⟨hfit, _, rfl⟩

/-- If the numbers fit, the shape then represents the sizes. -/
theorem represents_of_recompute (hcheck : checkOk (recomputeNumElements k s) = some s') :
    Represents k s' l := by
  rcases recomputeNumElements_eq hlen hmax hl h with ⟨hfit, heq⟩ | ⟨hfit, message, heq⟩
  · rw [heq] at hcheck
    cases hcheck
    constructor
    · exact ⟨hlen, rfl⟩
    · exact .of_legal hmax hl hfit
    · exact hl
    · exact h
  · rw [heq] at hcheck
    cases hcheck

end Recompute

theorem Represents.recompute_ok (h : Represents k s l) :
    recomputeNumElements k s = (.ok, s) := by
  rcases recomputeNumElements_eq h.ndims h.buildable.length_le h.legal h.stores with
    ⟨_, heq⟩ | ⟨hfit, _⟩
  · rw [heq, ← h.numElements]
  · exact absurd h.buildable.fits hfit

theorem Represents.recompute (h : Represents k s l)
    (hcheck : checkOk (recomputeNumElements k s) = some s') :
    Represents k s' l := by
  rw [h.recompute_ok] at hcheck
  cases hcheck
  exact h

/-! ## The other operations -/

theorem legal_of_mem_insertIdx (hl : ∀ v ∈ l, Legal k v) (hv : Legal k v) :
    ∀ u ∈ l.insertIdx d v, Legal k u := by
  intro u hu
  rcases eq_or_mem_of_mem_insertIdx hu with hu | hu
  · rw [hu]
    exact hv
  · exact hl u hu

theorem legal_of_mem_set (hl : ∀ v ∈ l, Legal k v) (hv : Legal k v) :
    ∀ u ∈ l.set d v, Legal k u := by
  intro u hu
  rcases mem_or_eq_of_mem_set hu with hu | hu
  · exact hl u hu
  · rw [hu]
    exact hv

theorem mem_of_mem_eraseRange {first last u : Int} (hu : u ∈ eraseRange l first last) :
    u ∈ l := by
  rcases mem_append.mp hu with hu | hu
  · exact mem_of_mem_take hu
  · exact mem_of_mem_drop hu

theorem Represents.insertDim {d : Int} (h : Represents k s l)
    (hv : Legal k v) (hins : insertDim k s d v = some s') :
    Represents k s' (l.insertIdx d.toNat v) := by
  unfold TensorShape.insertDim at hins
  rw [h.dimSizes] at hins
  simp only [Option.ite_none_left_eq_some] at hins
  obtain ⟨_, _, _, _, hins⟩ := hins
  exact .rebuild (legal_of_mem_insertIdx h.legal hv) hins

theorem Represents.setDim {d : Int} (h : Represents k s l)
    (hset : setDim k s d v = some s') :
    Represents k s' (l.set d.toNat v) := by
  unfold TensorShape.setDim at hset
  rw [h.dimSizes, h.dims] at hset
  simp only [Option.ite_none_left_eq_some] at hset
  obtain ⟨hd, hlt, hsize, hset⟩ := hset
  have hv : Legal k v := .of_nonneg (Int.not_lt.mp hsize)
  split at hset
  next rep hrep =>
    apply represents_of_recompute _ _ _ _ hset
    · rw [length_set]
      exact h.ndims
    · rw [length_set]
      exact h.buildable.length_le
    · exact legal_of_mem_set h.legal hv
    · exact h.stores.setDim (by omega) hv hrep
  next hrep =>
    obtain ⟨t, hadd, hset⟩ := Option.bind_eq_some_iff.mp hset
    exact (Represents.rebuild (legal_of_mem_set h.legal hv) hadd).recompute hset

def removeRange (l : List Int) (first last : Int) : List Int :=
  if fromEnd l.length last ≤ fromEnd l.length first then l
  else eraseRange l (fromEnd l.length first) (fromEnd l.length last)

theorem Represents.removeDimRange {first last : Int} (h : Represents k s l)
    (hrem : removeDimRange k s first last = some s') :
    Represents k s' (removeRange l first last) := by
  unfold TensorShape.removeDimRange at hrem
  rw [h.unknownRank, if_neg (by decide), h.dims, h.dimSizes] at hrem
  simp only [Option.ite_none_left_eq_some] at hrem
  obtain ⟨_, _, _, _, hrem⟩ := hrem
  unfold removeRange
  split at hrem
  next hle =>
    cases hrem
    rw [if_pos hle]
    exact h
  next hlt =>
    obtain ⟨t, hadd, hrem⟩ := Option.bind_eq_some_iff.mp hrem
    rw [if_neg hlt]
    refine Represents.recompute (.rebuild (fun v hv => ?_) hadd) hrem
    exact h.legal v (mem_of_mem_eraseRange hv)

/-! ## `TensorShape` and `PartialTensorShape` -/

def Valid (kIsPartial : Bool) (s : TensorShapeRep) : Prop :=
  (kIsPartial = true ∧ s.ndimsByte = kUnknownRank ∧ s.numElements = -1) ∨
    ∃ l, Represents kIsPartial s l

structure Shape (kIsPartial : Bool) extends TensorShapeRep where
  valid : Valid kIsPartial toTensorShapeRep

theorem Valid.cases (h : Valid k s) :
    (unknownRank k s = true ∧ s.numElements = -1) ∨ ∃ l, Represents k s l := by
  rcases h with ⟨hk, hrank, hnum⟩ | h
  · left
    rw [unknownRank, hk, hrank]
    exact ⟨rfl, hnum⟩
  · exact .inr h

theorem valid_of_addDims (vs : List Int) (hvs : ∀ v ∈ vs, Legal k v)
    (h : addDims k clear vs = some s) : Valid k s :=
  .inr ⟨vs, .rebuild hvs h⟩

theorem dims_eq_neg_one_iff : dims k s = -1 ↔ unknownRank k s = true := by
  unfold dims
  split
  next h => exact iff_of_true rfl h
  next h =>
    apply iff_of_false
    · omega
    · exact h

/-- Shapes that no caller can tell apart. -/
structure SameShape (kIsPartial : Bool) (s t : TensorShapeRep) : Prop where
  dims : dims kIsPartial s = dims kIsPartial t
  dimSize : ∀ d : Nat, d < TensorShape.dims kIsPartial s →
    dimSize kIsPartial s d = dimSize kIsPartial t d
  numElements : s.numElements = t.numElements

theorem SameShape.refl (s : TensorShapeRep) : SameShape k s s :=
  ⟨rfl, fun _ _ => rfl, rfl⟩

theorem SameShape.iff_of_unknownRank {t : TensorShapeRep} (hs : Valid k s)
    (ht : Valid k t) (h : unknownRank k s = true) :
    SameShape k t s ↔ unknownRank k t = true := by
  have hnum : ∀ {u : TensorShapeRep}, Valid k u → unknownRank k u = true →
      u.numElements = -1 := by
    intro u hu hrank
    rcases hu.cases with hu | ⟨l, hl⟩
    · exact hu.2
    · rw [hl.unknownRank] at hrank
      cases hrank
  constructor
  · intro hsame
    rw [← dims_eq_neg_one_iff, hsame.dims]
    exact dims_eq_neg_one_iff.mpr h
  · intro hrank
    have hdims := dims_eq_neg_one_iff.mpr hrank
    constructor
    · rw [hdims, dims_eq_neg_one_iff.mpr h]
    · intro d hd
      omega
    · rw [hnum ht hrank, hnum hs h]

end TfReading.TensorShape
