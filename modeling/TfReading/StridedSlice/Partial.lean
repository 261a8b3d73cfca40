import TfReading.StridedSlice.Select

/-!
# Slices of partial shapes

A call on a partial shape, or without begin or end, is compared with the calls on its completions.
The shapes of the first call always over-approximate those of the others.  Its flags may not: they
leave out the dimensions that are unknown, and without begin and end `slice_dim0` does not look at
the stride of a dimension that is taken as a whole, nor `is_identity` at whether it is shrunk.
-/

namespace TfReading.StridedSlice

open List DenseSpec

variable {spec : Spec} {l m shape b e : List Int} {dims : List Nat} {r r' : Result}
    {d d' : DenseDim} {ds ds' : List DenseDim} {i dim rank : Nat} {f f' g g' : Flags}
    {p p' : ProcessedDim} {ps ps' : List ProcessedDim} {valid : Bool} {s : Int}

/-! ## Completions -/

/-- A known dimension is that of the completion. -/
def Compat (s c : Int) : Prop := s = -1 ∨ s = c

/-- A size that a dimension of a partial shape can have. -/
def Fills (s : Int) (c : Nat) : Prop := Compat s c ∧ c < 2 ^ 63

/-- The shape `dims` and the vectors `b` and `e` complete a partial shape and a specification. -/
structure Completes (spec : Spec) (shape : List Int) (b e : List Int) (dims : List Nat) : Prop where
  shape : Forall₂ Fills shape dims
  beginTensor : spec.beginTensor = none ∨ spec.beginTensor = some b
  endTensor : spec.endTensor = none ∨ spec.endTensor = some e

inductive Flag
  | isIdentity
  | sliceDim0
  | isSimpleSlice

def Flags.get (f : Flags) : Flag → Bool
  | .isIdentity => f.isIdentity
  | .sliceDim0 => f.sliceDim0
  | .isSimpleSlice => f.isSimpleSlice

structure OverApproximates (r r' : Result) : Prop where
  processing : Forall₂ Compat r.processingShape r'.processingShape
  final : Forall₂ Compat r.finalShape r'.finalShape
  flags : ∀ flag, r.flags.get flag = true → r'.flags.get flag = true

/-! ## The dense specifications -/

/-- An entry of the dense specification, before and after begin and end are filled in. -/
inductive SameEntry (spec : Spec) (b e : List Int) : DenseDim → DenseDim → Prop
  | all (d : DenseDim) (hshrink : d.shrink = false) (hbegin : d.beginMasked = true)
    (hend : d.endMasked = true) : SameEntry spec b e d d
  | entry (i : Nat) (hi : i < spec.stridesTensor.length) :
    SameEntry spec b e (entry spec i) (entry (spec.known b e) i)

structure SameDense (spec : Spec) (b e : List Int) (t t' : DenseSpec) : Prop where
  dims : Forall₂ (SameEntry spec b e) t.dims t'.dims
  gather : t.gather = t'.gather

namespace SameEntry

variable (h : SameEntry spec b e d d')

include h

theorem strideI : d.strideI = d'.strideI := by cases h <;> rfl

theorem beginMasked : d.beginMasked = d'.beginMasked := by cases h <;> rfl

theorem endMasked : d.endMasked = d'.endMasked := by cases h <;> rfl

theorem shrink : d.shrink = d'.shrink := by cases h <;> rfl

theorem eq_of_known (hspec : spec = spec.known b e) : d = d' := by
  cases h with
  | all => rfl
  | entry i => exact congrArg (DenseSpec.entry · i) hspec

theorem beginI (hb : spec.beginTensor = some b) : d.beginI = d'.beginI := by
  cases h with
  | all => rfl
  | entry => rw [DenseSpec.entry, hb]; rfl

theorem endI (he : spec.endTensor = some e) : d.endI = d'.endI := by
  cases h with
  | all => rfl
  | entry => rw [DenseSpec.entry, he]; rfl

end SameEntry

namespace SameDense

variable {t t' u : DenseSpec} {sparse : SparseSpec} {is : List Nat}

theorem expandEllipsis (h : SameDense spec b e t t') (i m : Nat) :
    SameDense spec b e (t.expandEllipsis i m) (t'.expandEllipsis i m) := by
  induction m generalizing t t' with
  | zero => exact h
  | succ m ih =>
    apply ih
    constructor
    · exact rel_append h.dims (.cons (.all _ rfl rfl rfl) .nil)
    · show t.gather ++ [(.dim t.dims.length, none)] = t'.gather ++ [(.dim t'.dims.length, none)]
      rw [h.gather, h.dims.length_eq]

theorem step (h : SameDense spec b e t t')
    (hi : sparse.ellipsisMask.getLsbD i = false → i < spec.stridesTensor.length)
    (hstep : t.step spec sparse rank i = .ok u) :
    ∃ u', t'.step (spec.known b e) sparse rank i = .ok u' ∧ SameDense spec b e u u' := by
  have hlen := h.dims.length_eq
  unfold DenseSpec.step at hstep ⊢
  rw [show (spec.known b e).newAxisMask = spec.newAxisMask from rfl]
  split at hstep
  next hell =>
    cases hstep
    rw [if_pos hell, hlen]
    exact ⟨_, rfl, h.expandEllipsis i _⟩
  next hell =>
    rw [if_neg hell]
    split at hstep
    next hnew =>
      cases hstep
      rw [if_pos hnew]
      refine ⟨_, rfl, h.dims, ?_⟩
      show t.gather ++ _ = t'.gather ++ _
      rw [h.gather]
    next hnew =>
      rw [if_neg hnew]
      split at hstep
      · cases hstep
      next hroom =>
        cases hstep
        rw [if_neg (hlen ▸ hroom)]
        have hentry := SameEntry.entry (b := b) (e := e) i (hi (Bool.eq_false_iff.mpr hell))
        refine ⟨_, rfl, rel_append h.dims (.cons hentry .nil), ?_⟩
        show t.gather ++ _ = t'.gather ++ _
        rw [h.gather, hlen]
        rfl

theorem loop (h : SameDense spec b e t t')
    (his : ∀ i ∈ is, sparse.ellipsisMask.getLsbD i = false → i < spec.stridesTensor.length)
    (hloop : loop spec sparse rank is t = .ok u) :
    ∃ u', loop (spec.known b e) sparse rank is t' = .ok u' ∧ SameDense spec b e u u' := by
  induction is generalizing t t' with
  | nil =>
    cases hloop
    exact ⟨t', rfl, h⟩
  | cons i is ih =>
    obtain ⟨hi, his⟩ := forall_mem_cons.mp his
    rw [loop] at hloop
    split at hloop
    · cases hloop
    next v hv =>
      obtain ⟨v', hv', hsame⟩ := h.step hi hv
      obtain ⟨u', hu', hsame⟩ := ih hsame his hloop
      refine ⟨u', ?_, hsame⟩
      rw [loop, hv']
      exact hu'

end SameDense

theorem countAxes_known (is : List Nat) (seen : Bool) (c : Nat) :
    countAxes (spec.known b e) is seen c = countAxes spec is seen c := by
  induction is generalizing seen c with
  | nil => rfl
  | cons i is ih => exact ih _ _

theorem sparseSpec_known : sparseSpec (spec.known b e) = sparseSpec spec := by
  rw [sparseSpec, sparseSpec, countAxes_known]
  rfl

/-- An entry that the ellipsis was added for is the ellipsis. -/
theorem lt_length_of_not_ellipsis (hn : spec.stridesTensor.length < 32)
    (hi : i < (sparseSpec spec).dims) (hno : (sparseSpec spec).ellipsisMask.getLsbD i = false) :
    i < spec.stridesTensor.length := by
  rw [sparseSpec] at hi hno
  dsimp only at hi hno
  split at hi
  · exact hi
  next hseen =>
    rw [if_neg hseen, BitVec.getLsbD_or, Bool.or_eq_false_iff, BitVec.getLsbD_twoPow] at hno
    have hi : i < spec.stridesTensor.length + 1 := hi
    by_contra hge
    have heq : spec.stridesTensor.length = i := by omega
    rw [decide_eq_true hn, decide_eq_true heq] at hno
    exact absurd hno.2 (by decide)

/-- The dense specifications differ in begin and end only. -/
theorem exists_sameDense {dense : DenseSpec} (hn : spec.stridesTensor.length < 32)
    (h : buildDenseSpec spec (sparseSpec spec) rank = .ok dense) (b e : List Int) :
    ∃ dense', buildDenseSpec (spec.known b e) (sparseSpec (spec.known b e)) rank = .ok dense' ∧
      SameDense spec b e dense dense' := by
  rw [sparseSpec_known]
  exact SameDense.loop ⟨.nil, rfl⟩
    (fun i hi => lt_length_of_not_ellipsis hn (mem_range.mp hi)) h

/-! ## Sizes -/

theorem canonical_masked (hs : d.strideI ≠ 0) (hb : d.beginMasked = true) (he : d.endMasked = true) :
    canonicalEnd dim d - canonicalBegin dim d = if d.strideI < 0 then -(dim : Int) else dim := by
  rw [canonicalEnd, canonicalBegin, hb, he]
  simp only [canonical, if_true]
  split_ifs <;> omega

/-- Without begin and end, the size is left open unless it does not depend on them. -/
theorem processMasked_compat (hsame : SameEntry spec b e d d')
    (h : processMasked i dim d f = (p, g)) (h' : Known i dim d' f' p' g') :
    Compat p.size p'.size := by
  cases h
  rw [hsame.shrink, hsame.strideI, hsame.beginMasked, hsame.endMasked]
  cases hshrink : d'.shrink with
  | true =>
    rw [if_pos rfl, sizeOf_one (h'.stride_pos hshrink)]
    exact .inr (h'.size_of_shrink hshrink).symm
  | false =>
    rw [if_neg Bool.false_ne_true]
    split
    next hm =>
      obtain ⟨hb, he⟩ := Bool.and_eq_true_iff.mp hm.1
      right
      rw [h'.dim_eq, knownBegin, knownEnd, hshrink, if_neg Bool.false_ne_true,
        if_neg Bool.false_ne_true, canonical_masked h'.stride_ne_zero hb he]
    next => exact .inl rfl

/-- A dimension of the partial call against the same dimension of the completed call. -/
theorem processDim_compat (hsame : SameEntry spec b e d d')
    (hspec : valid = true → spec = spec.known b e) (hc : Compat s dim) (h : processDim valid i s d f = .ok (p, g))
    (h' : Known i dim d' f' p' g') : Compat p.size p'.size := by
  unfold processDim at h
  split at h
  · cases h
  split at h
  · cases h
    show Compat (if d.shrink then 1 else -1) _
    cases hshrink : d.shrink with
    | true => exact .inr (h'.size_of_shrink (hsame.shrink ▸ hshrink)).symm
    | false => exact .inl rfl
  next hs =>
    have hdim : s = dim := hc.resolve_left hs
    rw [hdim] at h
    split at h
    · cases h
    cases valid with
    | true =>
      rw [if_pos rfl, processKnown] at h
      split at h
      · cases h
      · cases h
        rw [h'.dim_eq, hsame.eq_of_known (hspec rfl)]
        exact .inr rfl
    | false =>
      rw [if_neg Bool.false_ne_true] at h
      exact processMasked_compat hsame (Except.ok.inj h) h'

theorem processDims_compat (hsame : Forall₂ (SameEntry spec b e) ds ds')
    (hspec : valid = true → spec = spec.known b e) (hc : Forall₂ Fills shape dims)
    (hlen : ds.length = shape.length) (h : processDims valid i shape ds f = .ok (ps, g))
    (h' : processDims true i (dims.map fun d : Nat => (d : Int)) ds' f' = .ok (ps', g')) :
    Forall₂ Compat (ps.map (·.size)) (ps'.map (·.size)) := by
  induction hc generalizing i ds ds' f f' ps ps' with
  | nil =>
    cases h
    cases h'
    exact .nil
  | cons hc _ ih =>
    cases hsame with
    | nil => cases hlen
    | cons hd hsame =>
      obtain ⟨p, g1, qs, hp, hqs, rfl⟩ := processDims_cons h
      obtain ⟨p', g1', qs', hp', hqs', rfl⟩ := processDims_cons h'
      exact .cons (processDim_compat hd hspec hc.1 hp (processDim_known hp'))
        (ih hsame (Nat.succ.inj hlen) hqs hqs')

/-! ## Flags -/

/-- The largest size that a dimension has in a completion. -/
def largest (s : Int) : Nat := if s = -1 then 2 ^ 63 - 1 else s.toNat

/-- A dimension of the input with its part of the dense specification. -/
structure Slot where
  i : Nat
  known : Int
  d : DenseDim

namespace Slot

def masked (x : Slot) : Bool := x.d.beginMasked && x.d.endMasked

/-- What a flag asks of a known dimension, where `valid` says that begin and end are known. -/
def passes (valid : Bool) (x : Slot) : Flag → Bool
  | .isIdentity => if valid then takesAll x.known x.d else decide (x.d.strideI = 1) && x.masked
  | .sliceDim0 =>
    decide (x.i = 0) && decide (x.d.strideI = 1) ||
      (if valid then takesAll x.known x.d else x.masked)
  | .isSimpleSlice => decide (x.d.strideI = 1)

/-- Unknown dimensions are not looked at. -/
def contributes (valid : Bool) (x : Slot) (flag : Flag) : Bool :=
  decide (x.known = -1) || x.passes valid flag

/-- The dimension is taken as a whole, whatever is filled in. -/
def Whole (spec : Spec) (x : Slot) : Prop :=
  x.d.strideI = 1 ∧
    if x.d.shrink then largest x.known = 1
    else largest x.known = 0 ∨
      (x.d.beginMasked = true ∨
        spec.beginTensor.isSome = true ∧
          (x.d.beginI = 0 ∨ x.d.beginI ≤ -(largest x.known : Int))) ∧
      (x.d.endMasked = true ∨ spec.endTensor.isSome = true ∧ largest x.known ≤ x.d.endI)

/-- What a flag asks of a dimension, given what it means that this is taken as a whole. -/
def Asks (whole : Prop) (x : Slot) : Flag → Prop
  | .isIdentity => whole
  | .sliceDim0 => x.i = 0 ∧ x.d.strideI = 1 ∨ whole
  | .isSimpleSlice => x.d.strideI = 1

/-- The dimension passes what the flag asks, whatever is filled in. -/
def Certain (spec : Spec) (x : Slot) (flag : Flag) : Prop := x.Asks (x.Whole spec) flag

theorem passes_iff {x : Slot} {flag : Flag} :
    x.passes true flag = true ↔ x.Asks (takesAll x.known x.d = true) flag := by
  cases flag <;> simp [passes, Asks]

theorem Asks.mono {whole whole' : Prop} {k : Int} {flag : Flag} (h : Asks whole ⟨i, s, d⟩ flag)
    (hstride : d.strideI = d'.strideI) (hwhole : whole → whole') : Asks whole' ⟨i, k, d'⟩ flag := by
  cases flag with
  | isIdentity => exact hwhole h
  | sliceDim0 => exact Or.imp (And.imp_right hstride.symm.trans) hwhole h
  | isSimpleSlice => exact hstride.symm.trans h

end Slot

def slots : Nat → List Int → List DenseDim → List Slot
  | i, s :: shape, d :: ds => ⟨i, s, d⟩ :: slots (i + 1) shape ds
  | _, _, _ => []

theorem processDim_flags (h : processDim valid i s d f = .ok (p, g)) (flag : Flag) :
    g.get flag = (f.get flag && Slot.contributes valid ⟨i, s, d⟩ flag) := by
  unfold processDim at h
  split at h
  · cases h
  split at h
  next hs =>
    cases h
    rw [Slot.contributes, decide_eq_true hs, Bool.true_or, Bool.and_true]
  next hs =>
    rw [Slot.contributes, decide_eq_false hs, Bool.false_or]
    split at h
    · cases h
    cases valid with
    | true =>
      rw [if_pos rfl, processKnown] at h
      split at h
      · cases h
      · cases h
        cases flag <;> rfl
    | false =>
      rw [if_neg Bool.false_ne_true] at h
      cases h
      cases flag <;> rfl

theorem processDims_flags (hlen : ds.length = shape.length)
    (h : processDims valid i shape ds f = .ok (ps, g)) (flag : Flag) :
    g.get flag = (f.get flag && (slots i shape ds).all (·.contributes valid flag)) := by
  induction shape generalizing i ds f ps with
  | nil =>
    cases h
    cases ds with
    | nil => exact (Bool.and_true _).symm
    | cons => cases hlen
  | cons s shape ih =>
    cases ds with
    | nil => cases hlen
    | cons d ds =>
      obtain ⟨p, g1, qs, hp, hqs, rfl⟩ := processDims_cons h
      rw [ih (Nat.succ.inj hlen) hqs, processDim_flags hp, slots, all_cons, Bool.and_assoc]

/-! ## Dimensions that are taken as a whole -/

def Spans (n : Nat) (d : DenseDim) : Prop :=
  if d.shrink then n = 1
  else n = 0 ∨ (d.beginMasked = true ∨ d.beginI = 0 ∨ d.beginI ≤ -(n : Int)) ∧
    (d.endMasked = true ∨ n ≤ d.endI)

theorem takesAll_iff
    (hbounds : d.shrink = true → 0 ≤ forward dim d.beginI ∧ forward dim d.beginI < dim) :
    takesAll dim d = true ↔ d.strideI = 1 ∧ Spans dim d := by
  rw [takesAll, Bool.and_eq_true_iff, Bool.and_eq_true_iff, decide_eq_true_iff, decide_eq_true_iff,
    decide_eq_true_iff, and_assoc, and_congr_right_iff]
  intro hs
  rw [knownBegin, knownEnd, Spans]
  cases hshrink : d.shrink with
  | true =>
    have hb := hbounds hshrink
    simp only [if_true]
    omega
  | false =>
    rw [canonicalBegin, canonicalEnd, hs]
    simp only [Bool.false_eq_true, if_false, canonical, forward]
    cases d.beginMasked <;> cases d.endMasked <;>
      simp only [Bool.false_eq_true, if_false, if_true, false_or, true_or, or_true, true_and,
        and_true, iff_true] <;>
      split_ifs <;> omega

theorem compat_largest (hc : Fills s dim) :
    Fills s (largest s) ∧ dim ≤ largest s := by
  obtain ⟨hc, hlt⟩ := hc
  rw [Fills, Compat, largest]
  rcases hc with hc | hc <;> split <;> omega

theorem Completes.begin_eq (h : Completes spec shape b e dims)
    (hsome : spec.beginTensor.isSome = true) : spec.beginTensor = some b :=
  h.beginTensor.resolve_left (Option.isSome_iff_ne_none.mp hsome)

theorem Completes.end_eq (h : Completes spec shape b e dims)
    (hsome : spec.endTensor.isSome = true) : spec.endTensor = some e :=
  h.endTensor.resolve_left (Option.isSome_iff_ne_none.mp hsome)

theorem Slot.Whole.takesAll (hwhole : Slot.Whole spec ⟨i, s, d⟩)
    (hcomp : Completes spec shape b e dims) (hsame : SameEntry spec b e d d')
    (hc : Fills s dim)
    (hbounds : d'.shrink = true → 0 ≤ forward dim d'.beginI ∧ forward dim d'.beginI < dim) :
    takesAll dim d' = true := by
  obtain ⟨hstride, hspans⟩ := hwhole
  dsimp only at hspans
  have hle := (compat_largest hc).2
  refine (takesAll_iff hbounds).mpr ⟨hsame.strideI ▸ hstride, ?_⟩
  rw [Spans]
  rw [hsame.shrink, hsame.beginMasked, hsame.endMasked] at hspans
  split at hspans
  next hshrink =>
    rw [if_pos hshrink]
    have hb := hbounds hshrink
    omega
  next hshrink =>
    rw [if_neg hshrink]
    refine hspans.imp (fun h0 => by omega) fun ⟨hbegin, hend⟩ => ⟨?_, ?_⟩
    · refine hbegin.imp_right fun ⟨hsome, hbegin⟩ => ?_
      rw [← hsame.beginI (hcomp.begin_eq hsome)]
      omega
    · refine hend.imp_right fun ⟨hsome, hend⟩ => ?_
      rw [← hsame.endI (hcomp.end_eq hsome)]
      omega

theorem processDims_certain {flag : Flag} (hcomp : Completes spec shape b e dims)
    (hspec : valid = true → spec = spec.known b e) (hsame : Forall₂ (SameEntry spec b e) ds ds')
    {shape : List Int} {dims : List Nat}
    (hc : Forall₂ Fills shape dims)
    (hlen : ds.length = shape.length)
    (h' : processDims true i (dims.map fun d : Nat => (d : Int)) ds' f' = .ok (ps', g'))
    (hall : ∀ x ∈ slots i shape ds, x.contributes valid flag = true ∧
      (x.known = -1 ∨ valid = false → x.Certain spec flag))
    (hf : f'.get flag = true) : g'.get flag = true := by
  induction hc generalizing i ds ds' f' ps' with
  | nil =>
    cases h'
    exact hf
  | @cons s dim shape dims hc _ ih =>
    cases hsame with
    | nil => cases hlen
    | @cons d d' ds ds' hd hsame =>
      obtain ⟨p', g1, qs', hp', hqs', rfl⟩ := processDims_cons h'
      obtain ⟨⟨hcontr, hcertain⟩, hrest⟩ := forall_mem_cons.mp hall
      refine ih hsame (Nat.succ.inj hlen) hqs' hrest ?_
      rw [processDim_flags hp', hf, Bool.true_and]
      refine Bool.or_eq_true_iff.mpr (.inr ?_)
      by_cases hopen : s = -1 ∨ valid = false
      · exact Slot.passes_iff.mpr ((hcertain hopen).mono hd.strideI fun h =>
          h.takesAll hcomp hd hc (processDim_known hp').bounds)
      · rw [not_or, Bool.not_eq_false] at hopen
        rw [Slot.contributes, decide_eq_false hopen.1, Bool.false_or, hopen.2,
          hd.eq_of_known (hspec hopen.2), hc.1.resolve_left hopen.1] at hcontr
        exact hcontr

/-! ## A completion that takes as little as a whole as any other -/

def lowBegin (spec : Spec) : List Int :=
  spec.beginTensor.getD
    ((range spec.stridesTensor.length).map fun i => if spec.shrinkAxisMask.getLsbD i then 0 else 1)

def lowEnd (spec : Spec) : List Int :=
  spec.endTensor.getD (replicate spec.stridesTensor.length 0)

theorem completes_largest (h : Completes spec shape b e dims) :
    Completes spec shape (lowBegin spec) (lowEnd spec) (shape.map largest) where
  shape := by
    have hshape := h.shape
    clear h
    induction hshape with
    | nil => exact .nil
    | cons hc _ ih => exact .cons (compat_largest hc).1 ih
  beginTensor := by
    rw [lowBegin]
    cases spec.beginTensor <;> simp
  endTensor := by
    rw [lowEnd]
    cases spec.endTensor <;> simp

section

variable {c : DenseDim} (h : SameEntry spec (lowBegin spec) (lowEnd spec) d d')

include h

theorem SameEntry.low_begin (hno : spec.beginTensor = none) :
    (d'.shrink = true → d'.beginI = 0) ∧
      (d'.shrink = false → d'.beginMasked = true ∨ d'.beginI = 1) := by
  cases h with
  | all d hshrink hbegin hend =>
    exact ⟨fun h => absurd (hshrink.symm.trans h) Bool.false_ne_true, fun _ => .inl hbegin⟩
  | entry i hi =>
    have hb : (DenseSpec.entry (spec.known (lowBegin spec) (lowEnd spec)) i).beginI =
        if spec.shrinkAxisMask.getLsbD i then 0 else 1 := by
      simp [DenseSpec.entry, Spec.known, lowBegin, hno, hi]
    rw [hb]
    exact ⟨fun h => if_pos h, fun h => .inr (if_neg (Bool.eq_false_iff.mp h))⟩

theorem SameEntry.low_end (hno : spec.endTensor = none) : d'.endMasked = true ∨ d'.endI = 0 := by
  cases h with
  | all d hshrink hbegin hend => exact .inl hend
  | entry i hi =>
    right
    simp [DenseSpec.entry, Spec.known, lowEnd, hno, hi]

theorem SameEntry.low_bounds (hcomp : Completes spec shape b e dims)
    (hsame : SameEntry spec b e d c) (hc : Fills s dim)
    (hk : Known i dim c f p g) (hshrink : d'.shrink = true) :
    0 ≤ forward (largest s) d'.beginI ∧ forward (largest s) d'.beginI < largest s := by
  have hb := hk.bounds (hsame.shrink ▸ h.shrink.trans hshrink)
  have hle := (compat_largest hc).2
  suffices hin : 0 ≤ forward dim d'.beginI ∧ forward dim d'.beginI < dim by
    rw [forward] at hin ⊢
    split_ifs at hin ⊢ <;> omega
  rcases (completes_largest hcomp).beginTensor with hno | hsome
  · rw [(h.low_begin hno).1 hshrink]
    exact ⟨le_rfl, lt_of_le_of_lt hb.1 hb.2⟩
  · have hb' : spec.beginTensor = some b := hcomp.begin_eq (hsome ▸ rfl)
    rw [← h.beginI hsome, hsame.beginI hb']
    exact hb

theorem SameEntry.whole (hcomp : Completes spec shape b e dims)
    (hstride : d'.strideI = 1) (hspans : Spans (largest s) d') : Slot.Whole spec ⟨i, s, d⟩ := by
  refine ⟨h.strideI.trans hstride, ?_⟩
  dsimp only
  rw [Spans, ← h.shrink, ← h.beginMasked, ← h.endMasked] at hspans
  split at hspans
  next hshrink =>
    rw [if_pos hshrink]
    exact hspans
  next hshrink =>
    rw [if_neg hshrink]
    by_cases h0 : largest s = 0
    · exact .inl h0
    refine .inr ⟨?_, ?_⟩
    · refine or_iff_not_imp_left.mpr fun hmask => ?_
      have hbegin := (hspans.resolve_left h0).1.resolve_left hmask
      rcases (completes_largest hcomp).beginTensor with hno | hsome
      · rw [((h.low_begin hno).2 (h.shrink ▸ Bool.eq_false_iff.mpr hshrink)).resolve_left
          (h.beginMasked ▸ hmask)] at hbegin
        omega
      · rw [← h.beginI hsome] at hbegin
        exact ⟨hsome ▸ rfl, hbegin⟩
    · refine or_iff_not_imp_left.mpr fun hmask => ?_
      have hend := (hspans.resolve_left h0).2.resolve_left hmask
      rcases (completes_largest hcomp).endTensor with hno | hsome
      · rw [(h.low_end hno).resolve_left (h.endMasked ▸ hmask)] at hend
        omega
      · rw [← h.endI hsome] at hend
        exact ⟨hsome ▸ rfl, hend⟩

end

theorem processDim_of_bounds (hs : d.strideI ≠ 0) (hpos : d.shrink = true → 0 < d.strideI)
    (hbounds : d.shrink = true → 0 ≤ forward dim d.beginI ∧ forward dim d.beginI < dim)
    (i : Nat) (f : Flags) : ∃ p g, processDim true i dim d f = .ok (p, g) := by
  rw [processDim, if_neg hs, if_neg (by omega),
    if_neg fun h => not_lt.mpr h.2 (hpos h.1), if_pos rfl, processKnown, if_neg]
  · exact ⟨_, _, rfl⟩
  · rintro ⟨hshrink, hout⟩
    have hb := hbounds hshrink
    omega

theorem processDims_largest {dl : List DenseDim} (hcomp : Completes spec shape b e dims)
    (hsame : Forall₂ (SameEntry spec b e) ds ds')
    (hlow : Forall₂ (SameEntry spec (lowBegin spec) (lowEnd spec)) ds dl)
    {shape : List Int} {dims : List Nat}
    (hc : Forall₂ Fills shape dims)
    (hlen : ds.length = shape.length)
    (h' : processDims true i (dims.map fun d : Nat => (d : Int)) ds' f' = .ok (ps', g')) :
    ∃ ps g, processDims true i ((shape.map largest).map fun d : Nat => (d : Int)) dl f = .ok (ps, g) ∧
      ∀ flag, g.get flag = true →
        f.get flag = true ∧ ∀ x ∈ slots i shape ds, x.Certain spec flag := by
  induction hc generalizing i ds ds' dl f f' ps' with
  | nil =>
    refine ⟨[], f, rfl, fun flag hf => ⟨hf, ?_⟩⟩
    rw [length_eq_zero_iff.mp hlen]
    exact forall_mem_nil _
  | @cons s dim shape dims hc _ ih =>
    cases hsame with
    | nil => cases hlen
    | @cons d d' ds ds' hd hsame =>
      cases hlow with
      | @cons _ c _ dl hl hlow =>
        obtain ⟨p', g1', qs', hp', hqs', rfl⟩ := processDims_cons h'
        have hk := processDim_known hp'
        have hstride : c.strideI = d'.strideI := hl.strideI.symm.trans hd.strideI
        have hshrink : c.shrink = d'.shrink := hl.shrink.symm.trans hd.shrink
        have hbounds := hl.low_bounds hcomp hd hc hk
        obtain ⟨p, g1, hp⟩ := processDim_of_bounds (hstride ▸ hk.stride_ne_zero)
          (fun h => hstride ▸ hk.stride_pos (hshrink ▸ h)) hbounds i f
        obtain ⟨ps, g, hps, hcertain⟩ := ih hsame hlow (Nat.succ.inj hlen) hqs'
        refine ⟨p :: ps, g, ?_, fun flag hg => ?_⟩
        · rw [map_cons, map_cons, processDims, headD_cons, hp]
          dsimp only
          rw [tail_cons, hps]
        · obtain ⟨hg1, hrest⟩ := hcertain flag hg
          rw [processDim_flags hp, Bool.and_eq_true_iff] at hg1
          have hne : (largest s : Int) ≠ -1 := by omega
          have hpass := (Bool.or_eq_true_iff.mp hg1.2).resolve_left fun h =>
            hne (of_decide_eq_true h)
          have htakes := takesAll_iff hbounds
          have hcertain : Slot.Certain spec ⟨i, s, d⟩ flag :=
            (Slot.passes_iff.mp hpass).mono hl.strideI.symm fun h =>
              hl.whole hcomp (htakes.mp h).1 (htakes.mp h).2
          exact ⟨hg1.1, forall_mem_cons.mpr ⟨hcertain, hrest⟩⟩

/-! ## The whole call -/

theorem Compat.getD (h : Forall₂ Compat l m) (k : Nat) :
    Compat (l.getD k 0) (m.getD k 0) := by
  induction h generalizing k with
  | nil => exact .inr rfl
  | cons hr _ ih =>
    cases k with
    | zero => exact hr
    | succ k => exact ih k

theorem compat_gather (h : Forall₂ Compat l m) (gs : List (Gather × Option Nat)) : Forall₂ Compat
      (gs.filterMap fun g => finalDim l g.1) (gs.filterMap fun g => finalDim m g.1) := by
  induction gs with
  | nil => exact .nil
  | cons g gs ih =>
    rw [filterMap_cons, filterMap_cons]
    cases hg : g.1 with
    | dim k => exact .cons (.getD h k) ih
    | newAxis => exact .cons (.inr rfl) ih
    | shrinkAxis => exact ih

def denseDims (spec : Spec) (rank : Nat) : List DenseDim :=
  match buildDenseSpec spec (sparseSpec spec) rank with
  | .ok dense => dense.dims
  | .error _ => []

/-- A known dimension fails what the partial call asks of it, or all dimensions that are unknown, or
for which begin and end are not known, are certain to pass what a completed call asks. -/
def Settled (spec : Spec) (xs : List Slot) (flag : Flag) : Prop :=
  (∃ x ∈ xs, x.known ≠ -1 ∧
      x.passes (spec.beginTensor.isSome && spec.endTensor.isSome) flag = false) ∨
    ∀ x ∈ xs, x.known = -1 ∨ (spec.beginTensor.isSome && spec.endTensor.isSome) = false →
      x.Certain spec flag

def FlagsSettled (spec : Spec) (shape : List Int) : Prop :=
  ∀ flag, Settled spec (slots 0 shape (denseDims spec shape.length)) flag

theorem Completes.eq_known (h : Completes spec shape b e dims)
    (hvalid : (spec.beginTensor.isSome && spec.endTensor.isSome) = true) : spec = spec.known b e := by
  obtain ⟨hb, he⟩ := Bool.and_eq_true_iff.mp hvalid
  rw [Spec.known, ← h.begin_eq hb, ← h.end_eq he]

/-- A partial call and a call on a completion. -/
structure Completed (spec : Spec) (shape b e : List Int) (dims : List Nat) (dense dense' : DenseSpec) :
    Prop where
  completes : Completes spec shape b e dims
  same : SameDense spec b e dense dense'
  length : dense.dims.length = shape.length

theorem exists_completed {dense : DenseSpec} {f : Flags} (hs : Succeeds spec shape r dense ps f)
    (hc : Completes spec shape b e dims)
    (hr' : validateStridedSliceOp (spec.known b e) (dims.map fun d : Nat => (d : Int)) = .ok r') :
    ∃ dense' ps' f', Succeeds (spec.known b e) (dims.map fun d : Nat => (d : Int)) r' dense' ps' f' ∧
      Completed spec shape b e dims dense dense' := by
  obtain ⟨dense', ps', f', hs'⟩ := exists_succeeds hr'
  have hrank : shape.length = dims.length := hc.shape.length_eq
  have hdense' := hs'.dense_eq
  rw [length_map] at hdense'
  obtain ⟨u, hu, hsame⟩ := exists_sameDense (lt_of_sizesAgree hs'.sizes) hs.dense_eq b e
  rw [hrank, hdense'] at hu
  cases hu
  -- the number of dimensions is that of the completed call
  obtain ⟨items, hitems⟩ := hs'.exists_items
  refine ⟨dense', ps', f', hs', hc, hsame, ?_⟩
  rw [hsame.dims.length_eq, hitems.lists.dims, hitems.length, hrank]

theorem sizesAgree_low (hsizes : sizesAgree spec = true) (hn : spec.stridesTensor.length < 32) :
    sizesAgree (spec.known (lowBegin spec) (lowEnd spec)) = true := by
  rw [sizesAgree, Bool.and_eq_true_iff] at hsizes ⊢
  obtain ⟨hb, he⟩ := hsizes
  simp only [Spec.known, Option.elim_some, lowBegin, lowEnd]
  constructor
  · cases hbegin : spec.beginTensor with
    | none => simp [hn]
    | some b =>
      rw [hbegin] at hb
      exact hb
  · cases hend : spec.endTensor with
    | none => simp
    | some e =>
      rw [hend] at he
      exact he

theorem exists_largest {dense dense' : DenseSpec} (hs : Succeeds spec shape r dense ps f)
    (hs' : Succeeds (spec.known b e) (dims.map fun d : Nat => (d : Int)) r' dense' ps' f')
    (hcompl : Completed spec shape b e dims dense dense') :
    ∃ r', validateStridedSliceOp (spec.known (lowBegin spec) (lowEnd spec))
        ((shape.map largest).map fun d : Nat => (d : Int)) = .ok r' ∧
      ∀ flag, r'.flags.get flag = true → ∀ x ∈ slots 0 shape dense.dims, x.Certain spec flag := by
  have hn := lt_of_sizesAgree hs'.sizes
  obtain ⟨dl, hdl, hlow⟩ := exists_sameDense hn hs.dense_eq (lowBegin spec) (lowEnd spec)
  obtain ⟨qs, g, hqs, hcertain⟩ := processDims_largest (f := ⟨true, true, true⟩) hcompl.completes
    hcompl.same.dims hlow.dims hcompl.completes.shape hcompl.length hs'.dims_eq
  refine ⟨gatherDims dl qs g, ?_, fun flag h => (hcertain flag h).2⟩
  have hell : ¬((spec.known (lowBegin spec) (lowEnd spec)).ellipsisMask ≠ 0 ∧
      (spec.known (lowBegin spec) (lowEnd spec)).ellipsisMask &&&
        ((spec.known (lowBegin spec) (lowEnd spec)).ellipsisMask - 1) ≠ 0) :=
    fun h => h.2 hs.ellipses
  rw [validateStridedSliceOp, sizesAgree_low hs.sizes hn, if_neg Bool.true_eq_false_eq_False, if_neg hell, length_map,
    length_map, hdl]
  dsimp only
  rw [show ((spec.known (lowBegin spec) (lowEnd spec)).beginTensor.isSome && (spec.known (lowBegin spec) (lowEnd spec)).endTensor.isSome) = true from rfl, hqs]

/-- The partial call is right about all completions, if and only if its flags are settled. -/
theorem overApproximates_iff (hr : validateStridedSliceOp spec shape = .ok r)
    (hok : ∃ b e dims r', Completes spec shape b e dims ∧
      validateStridedSliceOp (spec.known b e) (dims.map fun d : Nat => (d : Int)) = .ok r') :
    (∀ b e dims r', Completes spec shape b e dims →
      validateStridedSliceOp (spec.known b e) (dims.map fun d : Nat => (d : Int)) = .ok r' →
      OverApproximates r r') ↔ FlagsSettled spec shape := by
  obtain ⟨dense, ps, f, hs⟩ := exists_succeeds hr
  have hdims : denseDims spec shape.length = dense.dims := by
    rw [denseDims, hs.dense_eq]
  obtain ⟨b, e, dims, r', hc, hr'⟩ := hok
  obtain ⟨dense', ps', f', hs', hcompl⟩ := exists_completed hs hc hr'
  have hflag : ∀ flag, r.flags.get flag = (slots 0 shape dense.dims).all
      (·.contributes (spec.beginTensor.isSome && spec.endTensor.isSome) flag) := by
    intro flag
    have htrue : Flags.get ⟨true, true, true⟩ flag = true := by cases flag <;> rfl
    rw [hs.result]
    show f.get flag = _
    rw [processDims_flags hcompl.length hs.dims_eq, htrue, Bool.true_and]
  rw [FlagsSettled, hdims]
  constructor
  · intro h flag
    by_cases hall : r.flags.get flag = true
    · right
      obtain ⟨r', hr', hcertain⟩ := exists_largest hs hs' hcompl
      have hover := h _ _ _ r' (completes_largest hc) hr'
      exact fun x hx _ => hcertain flag (hover.flags flag hall) x hx
    · left
      rw [hflag, all_eq_true] at hall
      push Not at hall
      obtain ⟨x, hx, hno⟩ := hall
      have hno := Bool.eq_false_iff.mpr hno
      rw [Slot.contributes, Bool.or_eq_false_iff, decide_eq_false_iff_not] at hno
      exact ⟨x, hx, hno⟩
  · intro h b e dims r' hc hr'
    obtain ⟨dense', ps', f', hs', hcompl⟩ := exists_completed hs hc hr'
    have hsizes := processDims_compat hcompl.same.dims hc.eq_known hc.shape hcompl.length
      hs.dims_eq hs'.dims_eq
    constructor
    · rw [hs.result, hs'.result]
      exact hsizes
    · rw [hs.result, hs'.result]
      show Forall₂ Compat (dense.gather.filterMap _) (dense'.gather.filterMap _)
      rw [hcompl.same.gather]
      exact compat_gather hsizes _
    · intro flag hr
      rw [hflag, all_eq_true] at hr
      rw [hs'.result]
      refine processDims_certain hc hc.eq_known hcompl.same.dims hc.shape hcompl.length
        hs'.dims_eq (fun x hx => ⟨hr x hx, ?_⟩) (by cases flag <;> rfl)
      rcases h flag with ⟨y, hy, hknown, hno⟩ | hcertain
      · have hcontr := hr y hy
        rw [Slot.contributes, decide_eq_false hknown, Bool.false_or, hno] at hcontr
        cases hcontr
      · exact hcertain x hx

/-- Rows of a matrix, of which every second element is taken. -/
def everySecond : Spec where
  beginTensor := none
  endTensor := none
  stridesTensor := [1, 2]
  beginMask := 3
  endMask := 3
  ellipsisMask := 0
  newAxisMask := 0
  shrinkAxisMask := 0

def everyElement : Spec := { everySecond with stridesTensor := [1, 1] }

theorem overApproximates_iff_everyElement :
    ∃ r, validateStridedSliceOp everyElement [2, -1] = .ok r ∧
      ∀ b e dims r', Completes everyElement [2, -1] b e dims →
        validateStridedSliceOp (everyElement.known b e) (dims.map fun d : Nat => (d : Int)) = .ok r' →
        OverApproximates r r' := by
  refine ⟨_, rfl, (overApproximates_iff rfl ⟨[0, 0], [0, 0], [2, 5], _, ?_, rfl⟩).mpr fun flag => ?_⟩
  · exact ⟨.cons ⟨.inr rfl, by decide⟩ (.cons ⟨.inl rfl, by decide⟩ .nil), .inl rfl, .inl rfl⟩
  · right
    intro x hx _
    have hwhole : x.Whole everyElement := by
      rcases mem_pair.mp (show x ∈ [_, _] from hx) with rfl | rfl
      · exact ⟨rfl, Or.inr ⟨Or.inl rfl, Or.inl rfl⟩⟩
      · exact ⟨rfl, Or.inr ⟨Or.inl rfl, Or.inl rfl⟩⟩
    cases flag with
    | isIdentity => exact hwhole
    | sliceDim0 => exact .inr hwhole
    | isSimpleSlice => exact hwhole.1

/-- Without begin and end, the second dimension is taken to be sliced as a whole. -/
theorem not_overApproximates_everySecond :
    Completes everySecond [2, 5] [0, 0] [0, 0] [2, 5] ∧
      ∃ r r', validateStridedSliceOp everySecond [2, 5] = .ok r ∧
        validateStridedSliceOp (everySecond.known [0, 0] [0, 0]) [2, 5] = .ok r' ∧
        ¬ OverApproximates r r' := by
  refine ⟨⟨.cons ⟨.inr rfl, by decide⟩ (.cons ⟨.inr rfl, by decide⟩ .nil), .inl rfl, .inl rfl⟩,
    _, _, rfl, rfl, fun h => ?_⟩
  have hdim0 := h.flags .sliceDim0 rfl
  exact absurd hdim0 (by decide)

end TfReading.StridedSlice
