import TfReading.BCast.Positions

/-!
# The plan of `BCastList`

As long as no product overflows, the vectors of the constructor are those of the collapsed
positions.  The plan then reads the elements that numpy reads.
-/

namespace TfReading.BCast

open MixedRadix Util List Position

variable {n N j total a c : Nat} {x : Fin N → Vec} {i : Fin N} {js : List Nat} {s s' : Merged N}
    {b r : Position N} {bs stack : List (Position N)} {fewer : Bool} {idx e d : Int} {l : List Int}

/-! ## Products -/

theorem symbolic_nonneg (hd : 0 ≤ d) (he : 0 ≤ e) : symbolic d e = false := by
  rw [symbolic, decide_eq_false (Int.not_lt.mpr hd), decide_eq_false (Int.not_lt.mpr he),
    Bool.or_false, Bool.and_false]

theorem mulFits_iff (hd : 0 ≤ d) (he : 0 ≤ e) : mulFits d e = true ↔ d * e < 2 ^ 63 := by
  have hde : 0 ≤ d * e := Int.mul_nonneg hd he
  rw [mulFits, symbolic_nonneg hd he, Bool.false_or, Bool.and_eq_true, decide_eq_true_iff,
    decide_eq_true_iff]
  omega

theorem mulDims_eq (hd : 0 ≤ d) (he : 0 ≤ e) (h : d * e < 2 ^ 63) :
    mulDims d e = d * e := by
  have hde : 0 ≤ d * e := Int.mul_nonneg hd he
  rw [mulDims, symbolic_nonneg hd he, if_neg Bool.false_ne_true]
  exact toInt64_of_lt (by omega) h

theorem mulFits_natCast : mulFits a c = true ↔ a * c < 2 ^ 63 := by
  rw [mulFits_iff (by omega) (by omega), ← Int.natCast_mul]
  omega

theorem mulDims_natCast (h : a * c < 2 ^ 63) : mulDims a c = (a * c : Nat) := by
  rw [mulDims_eq (by omega) (by omega), Int.natCast_mul]
  omega

/-- No product of the first entries of a list leaves the range of `int64`. -/
def PrefixesFit (l : List Int) : Prop := ∀ k, (l.take k).prod < 2 ^ 63

theorem countElements_defined_of_false (l : Vec) (e : Int) : (countElements l e false).2 = false := by
  induction l generalizing e with
  | nil => rfl
  | cons d l ih => exact ih _

theorem prefixes_cons (he : e < 2 ^ 63) :
    (∀ k, e * ((d :: l).take k).prod < 2 ^ 63) ↔ ∀ k, e * d * (l.take k).prod < 2 ^ 63 := by
  constructor
  · intro h k
    have hk := h (k + 1)
    rw [take_succ_cons, prod_cons, ← Int.mul_assoc] at hk
    exact hk
  · intro h k
    cases k with
    | zero =>
      rw [take_zero, prod_nil, Int.mul_one]
      exact he
    | succ k =>
      rw [take_succ_cons, prod_cons, ← Int.mul_assoc]
      exact h k

theorem prefixes_zero (h : ∀ k, e * (l.take k).prod < 2 ^ 63) :
    e < 2 ^ 63 := by
  have h0 := h 0
  rw [take_zero, prod_nil, Int.mul_one] at h0
  exact h0

/-- A running product, with its range check. -/
theorem countElements_spec {l : Vec} (hl : ∀ d ∈ l, 0 ≤ d) (he : 0 ≤ e) (hlt : e < 2 ^ 63) :
    ((countElements l e true).2 = true ↔ ∀ k, e * (l.take k).prod < 2 ^ 63) ∧
      ((countElements l e true).2 = true → (countElements l e true).1 = e * l.prod) := by
  induction l generalizing e with
  | nil =>
    rw [countElements, prod_nil, Int.mul_one]
    refine ⟨⟨fun _ k => ?_, fun _ => rfl⟩, fun _ => rfl⟩
    rw [take_nil, prod_nil, Int.mul_one]
    exact hlt
  | cons d l ih =>
    obtain ⟨hd, hl⟩ := forall_mem_cons.mp hl
    rw [countElements, Bool.true_and, prefixes_cons hlt, prod_cons, ← Int.mul_assoc]
    by_cases hfit : e * d < 2 ^ 63
    · rw [(mulFits_iff he hd).mpr hfit, mulDims_eq he hd hfit]
      exact ih hl (Int.mul_nonneg he hd) hfit
    · have hfalse : mulFits e d = false :=
        Bool.eq_false_iff.mpr fun h => hfit ((mulFits_iff he hd).mp h)
      rw [hfalse, countElements_defined_of_false]
      constructor
      · exact ⟨fun h => absurd h Bool.false_ne_true, fun h => absurd (prefixes_zero h) hfit⟩
      · exact fun h => absurd h Bool.false_ne_true

/-! ## The loop on positions -/

structure Vectors (s : Merged N) (stack : List (Position N)) : Prop where
  result : s.result = stack.map fun b => (b.extent : Int)
  reshape : ∀ i, s.reshape i = stack.map fun b => (b.size i : Int)
  bcast : ∀ i, s.bcast i = stack.map fun b => (b.copies i : Int)

/-- In addition, the last inputs that were 1 are those of the outermost position. -/
structure Represents (fewer : Bool) (s : Merged N) (stack : List (Position N)) : Prop
    extends Vectors s stack where
  setOne : fewer = true → s.setOne = !stack.isEmpty
  prevIsOne : fewer = true → ∀ r rest, stack = r :: rest → s.prevIsOne = r.isOne

def JoinFits (run : Option (Position N)) (b : Position N) : Prop :=
  ∀ r, run = some r → b.allOnes = false → r.isOne = b.isOne → r.extent * b.extent < 2 ^ 63

/-- The products of the output dimensions over runs of positions at which the same inputs are 1
stay in range. -/
def RunsFit : Option (Position N) → List (Position N) → Prop
  | _, [] => True
  | run, b :: bs => JoinFits run b ∧
    RunsFit (if b.allOnes then run
      else match run with
        | none => some b
        | some r => if r.isOne = b.isOne then some (r.append b) else some b) bs

theorem head?_join : (join true stack b).head? =
    if b.allOnes then stack.head?
    else match stack.head? with
      | none => some b
      | some r => if r.isOne = b.isOne then some (r.append b) else some b := by
  unfold join
  split
  · rfl
  · cases stack with
    | nil => rfl
    | cons =>
      simp only [true_and, head?_cons]
      split <;> rfl

theorem runsFit_cons : RunsFit stack.head? (b :: bs) ↔
    JoinFits stack.head? b ∧ RunsFit (join true stack b).head? bs := by
  rw [head?_join]
  rfl

structure At (dims : Fin N → Int) (b : Position N) : Prop where
  size_eq : ∀ i, dims i = (b.size i : Int)
  isOne : ∀ i, decide (dims i = 1) = b.isOne i
  one : b.allOnes = true → b.extent = 1
  found : findOutputDim (List.ofFn dims) none =
    some (if b.allOnes then none else some (b.extent : Int))

variable {dims : Fin N → Int}

theorem At.copies (h : At dims b) (i : Fin N) :
    (if dims i = 1 then (b.extent : Int) else 1) = (b.copies i : Int) := by
  have hone := h.isOne i
  by_cases h1 : dims i = 1
  · rw [if_pos h1, Position.copies, if_pos (hone ▸ decide_eq_true h1)]
  · have hb : b.isOne i = false := hone ▸ decide_eq_false h1
    rw [if_neg h1, Position.copies, hb]
    rfl

theorem mulBack_map (f : Position N → Nat) {d : Nat} (h : f r * d < 2 ^ 63) :
    mulBack ((r :: stack).map fun b => (f b : Int)) d =
      ((f r * d : Nat) : Int) :: stack.map fun b => (f b : Int) := by
  rw [map_cons, mulBack, mulDims_natCast h]

theorem backFits_map (f : Position N → Nat) {d : Nat} :
    backFits ((r :: stack).map fun b => (f b : Int)) d = true ↔ f r * d < 2 ^ 63 := by
  rw [map_cons, backFits, mulFits_natCast]

namespace Merged

theorem step_eq (h : At dims b) : s.step fewer idx dims =
    some (if b.allOnes then (s.pushOutput 1).allOnes fewer idx
      else if fewer = true ∧ s.setOne = true ∧ s.prevIsOne = b.isOne then
        (s.pushOutput b.extent).extend dims b.extent idx
      else (s.pushOutput b.extent).push dims b.extent idx) := by
  have hsame : (∀ i, decide (dims i = 1) = s.prevIsOne i) ↔ s.prevIsOne = b.isOne := by
    rw [funext_iff]
    refine forall_congr' fun i => ?_
    rw [h.isOne i]
    exact eq_comm
  rw [step, h.found]
  cases b.allOnes with
  | true => rfl
  | false =>
    simp only [Bool.false_eq_true, if_false, Bool.and_eq_true, decide_eq_true_iff]
    by_cases hc : fewer = true ∧ s.setOne = true ∧ s.prevIsOne = b.isOne
    · rw [if_pos hc, if_pos ⟨⟨hc.1, hsame.mpr hc.2.2⟩, hc.2.1⟩]
    · rw [if_neg hc, if_neg fun h => hc ⟨h.1.1, h.2, hsame.mp h.1.2⟩]

end Merged

structure Joins (fewer : Bool) (stack : List (Position N)) (total : Nat) (b : Position N)
    (s' : Merged N) : Prop where
  defined_iff : s'.defined = true ↔
    total * b.extent < 2 ^ 63 ∧ (fewer = true → JoinFits stack.head? b)
  represents : s'.defined = true → Represents fewer s' (join fewer stack b)
  outputBatchSize : s'.defined = true → s'.outputBatchSize = (total * b.extent : Nat)

section Joins

variable (hdef : s.defined = true) (htot : s.outputBatchSize = total) (hat : At dims b)

include hdef htot

theorem pushOutput_defined :
    (s.pushOutput b.extent).defined = true ↔ total * b.extent < 2 ^ 63 := by
  show (s.defined && mulFits s.outputBatchSize b.extent) = true ↔ _
  rw [hdef, htot, Bool.true_and, mulFits_natCast]

omit hdef in
theorem pushOutput_outputBatchSize (hfit : total * b.extent < 2 ^ 63) :
    (s.pushOutput b.extent).outputBatchSize = (total * b.extent : Nat) := by
  show mulDims s.outputBatchSize b.extent = _
  rw [htot, mulDims_natCast hfit]

include hat

theorem joins_allOnes (hrep : Represents fewer s stack) (hones : b.allOnes = true) (idx : Int) :
    Joins fewer stack total b ((s.pushOutput b.extent).allOnes fewer idx) where
  defined_iff := by
    show (s.pushOutput b.extent).defined = true ↔ _
    rw [pushOutput_defined hdef htot]
    refine ⟨fun h => ⟨h, fun _ r _ hno => ?_⟩, fun h => h.1⟩
    rw [hones] at hno
    cases hno
  represents _ := by
    have hsize : ∀ i, b.size i = 1 := fun i => if_pos (of_decide_eq_true hones i)
    have hcopies : ∀ i, b.copies i = 1 := fun i => by
      rw [copies, if_pos (of_decide_eq_true hones i), hat.one hones]
    unfold join
    rw [if_pos hones]
    cases fewer with
    | true => exact ⟨⟨hrep.result, hrep.reshape, hrep.bcast⟩, hrep.setOne, hrep.prevIsOne⟩
    | false =>
      refine ⟨⟨?_, fun i => ?_, fun i => ?_⟩, fun h => (Bool.false_ne_true h).elim,
        fun h => (Bool.false_ne_true h).elim⟩
      · show 1 :: s.result = _
        rw [hrep.result, if_neg Bool.false_ne_true, map_cons, hat.one hones]
        rfl
      · show 1 :: s.reshape i = _
        rw [hrep.reshape, if_neg Bool.false_ne_true, map_cons, hsize]
        rfl
      · show 1 :: s.bcast i = _
        rw [hrep.bcast, if_neg Bool.false_ne_true, map_cons, hcopies]
        rfl
  outputBatchSize h := pushOutput_outputBatchSize htot ((pushOutput_defined hdef htot).mp h)

theorem joins_extend (hrep : Represents fewer s (r :: stack)) (hones : b.allOnes = false)
    (hfewer : fewer = true) (hsame : r.isOne = b.isOne) :
    Joins fewer (r :: stack) total b ((s.pushOutput b.extent).extend dims b.extent idx) := by
  -- the product in `result_` bounds the other ones
  have hparts : r.extent * b.extent < 2 ^ 63 → ∀ i,
      r.size i * b.size i < 2 ^ 63 ∧ r.copies i * b.copies i < 2 ^ 63 := by
    intro h i
    rw [← size_append hsame, ← copies_append hsame, size,
      copies]
    split
    · exact ⟨by decide, h⟩
    · exact ⟨h, by decide⟩
  have hdefined : ((s.pushOutput b.extent).extend dims b.extent idx).defined = true ↔
      total * b.extent < 2 ^ 63 ∧ r.extent * b.extent < 2 ^ 63 := by
    show ((s.pushOutput b.extent).defined && backFits s.result b.extent &&
      decide (∀ i, backFits (s.reshape i) (dims i) = true ∧
        backFits (s.bcast i) (if dims i = 1 then (b.extent : Int) else 1) = true)) = true ↔ _
    rw [Bool.and_eq_true, Bool.and_eq_true, pushOutput_defined hdef htot, hrep.result, backFits_map,
      decide_eq_true_iff]
    constructor
    · exact fun h => h.1
    · intro h
      refine ⟨h, fun i => ?_⟩
      rw [hrep.reshape, hrep.bcast, hat.copies, hat.size_eq, backFits_map (·.size i),
        backFits_map (·.copies i)]
      exact hparts h.2 i
  have hjoin : join fewer (r :: stack) b = r.append b :: stack := by
    unfold join
    rw [hones, if_neg Bool.false_ne_true]
    exact if_pos ⟨hfewer, hsame⟩
  constructor
  · rw [hdefined]
    refine and_congr_right fun _ => ⟨fun h _ r' hr' _ _ => ?_, fun h => ?_⟩
    · cases hr'
      exact h
    · exact h hfewer r rfl hones hsame
  · intro h
    obtain ⟨-, hfit⟩ := hdefined.mp h
    rw [hjoin]
    refine ⟨⟨?_, fun i => ?_, fun i => ?_⟩, fun _ => rfl, fun _ r' rest heq => ?_⟩
    · show mulBack s.result b.extent = _
      rw [hrep.result, mulBack_map _ hfit]
      rfl
    · show mulBack (s.reshape i) (dims i) = _
      rw [hrep.reshape, hat.size_eq, mulBack_map (·.size i) (hparts hfit i).1, map_cons,
        size_append hsame]
    · show mulBack (s.bcast i) (if dims i = 1 then (b.extent : Int) else 1) = _
      rw [hrep.bcast, hat.copies, mulBack_map (·.copies i) (hparts hfit i).2, map_cons,
        copies_append hsame]
    · cases heq
      rw [show (r.append b).isOne = r.isOne from rfl, hsame]
      exact funext hat.isOne
  · intro h
    exact pushOutput_outputBatchSize htot (hdefined.mp h).1

theorem joins_push (hrep : Represents fewer s stack) (hones : b.allOnes = false)
    (hnew : fewer = true → ∀ r rest, stack = r :: rest → r.isOne ≠ b.isOne) :
    Joins fewer stack total b ((s.pushOutput b.extent).push dims b.extent idx) where
  defined_iff := by
    show (s.pushOutput b.extent).defined = true ↔ _
    rw [pushOutput_defined hdef htot]
    refine ⟨fun h => ⟨h, fun hf r hr _ hsame => ?_⟩, fun h => h.1⟩
    obtain ⟨rest, hstack⟩ := head?_eq_some_iff.mp hr
    exact absurd hsame (hnew hf r rest hstack)
  represents _ := by
    have hjoin : join fewer stack b = b :: stack := by
      unfold join
      rw [hones, if_neg Bool.false_ne_true]
      cases stack with
      | nil => rfl
      | cons r rest => exact if_neg fun h => hnew h.1 r rest rfl h.2
    rw [hjoin]
    refine ⟨⟨?_, fun i => ?_, fun i => ?_⟩, fun _ => rfl, fun _ r rest heq => ?_⟩
    · show (b.extent : Int) :: s.result = _
      rw [hrep.result, map_cons]
    · show dims i :: s.reshape i = _
      rw [hrep.reshape, hat.size_eq, map_cons]
    · show (if dims i = 1 then (b.extent : Int) else 1) :: s.bcast i = _
      rw [hrep.bcast, hat.copies, map_cons]
    · cases heq
      exact funext hat.isOne
  outputBatchSize h := pushOutput_outputBatchSize htot ((pushOutput_defined hdef htot).mp h)

theorem step_joins (hrep : Represents fewer s stack) (idx : Int) :
    ∃ s', s.step fewer idx dims = some s' ∧ Joins fewer stack total b s' := by
  refine ⟨_, Merged.step_eq hat, ?_⟩
  cases hones : b.allOnes with
  | true =>
    have h := joins_allOnes hdef htot hat hrep hones idx
    rw [hat.one hones] at h
    exact h
  | false =>
    rw [if_neg Bool.false_ne_true]
    split
    next hc =>
      obtain ⟨hfewer, hset, hprev⟩ := hc
      cases stack with
      | nil =>
        rw [hrep.setOne hfewer] at hset
        cases hset
      | cons r rest =>
        exact joins_extend hdef htot hat hrep hones hfewer
          ((hrep.prevIsOne hfewer r rest rfl).symm.trans hprev)
    next hc =>
      apply joins_push hdef htot hat hrep hones
      intro hfewer r rest hstack hsame
      apply hc
      refine ⟨hfewer, ?_, (hrep.prevIsOne hfewer r rest hstack).trans hsame⟩
      rw [hrep.setOne hfewer, hstack]
      rfl

end Joins

/-! ## The whole loop -/

namespace Merged

theorem defined_of_step (h : s.step fewer idx dims = some s') (hdef : s'.defined = true) :
    s.defined = true := by
  have hpush : ∀ d, (s.pushOutput d).defined = true → s.defined = true :=
    fun d h => (Bool.and_eq_true_iff.mp h).1
  rw [step] at h
  split at h
  · cases h
  · cases h
    exact hpush _ hdef
  · dsimp only at h
    split at h
    · cases h
      exact hpush _ (Bool.and_eq_true_iff.mp (Bool.and_eq_true_iff.mp hdef).1).1
    · cases h
      exact hpush _ hdef

theorem defined_of_loop (h : s.loop fewer x js = some s') (hdef : s'.defined = true) :
    s.defined = true := by
  induction js generalizing s with
  | nil =>
    cases h
    exact hdef
  | cons j js ih =>
    rw [loop_cons] at h
    obtain ⟨t, ht, h⟩ := Option.bind_eq_some_iff.mp h
    exact defined_of_step ht (ih h)

theorem exists_loop (fewer : Bool) (s : Merged N) (hall : ∀ j ∈ js, foundDim (nonOnes x j) ≠ none) :
    ∃ s', s.loop fewer x js = some s' := by
  have h := loop_output fewer x js s
  rw [if_pos hall] at h
  obtain ⟨s', hs', -⟩ := Option.map_eq_some_iff.mp h
  exact ⟨s', hs'⟩

end Merged

/-- Compatible shapes whose dimensions fit into an `int`. -/
structure Dims (x : Fin N → Vec) : Prop where
  compatible : Compatible x
  nonneg : ∀ i, ∀ d ∈ x i, 0 ≤ d
  lt : ∀ i, ∀ d ∈ x i, d < 2 ^ 31

namespace Dims

theorem numpyDim_lt (h : Dims x) (j : Nat) : numpyDim x j < 2 ^ 31 := by
  rw [numpyDim]
  cases hl : nonOnes x j with
  | nil => decide
  | cons =>
    obtain ⟨hd, i, hi⟩ := mem_nonOnes.mp (hl ▸ mem_cons_self)
    exact hi ▸ h.lt i _ (dimAt_mem (hi ▸ hd))

theorem extent_position (h : Dims x) (j : Nat) : ((position x j).extent : Int) = numpyDim x j :=
  Int.toNat_of_nonneg (numpyDim_nonneg h.nonneg j)

theorem accepts (h : Dims x) (j : Nat) : foundDim (nonOnes x j) =
    some (if (position x j).allOnes then none else some ((position x j).extent : Int)) := by
  rw [h.extent_position, numpyDim]
  cases hl : nonOnes x j with
  | nil => rw [if_pos (allOnes_position.mpr hl), foundDim]
  | cons d ds =>
    have hd : toInt32 d = d := by
      have heq : numpyDim x j = d := by
        rw [numpyDim, hl]
        rfl
      exact toInt32_of_lt (heq ▸ numpyDim_nonneg h.nonneg j) (heq ▸ h.numpyDim_lt j)
    have hno : ¬ (position x j).allOnes = true := by
      rw [allOnes_position, hl]
      exact cons_ne_nil d ds
    rw [if_neg hno, foundDim, hd, if_pos (compatible_iff.mp h.compatible j d ds hl)]
    rfl

theorem at_position (h : Dims x) (j : Nat) : At (fun i => dimAt (x i) j) (position x j) where
  size_eq i := by
    rw [size_position h.compatible i]
    exact (Int.toNat_of_nonneg (dimAt_nonneg (h.nonneg i) j)).symm
  isOne _ := rfl
  one := extent_position_of_allOnes
  found := (findOutputDim_none _).trans (h.accepts j)

end Dims

/-- The loop joins the positions, and detects whether a product is out of range. -/
theorem loop_spec (js : List Nat) (hx : Dims x) (hrep : Represents fewer s stack) (hdef : s.defined = true)
    (htot : s.outputBatchSize = total) (hlt : total < 2 ^ 63) :
    ∃ s', s.loop fewer x js = some s' ∧
      (s'.defined = true ↔ (∀ k, (total : Int) * ((js.map (numpyDim x)).take k).prod < 2 ^ 63) ∧
        (fewer = true → RunsFit stack.head? (js.map (position x)))) ∧
      (s'.defined = true →
        Represents fewer s' ((js.map (position x)).foldl (join fewer) stack)) := by
  induction js generalizing s stack total with
  | nil =>
    refine ⟨s, rfl, ⟨fun _ => ⟨fun k => ?_, fun _ => trivial⟩, fun _ => hdef⟩, fun _ => hrep⟩
    rw [map_nil, take_nil, prod_nil, Int.mul_one]
    omega
  | cons j js ih =>
    obtain ⟨t, ht, hjoins⟩ := step_joins hdef htot (hx.at_position j) hrep
      ((largestRank x : Int) - 1 - j)
    rw [Merged.loop_cons, ht, Option.bind_some, map_cons, map_cons, foldl_cons,
      prefixes_cons (by omega), ← hx.extent_position, ← Int.natCast_mul]
    cases htdef : t.defined with
    | true =>
      obtain ⟨hfit, hjoin⟩ := hjoins.defined_iff.mp htdef
      obtain ⟨s', hs', hiff, hrep'⟩ := ih (hjoins.represents htdef) htdef
        (hjoins.outputBatchSize htdef) hfit
      refine ⟨s', hs', hiff.trans (and_congr_right fun _ => ?_), hrep'⟩
      refine forall_congr' fun hfewer => ?_
      rw [runsFit_cons, and_iff_right (hjoin hfewer), hfewer]
    | false =>
      obtain ⟨s', hs'⟩ := Merged.exists_loop fewer t fun j (_ : j ∈ js) => by rw [hx.accepts j]; exact Option.some_ne_none _
      have hs'def : ¬ s'.defined = true := fun h => by
        rw [Merged.defined_of_loop hs' h] at htdef
        cases htdef
      refine ⟨s', hs', ⟨fun h => absurd h hs'def, fun ⟨hpre, hrun⟩ => ?_⟩,
        fun h => absurd h hs'def⟩
      have hfit : total * (position x j).extent < 2 ^ 63 := by
        have := prefixes_zero hpre
        omega
      have := hjoins.defined_iff.mpr ⟨hfit, fun hf => (hrun hf).1⟩
      rw [htdef] at this
      cases this

end TfReading.BCast
