import TfReading.BCast.BCastList

/-!
# Which shapes `BCastList` accepts

The dimension of the output is kept in an `int`.  A position is accepted if all dimensions other
than 1 after the first of them equal its low 32 bits, and these are also what becomes part of
the output shape.
-/

namespace TfReading.BCast

open Util List Option

variable {n N j : Nat} {x : Fin N → Vec} {fewer : Bool} {js : List Nat} {s s' : Merged N}
    {l : List Int}

/-- The output dimension that the inner loop finds at a position with these other than 1. -/
def foundDim : List Int → Option (Option Int)
  | [] => some none
  | d :: ds => if ∀ c ∈ ds, c = toInt32 d then some (some (toInt32 d)) else none

theorem findOutputDim_some (dims : List Int) (d : Int) :
    findOutputDim dims (some (toInt32 d)) =
      foundDim (d :: dims.filter fun c => decide (c ≠ 1)) := by
  induction dims with
  | nil =>
    rw [filter_nil, findOutputDim, foundDim, if_pos]
    exact nofun
  | cons c dims ih =>
    rw [findOutputDim]
    split
    next h1 => rw [ih, filter_cons_of_neg (by simpa using h1)]
    next h1 =>
      rw [filter_cons_of_pos (by simpa using h1)]
      by_cases hcd : c = toInt32 d
      · have hidem : toInt32 (toInt32 d) = toInt32 d := Int.bmod_bmod
        rw [if_pos (.inr (congrArg some hcd.symm)), hcd, hidem, ih, foundDim, foundDim]
        simp only [forall_mem_cons, true_and]
      · rw [if_neg, foundDim, if_neg]
        · intro hall
          exact hcd (hall c mem_cons_self)
        · intro h
          rcases h with h | h
          · cases h
          · exact hcd (some.inj h).symm

theorem findOutputDim_none (dims : List Int) :
    findOutputDim dims none = foundDim (dims.filter fun c => decide (c ≠ 1)) := by
  induction dims with
  | nil => rfl
  | cons c dims ih =>
    rw [findOutputDim]
    by_cases h1 : c = 1
    · rw [if_pos h1, ih, filter_cons_of_neg (by simpa using h1)]
    · rw [if_neg h1, if_pos (.inl rfl), filter_cons_of_pos (by simpa using h1),
        findOutputDim_some]

/-! ## The loop -/

namespace Merged

theorem step_output {idx : Int} {dims : Fin N → Int} :
    (s.step fewer idx dims).map output =
      (findOutputDim (List.ofFn dims) none).map fun d => d.getD 1 :: s.output := by
  rw [step]
  split
  next h => rw [h]; rfl
  next h => rw [h]; rfl
  next h =>
    rw [h]
    dsimp only
    split <;> rfl

theorem loop_cons : s.loop fewer x (j :: js) =
    (s.step fewer ((largestRank x : Int) - 1 - j) fun i => dimAt (x i) j).bind
      (loop fewer x js) := by
  rw [loop]
  simp only [copy_getD]
  cases s.step fewer ((largestRank x : Int) - 1 - j) fun i => dimAt (x i) j <;> rfl

theorem loop_output (fewer : Bool) (x : Fin N → Vec) (js : List Nat) (s : Merged N) :
    (s.loop fewer x js).map output =
      if ∀ j ∈ js, foundDim (nonOnes x j) ≠ none then
        some ((js.map fun j => ((foundDim (nonOnes x j)).getD none).getD 1).reverse ++ s.output)
      else none := by
  induction js generalizing s with
  | nil => rw [if_pos nofun]; rfl
  | cons j js ih =>
    have hfound : findOutputDim (ofFn fun i => dimAt (x i) j) none = foundDim (nonOnes x j) :=
      findOutputDim_none _
    have hstep : (s.step fewer ((largestRank x : Int) - 1 - j) fun i => dimAt (x i) j).map output =
        _ := step_output
    rw [hfound] at hstep
    rw [loop_cons, map_cons, reverse_cons, append_assoc, singleton_append]
    simp only [forall_mem_cons]
    cases hf : foundDim (nonOnes x j) with
    | none =>
      rw [hf, map_none, map_eq_none_iff] at hstep
      rw [hstep, if_neg (fun h => h.1 rfl)]
      rfl
    | some =>
      rw [hf, map_some] at hstep
      obtain ⟨s', hs', hout⟩ := map_eq_some_iff.mp hstep
      rw [hs', bind_some, ih, hout]
      simp only [ne_eq, reduceCtorEq, not_false_eq_true, true_and, getD_some]

end Merged

/-! ## The constructor -/

/-- All dimensions other than 1 after the first one equal its low 32 bits. -/
def Accepts (x : Fin N → Vec) : Prop :=
  ∀ j d ds, nonOnes x j = d :: ds → ∀ c ∈ ds, c = toInt32 d

theorem foundDim_ne_none :
    foundDim l ≠ none ↔ ∀ d ds, l = d :: ds → ∀ c ∈ ds, c = toInt32 d := by
  cases l with
  | nil =>
    constructor
    · exact nofun
    · exact nofun
  | cons d ds =>
    rw [foundDim]
    constructor
    · intro h d' ds' heq
      cases heq
      by_contra hall
      exact h (if_neg hall)
    · intro h
      rw [if_pos (h d ds rfl)]
      exact nofun

theorem accepts_iff : Accepts x ↔ ∀ j ∈ List.range (largestRank x), foundDim (nonOnes x j) ≠ none := by
  constructor
  · intro h j _
    exact foundDim_ne_none.mpr (h j)
  · intro h j
    by_cases hj : j < largestRank x
    · exact foundDim_ne_none.mp (h j (mem_range.mpr hj))
    · rw [nonOnes_of_le (not_lt.mp hj)]
      exact nofun

theorem getD_foundDim (h : foundDim l ≠ none) :
    ((foundDim l).getD none).getD 1 = toInt32 (l.headD 1) := by
  cases l with
  | nil => rfl
  | cons d ds =>
    rw [foundDim, if_pos (foundDim_ne_none.mp h d ds rfl)]
    rfl

section Constructor

variable {x : Fin (n + 1) → Vec} {batches : Bool} {v : Vec}

theorem output_slow (batches : Bool) (hslow : (allEqual x && fewer) = false) (h : Accepts x) :
    (bcastList x fewer batches).map BCastList.output =
      some ((List.range (largestRank x)).map fun j => toInt32 (numpyDim x j)).reverse := by
  have hall := accepts_iff.mp h
  have hloop := Merged.loop_output fewer x (range (largestRank x)) .start
  rw [if_pos hall] at hloop
  obtain ⟨s, hs, hout⟩ := map_eq_some_iff.mp hloop
  have hlist : (range (largestRank x)).map
      (fun j => ((foundDim (nonOnes x j)).getD none).getD 1) =
      (range (largestRank x)).map fun j => toInt32 (numpyDim x j) :=
    map_congr_left fun j hj => getD_foundDim (hall j hj)
  rw [hlist, show (Merged.start : Merged (n + 1)).output = [] from rfl, append_nil] at hout
  rw [bcastList, hslow, if_neg Bool.false_ne_true, hs]
  have horOne : s.orOne.output = s.output := by
    rw [Merged.orOne]
    split <;> rfl
  rw [map_some, horOne, hout]

theorem bcastList_slow_none (hslow : (allEqual x && fewer) = false) (h : ¬ Accepts x) :
    bcastList x fewer batches = none := by
  have hloop := Merged.loop_output fewer x (range (largestRank x)) .start
  rw [if_neg (fun hall => h (accepts_iff.mpr hall)), map_eq_none_iff] at hloop
  rw [bcastList, hslow, if_neg Bool.false_ne_true, hloop]

/-! ## Compatible shapes -/

theorem compatible_iff {x : Fin N → Vec} :
    Compatible x ↔ ∀ j d ds, nonOnes x j = d :: ds → ∀ c ∈ ds, c = d := by
  constructor
  · intro h j d ds heq c hc
    obtain ⟨hc1, i, hi⟩ := mem_nonOnes.mp (heq ▸ mem_cons_of_mem d hc)
    obtain ⟨hd1, k, hk⟩ := mem_nonOnes.mp (heq ▸ mem_cons_self)
    rw [← hi, ← hk]
    exact h j i k (hi ▸ hc1) (hk ▸ hd1)
  · intro h j i k hi hk
    cases hl : nonOnes x j with
    | nil => exact absurd (mem_nonOnes.mpr ⟨hi, i, rfl⟩) (hl ▸ not_mem_nil)
    | cons d ds =>
      have hall : ∀ c ∈ nonOnes x j, c = d := by
        rw [hl, forall_mem_cons]
        exact ⟨rfl, h j d ds hl⟩
      rw [hall _ (mem_nonOnes.mpr ⟨hi, i, rfl⟩), hall _ (mem_nonOnes.mpr ⟨hk, k, rfl⟩)]

theorem Compatible.dimAt_eq {x : Fin N → Vec} (h : Compatible x) (i : Fin N) (hi : dimAt (x i) j ≠ 1) :
    dimAt (x i) j = numpyDim x j := by
  have hmem := mem_nonOnes.mpr ⟨hi, i, rfl⟩
  rw [numpyDim]
  cases hl : nonOnes x j with
  | nil => exact absurd hmem (hl ▸ not_mem_nil)
  | cons d ds =>
    rw [hl] at hmem
    rcases mem_cons.mp hmem with heq | hmem
    · exact heq
    · exact compatible_iff.mp h j d ds hl _ hmem

theorem dimAt_mem (h : dimAt v j ≠ 1) : dimAt v j ∈ v := by
  have hlt : j < v.length := by
    by_contra hge
    exact h (dimAt_of_le (not_lt.mp hge))
  rw [dimAt, getD_eq_getElem _ _ (by rw [length_reverse]; exact hlt)]
  exact mem_reverse.mp (getElem_mem _)

theorem dimAt_nonneg (h : ∀ d ∈ v, 0 ≤ d) (j : Nat) : 0 ≤ dimAt v j := by
  by_cases h1 : dimAt v j = 1
  · rw [h1]
    exact Int.one_nonneg
  · exact h _ (dimAt_mem h1)

theorem numpyDim_nonneg {x : Fin N → Vec} (h : ∀ i, ∀ d ∈ x i, 0 ≤ d) (j : Nat) :
    0 ≤ numpyDim x j := by
  rw [numpyDim]
  cases hl : nonOnes x j with
  | nil => exact Int.one_nonneg
  | cons =>
    obtain ⟨-, i, hi⟩ := mem_nonOnes.mp (hl ▸ mem_cons_self)
    exact hi ▸ dimAt_nonneg (h i) j

theorem allEqual_iff : allEqual x = true ↔ ∀ i, x i = x 0 := decide_eq_true_iff

theorem compatible_of_allEqual (h : allEqual x = true) : Compatible x := by
  intro j i k _ _
  rw [allEqual_iff.mp h i, allEqual_iff.mp h k]

theorem numpyDim_of_allEqual (h : allEqual x = true) (j : Nat) : numpyDim x j = dimAt (x 0) j := by
  by_cases h1 : dimAt (x 0) j = 1
  · have hnil : nonOnes x j = [] := by
      rw [eq_nil_iff_forall_not_mem]
      intro d hd
      obtain ⟨hne, i, hi⟩ := mem_nonOnes.mp hd
      exact hne (by rw [← hi, allEqual_iff.mp h i, h1])
    rw [numpyDim, hnil, h1]
    rfl
  · exact ((compatible_of_allEqual h).dimAt_eq 0 h1).symm

theorem numpyShape_of_allEqual (h : allEqual x = true) : numpyShape x = x 0 := by
  have hrank : largestRank x = (x 0).length := by
    apply le_antisymm
    · rw [largestRank_eq]
      refine max_le_of_forall_le _ _ fun b hb => ?_
      obtain ⟨i, rfl⟩ := mem_ofFn.mp hb
      rw [allEqual_iff.mp h i]
    · exact length_le_largestRank x 0
  rw [numpyShape, hrank, funext (numpyDim_of_allEqual h), reverse_eq_iff]
  apply ext_getElem
  · rw [length_map, length_range, length_reverse]
  · intro j h₁ h2
    rw [getElem_map, getElem_range, dimAt, getD_eq_getElem _ _ h2]

/-! ## Agreement with numpy -/

def AgreesWithNumpy (x : Fin (n + 1) → Vec) (fewer batches : Bool) : Prop :=
  (isValid x fewer batches = true ↔ Compatible x) ∧
    ∀ b, bcastList x fewer batches = some b → b.output = numpyShape x

/-- The shapes take the fast path, or the first dimension other than 1 at each position fits into
an `int`, or the shapes are incompatible and also differ in the low 32 bits. -/
def FitsInt (x : Fin (n + 1) → Vec) (fewer : Bool) : Prop :=
  (allEqual x && fewer) = true ∨ (∀ j, numpyDim x j < 2 ^ 31) ∨ (¬ Compatible x ∧ ¬ Accepts x)

theorem agrees_of_fast (hfast : (allEqual x && fewer) = true) : AgreesWithNumpy x fewer batches := by
  have heq : allEqual x = true := (Bool.and_eq_true _ _ ▸ hfast).1
  have hout : (bcastList x fewer batches).map BCastList.output = some (x 0) := by
    rw [bcastList, if_pos hfast]
    rfl
  constructor
  · rw [isValid, ← isSome_map, hout]
    exact ⟨fun _ => compatible_of_allEqual heq, fun _ => rfl⟩
  · intro b hb
    rw [hb, map_some, some_inj] at hout
    rw [hout, numpyShape_of_allEqual heq]

theorem isValid_slow (hslow : (allEqual x && fewer) = false) :
    isValid x fewer batches = true ↔ Accepts x := by
  by_cases h : Accepts x
  · rw [isValid, ← isSome_map, output_slow batches hslow h]
    exact ⟨fun _ => h, fun _ => rfl⟩
  · rw [isValid, bcastList_slow_none hslow h]
    exact ⟨fun h => absurd h Bool.false_ne_true, fun h' => absurd h' h⟩

theorem accepts_iff_compatible (hnonneg : ∀ i, ∀ d ∈ x i, 0 ≤ d) (hlt : ∀ j, numpyDim x j < 2 ^ 31) :
    Accepts x ↔ Compatible x := by
  have hcast : ∀ j d ds, nonOnes x j = d :: ds → toInt32 d = d := by
    intro j d ds h
    have hd : numpyDim x j = d := by
      rw [numpyDim, h]
      rfl
    exact toInt32_of_lt (hd ▸ numpyDim_nonneg hnonneg j) (hd ▸ hlt j)
  rw [compatible_iff]
  constructor
  · intro h j d ds heq c hc
    rw [h j d ds heq c hc, hcast j d ds heq]
  · intro h j d ds heq c hc
    rw [h j d ds heq c hc, hcast j d ds heq]

theorem output_eq_numpyShape {b : BCastList (n + 1)} (hnonneg : ∀ i, ∀ d ∈ x i, 0 ≤ d)
    (hlt : ∀ j, numpyDim x j < 2 ^ 31) (hb : bcastList x fewer batches = some b) :
    b.output = numpyShape x := by
  cases hslow : allEqual x && fewer with
  | true => exact (agrees_of_fast hslow).2 b hb
  | false =>
    have hacc : Accepts x := (isValid_slow hslow).mp (by rw [isValid, hb]; rfl)
    have hout := output_slow batches hslow hacc
    rw [hb, map_some, some_inj] at hout
    rw [hout, numpyShape]
    apply congrArg reverse
    apply map_congr_left
    intro j _
    exact toInt32_of_lt (numpyDim_nonneg hnonneg j) (hlt j)

/-- In the slow path the output is the common shape only if all of its dimensions fit. -/
theorem numpyDim_lt_of_output (hout : ((List.range (largestRank x)).map fun j =>
    toInt32 (numpyDim x j)).reverse = numpyShape x) (j : Nat) : numpyDim x j < 2 ^ 31 := by
  by_cases hj : j < largestRank x
  · rw [numpyShape, reverse_inj] at hout
    have heq := map_inj_left.mp hout j (mem_range.mpr hj)
    rw [← heq]
    exact toInt32_lt _
  · rw [numpyDim, nonOnes_of_le (not_lt.mp hj)]
    decide

theorem agreesWithNumpy_iff (hnonneg : ∀ i, ∀ d ∈ x i, 0 ≤ d) :
    AgreesWithNumpy x fewer batches ↔ FitsInt x fewer := by
  cases hslow : allEqual x && fewer with
  | true => exact ⟨fun _ => .inl hslow, fun _ => agrees_of_fast hslow⟩
  | false =>
    constructor
    · intro ⟨hvalid, hshape⟩
      by_cases hacc : Accepts x
      · obtain ⟨b, hb, hout⟩ := Option.map_eq_some_iff.mp (output_slow batches hslow hacc)
        exact .inr (.inl (numpyDim_lt_of_output (hout.symm.trans (hshape b hb))))
      · refine .inr (.inr ⟨fun hc => hacc ?_, hacc⟩)
        exact (isValid_slow hslow).mp (hvalid.mpr hc)
    · intro h
      rcases h with h | h | h
      · rw [hslow] at h
        cases h
      · rw [AgreesWithNumpy, isValid_slow hslow]
        exact ⟨accepts_iff_compatible hnonneg h, fun b hb => output_eq_numpyShape hnonneg h hb⟩
      · rw [AgreesWithNumpy, isValid_slow hslow, bcastList_slow_none hslow h.2]
        exact ⟨⟨fun hacc => absurd hacc h.2, fun hc => absurd hc h.1⟩, nofun⟩

theorem agreesWithNumpy_iff_outer :
    AgreesWithNumpy ![[2, 1], [3]] true false ↔ FitsInt ![[2, 1], [3]] true :=
  agreesWithNumpy_iff (by decide)

/-- The shapes `[2 ^ 31]` and `[1]` are broadcast to a negative dimension. -/
theorem not_agreesWithNumpy_of_large : ¬ AgreesWithNumpy ![[2 ^ 31], [1]] true false := by
  intro ⟨_, hshape⟩
  have hout : (bcastList ![[2 ^ 31], [1]] true false).map BCastList.output = some [-2 ^ 31] := by
    decide +kernel
  obtain ⟨b, hb, hneg⟩ := Option.map_eq_some_iff.mp hout
  have hpos : numpyShape ![[2 ^ 31], [1]] = [2 ^ 31] := by decide +kernel
  have heq : [-2 ^ 31] = ([2 ^ 31] : Vec) := by rw [← hneg, hshape b hb, hpos]
  exact absurd heq (by decide)

end Constructor

end TfReading.BCast
