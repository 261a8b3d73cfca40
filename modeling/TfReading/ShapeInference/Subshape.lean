import TfReading.Util.Overflow

/-!
# `InferenceContext::Subshape` of `core/framework/shape_inference.cc`

A shape of unknown rank is `none`.  The arguments are `int64`, but the loop counts with an `int`.
-/

namespace TfReading.ShapeInference

open Util

/-- How a call can end other than by returning a status. -/
inductive SubshapeFault
  | outOfBounds
  /-- The loop is not over after the turns it was given. -/
  | looping
deriving DecidableEq

variable {α : Type}

/-- `Dim`, where a negative index is converted to a `size_t` in the sum. -/
def dimAt (dims : List α) (i : Int) : Except SubshapeFault α :=
  match dims[((if i < 0 then dims.length + i else i) % 2 ^ 64).toNat]? with
  | some d => .ok d
  | none => .error .outOfBounds

abbrev InRange (last stride i : Int) : Prop := if 0 < stride then i < last else last < i

def subshapeLoop (dims : List α) (last stride : Int) :
    Nat → Int → Except SubshapeFault (List α)
  | 0, _ => .error .looping
  | turns + 1, i =>
    if InRange last stride i then do
      let d ← dimAt dims i
      let ds ← subshapeLoop dims last stride turns (toInt32 (i + stride))
      return d :: ds
    else .ok []

def clampStart (rank start stride : Int) : Int :=
  let start := if rank < start then rank else start
  let start := if stride < 0 ∧ start = rank then start - 1 else start
  if start < 0 then rank + start else start

def clampEnd (rank stop : Int) : Int :=
  let stop := if rank < stop then rank else stop
  if stop < 0 then rank + stop else stop

def subshape (turns : Nat) (s : Option (List α)) (start stop stride : Int) :
    Except SubshapeFault (Except String (Option (List α))) :=
  match s with
  | none => .ok (.ok none)
  | some dims =>
    let rank : Int := dims.length
    let first := clampStart rank start stride
    let last := clampEnd rank stop
    let computed := toString first ++ " and " ++ toString last ++ " (computed from start " ++
      toString start ++ " and end " ++ toString stop ++ " over shape with rank " ++ toString rank
    if start = 0 ∧ stride = 1 ∧ (rank ≤ stop ∨ stop = 2 ^ 63 - 1) then .ok (.ok s)
    else if first < 0 then
      .ok (.error ("Subshape start out of bounds: " ++ toString start ++ ", for shape with rank " ++
        toString rank))
    else if last < 0 then
      .ok (.error ("Subshape end out of bounds: " ++ toString stop ++ ", for shape with rank " ++
        toString rank))
    else if 0 < stride ∧ last < first then
      .ok (.error ("Subshape must have computed start <= end, but is " ++ computed ++ ")"))
    else if stride < 0 ∧ first < last then
      .ok (.error ("Subshape must have computed start >= end since stride is negative, but is " ++
        computed ++ " and stride" ++ toString stride ++ ")"))
    else do
      let ds ← subshapeLoop dims last stride turns first
      return .ok (some ds)

/-! ## What is selected -/

/-- `ds` are the dimensions at `i`, `i + stride` and so on, as far as these are in range. -/
structure Selects (dims : List α) (last stride i : Int) (ds : List α) : Prop where
  range : ∀ k : Nat, InRange last stride (i + k * stride) ↔ k < ds.length
  get : ∀ k < ds.length, 0 ≤ i + k * stride ∧ dims[(i + k * stride).toNat]? = ds[k]?

variable {dims ds : List α} {last stride i start stop : Int} {turns : Nat}

theorem not_inRange_add (hstride : stride ≠ 0) (h : ¬InRange last stride i) (k : Nat) :
    ¬InRange last stride (i + k * stride) := by
  rw [InRange] at h ⊢
  rcases Int.lt_or_lt_of_ne hstride with hneg | hpos
  · have hk : k * stride ≤ 0 := Int.mul_nonpos_of_nonneg_of_nonpos (Int.natCast_nonneg k) (Int.le_of_lt hneg)
    rw [if_neg (Int.lt_asymm hneg)] at h ⊢
    omega
  · have hk : 0 ≤ k * stride := Int.mul_nonneg (Int.natCast_nonneg k) (Int.le_of_lt hpos)
    rw [if_pos hpos] at h ⊢
    omega

theorem add_succ_mul (i stride : Int) (k : Nat) :
    i + ((k + 1 : Nat) : Int) * stride = i + stride + k * stride := by
  rw [Int.natCast_succ, Int.add_mul, Int.one_mul]
  omega

theorem add_zero_mul (i stride : Int) : i + ((0 : Nat) : Int) * stride = i := by
  rw [Int.natCast_zero, Int.zero_mul, Int.add_zero]

theorem Selects.nil (hstride : stride ≠ 0) (h : ¬InRange last stride i) :
    Selects dims last stride i [] :=
  ⟨fun k => iff_of_false (not_inRange_add hstride h k) (Nat.not_lt_zero k), nofun⟩

theorem selects_cons_iff {d : α} (hrange : InRange last stride i) (hi : 0 ≤ i)
    (hget : dims[i.toNat]? = some d) :
    Selects dims last stride i (d :: ds) ↔ Selects dims last stride (i + stride) ds := by
  refine ⟨fun h => ⟨fun k => ?_, fun k hk => ?_⟩, fun h => ⟨fun k => ?_, fun k hk => ?_⟩⟩
  · rw [← add_succ_mul, h.range, List.length_cons, Nat.succ_lt_succ_iff]
  · rw [← add_succ_mul]
    exact h.get (k + 1) (Nat.succ_lt_succ hk)
  · cases k with
    | zero =>
      rw [add_zero_mul]
      exact iff_of_true hrange (Nat.succ_pos _)
    | succ k => rw [add_succ_mul, h.range, List.length_cons, Nat.succ_lt_succ_iff]
  · cases k with
    | zero =>
      rw [add_zero_mul]
      exact ⟨hi, hget⟩
    | succ k =>
      rw [add_succ_mul]
      exact h.get k (Nat.lt_of_succ_lt_succ hk)

/-- The counter, which is an `int`, leaves the range when the index does. -/
def LeavesRange (last stride i : Int) : Prop :=
  ∀ k : Nat, InRange last stride (i + k * stride) →
    InRange last stride (toInt32 (i + k * stride + stride)) →
    InRange last stride (i + k * stride + stride)

theorem leavesRange_of_not (hstride : stride ≠ 0) (h : ¬InRange last stride i) :
    LeavesRange last stride i :=
  fun k hk => absurd hk (not_inRange_add hstride h k)

theorem leavesRange_iff (hrange : InRange last stride i) : LeavesRange last stride i ↔
    (InRange last stride (toInt32 (i + stride)) → InRange last stride (i + stride)) ∧
      LeavesRange last stride (i + stride) := by
  refine ⟨fun h => ⟨?_, fun k => ?_⟩, fun h k => ?_⟩
  · simpa only [add_zero_mul, hrange, true_imp_iff] using h 0
  · rw [← add_succ_mul]
    exact h (k + 1)
  · cases k with
    | zero =>
      rw [add_zero_mul]
      exact fun _ => h.1
    | succ k =>
      rw [add_succ_mul]
      exact h.2 k

theorem dimAt_eq (hi : 0 ≤ i) (hlt : i < dims.length) (hfit : dims.length < 2 ^ 31) :
    ∃ d, dimAt dims i = .ok d ∧ dims[i.toNat]? = some d := by
  have hget : dims[i.toNat]? = some dims[i.toNat] := List.getElem?_eq_getElem (by omega)
  refine ⟨_, ?_, hget⟩
  rw [dimAt, if_neg (by omega), Int.emod_eq_of_lt hi (by omega), hget]

theorem subshapeLoop_nil_iff (dims : List α) (hturns : 0 < turns) :
    subshapeLoop dims last stride turns i = .ok [] ↔ ¬InRange last stride i := by
  obtain ⟨turns, rfl⟩ := Nat.exists_eq_succ_of_ne_zero (Nat.ne_of_gt hturns)
  rw [subshapeLoop]
  split
  next hrange =>
    refine iff_of_false ?_ (not_not_intro hrange)
    cases dimAt dims i with
    | error => nofun
    | ok d =>
      cases subshapeLoop dims last stride turns (toInt32 (i + stride)) <;> nofun
  next hrange => exact iff_of_true rfl hrange

/-- The distance to the end bounds the turns. -/
theorem subshapeLoop_selects_iff (turns : Nat) (hstride : stride ≠ 0) (hfit : dims.length < 2 ^ 31)
    (hlast : 0 ≤ last ∧ last ≤ dims.length) (hlo : 0 < stride → 0 ≤ i)
    (hhi : stride < 0 → i < dims.length)
    (hturns : (if 0 < stride then last - i else i - last).toNat < turns) :
    (∃ ds, subshapeLoop dims last stride turns i = .ok ds ∧ Selects dims last stride i ds) ↔
      LeavesRange last stride i := by
  induction turns generalizing i with
  | zero => cases hturns
  | succ turns ih =>
    rw [subshapeLoop]
    split
    next hrange =>
      have hin {i : Int} (hlo : 0 < stride → 0 ≤ i) (hhi : stride < 0 → i < dims.length)
          (h : InRange last stride i) : 0 ≤ i ∧ i < dims.length := by
        rw [InRange] at h
        split at h <;> omega
      obtain ⟨hi, hlt⟩ := hin hlo hhi hrange
      obtain ⟨d, hd, hget⟩ := dimAt_eq hi hlt hfit
      have hloop : (∃ ds, (do
            let d ← dimAt dims i
            let ds ← subshapeLoop dims last stride turns (toInt32 (i + stride))
            return d :: ds) = Except.ok ds ∧ Selects dims last stride i ds) ↔
          ∃ ds, subshapeLoop dims last stride turns (toInt32 (i + stride)) = .ok ds ∧
            Selects dims last stride (i + stride) ds := by
        rw [hd]
        cases subshapeLoop dims last stride turns (toInt32 (i + stride)) with
        | error => exact iff_of_false (fun h => by simp [bind, Except.bind] at h) (by simp)
        | ok ds =>
          simp [bind, Except.bind, pure, Except.pure, selects_cons_iff hrange hi hget]
      rw [hloop, leavesRange_iff hrange]
      by_cases hnext : InRange last stride (i + stride)
      · obtain ⟨hi', hlt'⟩ := hin (i := i + stride) (by omega) (by omega) hnext
        rw [toInt32_of_lt hi' (by omega), ih (by omega) (by omega) (by grind)]
        simp [hnext]
      · rw [and_iff_left (leavesRange_of_not hstride hnext)]
        simp only [hnext, imp_false]
        have hpos : 0 < turns := by grind
        rw [← subshapeLoop_nil_iff dims hpos]
        refine ⟨?_, fun hnil => ⟨[], hnil, .nil hstride hnext⟩⟩
        rintro ⟨ds, hds, hsel⟩
        have hzero := hsel.range 0
        rw [add_zero_mul] at hzero
        rwa [show ds = [] by simpa [hnext] using hzero] at hds
    next hrange =>
      exact iff_of_true ⟨[], rfl, .nil hstride hrange⟩ (leavesRange_of_not hstride hrange)

theorem selects_all : Selects dims dims.length 1 0 dims := by
  refine ⟨fun k => ?_, fun k _ => ?_⟩
  · rw [InRange, if_pos Int.one_pos]
    omega
  · rw [Int.mul_one, Int.zero_add, Int.toNat_natCast]
    exact ⟨Int.natCast_nonneg k, rfl⟩

/-- With enough turns the call returns and selects what it should, if and only if one of the bounds
is an error or the counter leaves the range when the index does. -/
theorem subshape_selects_iff (hstride : stride ≠ 0) (hfit : dims.length < 2 ^ 31)
    (hturns : dims.length < turns) :
    (∃ result, subshape turns (some dims) start stop stride = .ok result ∧ ∀ s, result = .ok s →
      ∃ ds, s = some ds ∧ Selects dims (clampEnd dims.length stop) stride
        (clampStart dims.length start stride) ds) ↔
    clampStart dims.length start stride < 0 ∨ clampEnd dims.length stop < 0 ∨
      LeavesRange (clampEnd dims.length stop) stride (clampStart dims.length start stride) := by
  have hlast : clampEnd dims.length stop ≤ dims.length := by
    simp only [clampEnd]
    split <;> omega
  have hneg : stride < 0 → clampStart dims.length start stride < dims.length := by
    simp only [clampStart]
    split <;> split <;> omega
  have hloop (h0 : 0 ≤ clampStart dims.length start stride) (h1 : 0 ≤ clampEnd dims.length stop) :=
    subshapeLoop_selects_iff turns hstride hfit ⟨h1, hlast⟩ (fun _ => h0) hneg (by grind)
  rw [subshape]
  split
  next hall =>
    obtain ⟨rfl, rfl, hstop⟩ := hall
    have hstart : clampStart dims.length 0 1 = 0 := by
      simp only [clampStart]
      split <;> omega
    have hend : clampEnd dims.length stop = dims.length := by
      simp only [clampEnd]
      split <;> omega
    rw [hstart, hend]
    refine iff_of_true ⟨_, rfl, fun s hs => ⟨dims, (Except.ok.inj hs).symm, ?_⟩⟩ ?_
    · exact selects_all
    · refine .inr (.inr fun k hk => ?_)
      rw [toInt32_of_lt (by omega) (by rw [InRange, if_pos Int.one_pos] at hk; omega)]
      exact id
  · split
    next hstart => exact iff_of_true ⟨_, rfl, nofun⟩ (.inl hstart)
    next hstart =>
      split
      next hend => exact iff_of_true ⟨_, rfl, nofun⟩ (.inr (.inl hend))
      next hend =>
        rw [or_iff_right hstart, or_iff_right hend]
        split
        next h =>
          refine iff_of_true ⟨_, rfl, nofun⟩ (leavesRange_of_not hstride ?_)
          grind
        · split
          next h =>
            refine iff_of_true ⟨_, rfl, nofun⟩ (leavesRange_of_not hstride ?_)
            grind
          · rw [← hloop (by omega) (by omega)]
            cases subshapeLoop dims (clampEnd dims.length stop) stride turns
              (clampStart dims.length start stride) with
            | error => simp [bind, Except.bind]
            | ok ds => simp [bind, Except.bind, pure, Except.pure]

theorem subshape_selects_reversed :
    ∃ result, subshape 3 (some ['a', 'b']) (-1) 0 (-1) = .ok result ∧ ∀ s, result = .ok s →
      ∃ ds, s = some ds ∧ Selects ['a', 'b'] 0 (-1) 1 ds :=
  (subshape_selects_iff (by decide) (by decide) (by decide)).mpr <| .inr <| .inr fun k hk hnext => by
    have hk : 0 < 1 + k * (-1 : Int) := hk
    obtain rfl : k = 0 := by omega
    exact absurd hnext (by decide)

/-- The counter of the loop stays where it is. -/
theorem subshape_endless : toInt32 (0 + 2 ^ 32) = 0 ∧
    ∀ turns : Nat, subshape turns (some ['a']) 0 1 (2 ^ 32) = .error .looping := by
  have hwrap : toInt32 (0 + 2 ^ 32) = 0 := by decide
  have hloop (turns : Nat) : subshapeLoop ['a'] 1 (2 ^ 32) turns 0 = .error .looping := by
    induction turns with
    | zero => rfl
    | succ turns ih =>
      rw [subshapeLoop, if_pos (by decide), hwrap, ih]
      rfl
  refine ⟨hwrap, fun turns => ?_⟩
  have hcall : subshape turns (some ['a']) 0 1 (2 ^ 32) =
      subshapeLoop ['a'] 1 (2 ^ 32) turns 0 >>= fun ds => .ok (.ok (some ds)) := rfl
  rw [hcall, hloop]
  rfl

end TfReading.ShapeInference
