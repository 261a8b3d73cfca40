import TfReading.Library.Runs
import TfReading.TensorShape.Status

/-!
# Programs over shapes

A program constructs shapes, changes them and copies them between variables.  Beside it runs the
same program on plain lists of sizes.
-/

namespace TfReading.TensorShape

open Util List Function

variable {k : Bool} {l : List Int} {s : TensorShapeRep}

/-! ## Construction -/

theorem prod_le_pow {b : Int} (hb : 1 ≤ b) {n : Nat} (hl : ∀ v ∈ l, 0 ≤ v ∧ v ≤ b)
    (hlen : l.length ≤ n) : l.prod ≤ b ^ n := by
  induction l generalizing n with
  | nil =>
    exact one_le_pow₀ hb
  | cons v l ih =>
    cases n with
    | zero => cases hlen
    | succ =>
      have hv := hl v mem_cons_self
      have hrest : ∀ u ∈ l, 0 ≤ u ∧ u ≤ b := fun u hu => hl u (mem_cons_of_mem v hu)
      rw [prod_cons, pow_succ']
      exact mul_le_mul hv.2 (ih hrest (Nat.le_of_succ_le_succ hlen))
        (prod_nonneg fun u hu => (hrest u hu).1) (by omega)

/-- Products of up to four small sizes fit, as the constructor asserts. -/
theorem fitsInt64_of_small (hlen : l.length ≤ 4) (hsmall : ∀ v ∈ l, v ≤ kMaxSmall) :
    FitsInt64 l := by
  intro p hp hnonneg
  have hle : p.prod ≤ kMaxSmall ^ 4 := by
    apply prod_le_pow (by decide)
    · intro v hv
      exact ⟨hnonneg v hv, hsmall v (hp.subset hv)⟩
    · exact le_trans hp.length_le hlen
  exact lt_of_le_of_lt hle (by decide)

/-- The fast path of `InitDims`. -/
theorem represents_of_small (hl : ∀ v ∈ l, Legal k v) (hlen : l.length ≤ 4)
    (hsmall : ∀ v ∈ l, v ≤ kMaxSmall) :
    Represents k
      ⟨.rep16 (Vector.ofFn fun d : Fin 6 => encode k 16 (l.getD d 0)), l.length,
        if l.any fun s => k && s < 0 then -1 else toInt64 l.prod⟩ l := by
  have hfit : FitsInt64 l := fitsInt64_of_small hlen hsmall
  constructor
  · refine ⟨rfl, ?_⟩
    show (if _ then _ else _) = _
    by_cases hneg : ∃ v ∈ l, v < 0
    · obtain ⟨v, hv, hlt⟩ := hneg
      rw [numElementsOf_of_neg hv hlt, if_pos]
      rw [any_eq_true]
      refine ⟨v, hv, ?_⟩
      rw [Bool.and_eq_true, decide_eq_true_iff]
      refine ⟨?_, hlt⟩
      by_contra hk
      exact absurd ((hl v hv).nonneg fun hc => hk hc.1) (Int.not_le.mpr hlt)
    · push Not at hneg
      have hprod : 0 ≤ l.prod := prod_nonneg hneg
      have hlt : l.prod < 2 ^ 63 := hfit l (prefix_refl l) hneg
      rw [numElementsOf_of_nonneg hneg, if_neg]
      · exact toInt64_of_lt (by omega) hlt
      · rw [any_eq_true]
        intro hc
        obtain ⟨v, hv, hlt⟩ := hc
        rw [Bool.and_eq_true, decide_eq_true_iff] at hlt
        exact absurd (hneg v hv) (Int.not_le.mpr hlt.2)
  · exact .of_legal (le_trans hlen (by decide)) hl hfit
  · exact hl
  · apply Packs.ofFn (le_trans hlen (by decide)) hl
    intro v hv
    exact lt_of_le_of_lt (hsmall v hv) (by decide)

theorem Represents.ofDimSizes (hl : ∀ v ∈ l, Legal k v)
    (h : ofDimSizes k l = some s) : Represents k s l := by
  unfold TensorShape.ofDimSizes initDims at h
  dsimp only at h
  split at h
  · cases h
  · split at h
    next hsmall =>
      cases h
      apply represents_of_small hl hsmall.2.2
      intro v hv
      by_contra hlt
      have hany : (l.any fun s => kMaxSmall < s) = true :=
        any_eq_true.mpr ⟨v, hv, decide_eq_true (Int.not_le.mp hlt)⟩
      rw [hany] at hsmall
      exact absurd hsmall.1 (by decide)
    · rw [checkOk_addDimsWithStatus] at h
      exact .rebuild hl h

/-! ## Programs -/

/-- A statement about the shapes in variables `x` and `y`. -/
inductive Op
  | construct (x : Nat) (sizes : List Int)
  | addDim (x : Nat) (size : Int)
  | insertDim (x : Nat) (d size : Int)
  | setDim (x : Nat) (d size : Int)
  | removeDimRange (x : Nat) (first last : Int)
  | clear (x : Nat)
  | copy (x y : Nat)
deriving DecidableEq

abbrev Store (α : Type) := Nat → Option α

def modify (σ : Store TensorShapeRep) (x : Nat) (f : TensorShapeRep → Option TensorShapeRep) :
    Option (Store TensorShapeRep) := do
  let s ← σ x
  let t ← f s
  return Function.update σ x (some t)

/-- One statement, where `none` says that a `CHECK` fails. -/
def Op.exec (kIsPartial : Bool) (σ : Store TensorShapeRep) : Op → Option (Store TensorShapeRep)
  | .construct x sizes => do
    let s ← ofDimSizes kIsPartial sizes
    return Function.update σ x (some s)
  | .addDim x size => modify σ x fun s => TensorShape.addDim kIsPartial s size
  | .insertDim x d size => modify σ x fun s => TensorShape.insertDim kIsPartial s d size
  | .setDim x d size => modify σ x fun s => TensorShape.setDim kIsPartial s d size
  | .removeDimRange x first last =>
    modify σ x fun s => TensorShape.removeDimRange kIsPartial s first last
  | .clear x => modify σ x fun _ => some TensorShape.clear
  | .copy x y => do
    let b ← σ y
    return Function.update σ x (some (copyFrom ((σ x).getD TensorShape.clear) b))

def Op.onLists (τ : Store (List Int)) : Op → Store (List Int)
  | .construct x sizes => Function.update τ x (some sizes)
  | .addDim x size => Function.update τ x ((τ x).map fun l => l ++ [size])
  | .insertDim x d size => Function.update τ x ((τ x).map fun l => l.insertIdx d.toNat size)
  | .setDim x d size => Function.update τ x ((τ x).map fun l => l.set d.toNat size)
  | .removeDimRange x first last =>
    Function.update τ x ((τ x).map fun l => removeRange l first last)
  | .clear x => Function.update τ x ((τ x).map fun _ => [])
  | .copy x y => Function.update τ x (τ y)

/-- The sizes in a statement are at least `0`, or also `-1` for partial shapes. -/
def Op.Legal (kIsPartial : Bool) : Op → Prop
  | .construct _ sizes => ∀ v ∈ sizes, TensorShape.Legal kIsPartial v
  | .addDim _ size => TensorShape.Legal kIsPartial size
  | .insertDim _ _ size => TensorShape.Legal kIsPartial size
  | .setDim _ _ size => TensorShape.Legal kIsPartial size
  | _ => True

instance (op : Op) : Decidable (op.Legal k) :=
  match op with
  | .construct _ sizes => inferInstanceAs (Decidable (∀ v ∈ sizes, TensorShape.Legal k v))
  | .addDim _ size | .insertDim _ _ size | .setDim _ _ size =>
    inferInstanceAs (Decidable (TensorShape.Legal k size))
  | .removeDimRange .. | .clear _ | .copy .. => .isTrue trivial

def run (kIsPartial : Bool) (ops : List Op) : Option (Store TensorShapeRep) :=
  ops.foldlM (Op.exec kIsPartial) fun _ => none

def runOnLists (ops : List Op) : Store (List Int) := ops.foldl Op.onLists fun _ => none

def StoreRepresents (kIsPartial : Bool) (σ : Store TensorShapeRep) (τ : Store (List Int)) : Prop :=
  ∀ x, Option.Rel (Represents kIsPartial) (σ x) (τ x)

variable {σ σ' : Store TensorShapeRep} {τ : Store (List Int)} {x y : Nat}

theorem StoreRepresents.update {t : TensorShapeRep} (h : StoreRepresents k σ τ)
    (ht : Represents k t l) :
    StoreRepresents k (update σ x (some t)) (update τ x (some l)) := by
  intro z
  by_cases hz : z = x
  · rw [hz, update_self, update_self]
    exact .some ht
  · rw [update_of_ne hz, update_of_ne hz]
    exact h z

theorem StoreRepresents.exists_of_some (h : StoreRepresents k σ τ)
    (hx : σ x = some s) : ∃ l, τ x = some l ∧ Represents k s l := by
  have hrel := h x
  rw [hx] at hrel
  generalize τ x = found at hrel
  cases hrel with
  | some hs => exact ⟨_, rfl, hs⟩

theorem StoreRepresents.modify {f : TensorShapeRep → Option TensorShapeRep}
    {g : List Int → List Int} (h : StoreRepresents k σ τ)
    (hf : ∀ s l t, Represents k s l → f s = some t → Represents k t (g l))
    (hrun : modify σ x f = some σ') :
    StoreRepresents k σ' (Function.update τ x ((τ x).map g)) := by
  obtain ⟨s, hσ, hrun⟩ := Option.bind_eq_some_iff.mp hrun
  obtain ⟨t, hfs, hrun⟩ := Option.bind_eq_some_iff.mp hrun
  obtain ⟨l, hτ, hs⟩ := h.exists_of_some hσ
  cases hrun
  rw [hτ]
  exact h.update (hf s l t hs hfs)

theorem copyFrom_eq (s b : TensorShapeRep) : copyFrom s b = b := by
  unfold copyFrom
  split
  next v hb => rw [← hb]
  · rfl

/-- Each statement keeps the variables in step with the lists. -/
theorem StoreRepresents.exec {op : Op} (h : StoreRepresents k σ τ)
    (hop : op.Legal k) (hrun : op.exec k σ = some σ') :
    StoreRepresents k σ' (op.onLists τ) := by
  cases op with
  | construct x sizes =>
    obtain ⟨s, hs, hrun⟩ := Option.bind_eq_some_iff.mp hrun
    cases hrun
    exact h.update (.ofDimSizes hop hs)
  | addDim => exact h.modify (fun s l t hs hadd => hs.addDim hop hadd) hrun
  | insertDim => exact h.modify (fun s l t hs hins => hs.insertDim hop hins) hrun
  | setDim => exact h.modify (fun s l t hs hset => hs.setDim hset) hrun
  | removeDimRange =>
    exact h.modify (fun s l t hs hrem => hs.removeDimRange hrem) hrun
  | clear =>
    apply h.modify _ hrun
    intro s l t _ ht
    cases ht
    exact .clear
  | copy x y =>
    obtain ⟨b, hσ, hrun⟩ := Option.bind_eq_some_iff.mp hrun
    obtain ⟨l, hτ, hb⟩ := h.exists_of_some hσ
    cases hrun
    rw [copyFrom_eq, Op.onLists, hτ]
    exact h.update hb

structure ReadsAs (kIsPartial : Bool) (s : TensorShapeRep) (l : List Int) : Prop where
  dims : dims kIsPartial s = l.length
  dimSize : ∀ (d : Nat) (v : Int), l[d]? = some v → dimSize kIsPartial s d = v
  numElements : s.numElements = if -1 ∈ l then -1 else l.prod
  numElements_lt : -1 ∉ l → l.prod < 2 ^ 63

theorem Represents.readsAs (h : Represents k s l) : ReadsAs k s l := by
  have hnonneg : -1 ∉ l → ∀ v ∈ l, 0 ≤ v := by
    intro hl v hv
    have hne : v ≠ -1 := fun heq => hl (heq ▸ hv)
    have hlegal := h.legal v hv
    rw [TensorShape.Legal] at hlegal
    split at hlegal <;> omega
  constructor
  · exact h.dims
  · intro d v hd
    exact h.dimSize hd
  · rw [h.numElements]
    split
    next hl => exact numElementsOf_of_neg hl (by decide)
    next hl => exact numElementsOf_of_nonneg (hnonneg hl)
  · intro hl
    exact h.buildable.fits l (prefix_refl l) (hnonneg hl)

/-- In a program in which no `CHECK` fails, every shape reads as the list that the same program
computes on plain lists, whichever representation it is in. -/
theorem run_readsAs (kIsPartial : Bool) (ops : List Op) (hlegal : ∀ op ∈ ops, op.Legal kIsPartial)
    (σ : Store TensorShapeRep) (hrun : run kIsPartial ops = some σ) (x : Nat)
    (s : TensorShapeRep) (hx : σ x = some s) :
    ∃ l, runOnLists ops x = some l ∧ ReadsAs kIsPartial s l := by
  have hσ : StoreRepresents kIsPartial σ (runOnLists ops) := by
    refine foldlM_simulates ?_ ?_ hrun
    · intro op hop σ₁ τ₁ σ₂ h hexec
      exact h.exec (hlegal op hop) hexec
    · intro z
      exact .none
  obtain ⟨l, hτ, hs⟩ := hσ.exists_of_some hx
  exact ⟨l, hτ, hs.readsAs⟩

/-- A program whose shapes go through all three representations. -/
def widening : List Op :=
  [.construct 0 [3, -1], .addDim 0 70000, .copy 1 0, .insertDim 1 0 (2 ^ 33), .setDim 0 1 5,
    .removeDimRange 1 (-3) (-2)]

theorem run_widening_isSome : (run true widening).isSome := by decide +kernel

theorem run_readsAs_widening :
    (∃ l, runOnLists widening 0 = some l ∧
      ReadsAs true ⟨.rep32 #v[3, 5, 70000], 3, 1050000⟩ l) ∧
    ∃ l, runOnLists widening 1 = some l ∧
      ReadsAs true ⟨.outOfLine [2 ^ 33, 3, 70000], 3, 2 ^ 33 * 210000⟩ l := by
  have hlegal : ∀ op ∈ widening, op.Legal true := by decide
  constructor
  · exact run_readsAs true widening hlegal _ (Option.some_get run_widening_isSome).symm 0 _
      (by decide +kernel)
  · exact run_readsAs true widening hlegal _ (Option.some_get run_widening_isSome).symm 1 _
      (by decide +kernel)

end TfReading.TensorShape
