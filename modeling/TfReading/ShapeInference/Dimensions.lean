import TfReading.Util.Overflow

/-!
# `core/framework/shape_inference.cc`: arithmetic on dimensions

A dimension is known, and then an `int64` that is not negative, or it is unknown.
-/

namespace TfReading.ShapeInference

open Util

@[grind] def kUnknownDim : Int := -1

/-- `id` is the handle of the dimension. -/
structure Dimension where
  id : Nat
  value : Int
  le_value : kUnknownDim ≤ value
  value_lt : value < 2 ^ 63

/-- As a result, `constant` is a new dimension of that value. -/
inductive DimensionOrConstant
  | dim (d : Dimension)
  | constant (val : Int)

open DimensionOrConstant

@[grind] def DimensionOrConstant.value : DimensionOrConstant → Int
  | dim d => d.value
  | constant val => val

@[grind] def DimensionOrConstant.isUnknownDim : DimensionOrConstant → Bool
  | dim d => d.value = kUnknownDim
  | constant _ => false

@[grind] def unknownDim : DimensionOrConstant := constant kUnknownDim

def divide (dividend : Dimension) (divisor : DimensionOrConstant) (evenlyDivisible : Bool) :
    Except String DimensionOrConstant :=
  let divisorValue := divisor.value
  let v := dividend.value
  if divisorValue = 1 then .ok (dim dividend)
  else if v = kUnknownDim ∨ divisor.isUnknownDim then .ok unknownDim
  else if divisorValue ≤ 0 then
    .error ("Divisor must be positive but is " ++ toString divisorValue)
  else if evenlyDivisible ∧ v.tmod divisorValue ≠ 0 then
    .error ("Dimension size must be evenly divisible by " ++ toString divisorValue ++
      " but is " ++ toString v)
  else .ok (constant (v.tdiv divisorValue))

def add (first : Dimension) (second : DimensionOrConstant) :
    Except String DimensionOrConstant :=
  let firstValue := first.value
  let secondValue := second.value
  if firstValue = 0 then .ok second
  else if secondValue = 0 then .ok (dim first)
  else if firstValue = kUnknownDim ∨ secondValue = kUnknownDim then .ok unknownDim
  else
    let sum := toInt64 (firstValue + secondValue)
    if sum < 0 then
      .error ("Dimension size overflow from adding " ++ toString firstValue ++ " and " ++
        toString secondValue)
    else .ok (constant sum)

def subtract (first : Dimension) (second : DimensionOrConstant) :
    Except String DimensionOrConstant :=
  let firstValue := first.value
  let secondValue := second.value
  if secondValue = 0 then .ok (dim first)
  else if firstValue = kUnknownDim ∨ secondValue = kUnknownDim then .ok unknownDim
  else if firstValue < secondValue then
    .error ("Negative dimension size caused by subtracting " ++ toString secondValue ++
      " from " ++ toString firstValue)
  else .ok (constant (firstValue - secondValue))

def multiply (first : Dimension) (second : DimensionOrConstant) :
    Except String DimensionOrConstant :=
  let firstValue := first.value
  let secondValue := second.value
  if firstValue = 0 then .ok (dim first)
  else if secondValue = 0 then .ok second
  else if firstValue = 1 then .ok second
  else if secondValue = 1 then .ok (dim first)
  else if firstValue = kUnknownDim ∨ secondValue = kUnknownDim then .ok unknownDim
  else
    let product := toInt64 (firstValue * secondValue)
    if product < 0 then
      .error ("Negative dimension size caused by overflow when multiplying " ++
        toString firstValue ++ " and " ++ toString secondValue)
    else .ok (constant product)

def min (first : Dimension) (second : DimensionOrConstant) :
    Except String DimensionOrConstant :=
  let firstValue := first.value
  let secondValue := second.value
  if firstValue = 0 then .ok (dim first)
  else if secondValue = 0 then .ok second
  else if firstValue = kUnknownDim ∨ secondValue = kUnknownDim then .ok unknownDim
  else if firstValue ≤ secondValue then .ok (dim first)
  else .ok second

def max (first : Dimension) (second : DimensionOrConstant) :
    Except String DimensionOrConstant :=
  let firstValue := first.value
  let secondValue := second.value
  if firstValue = kUnknownDim ∨ secondValue = kUnknownDim then .ok unknownDim
  else if firstValue ≥ secondValue then .ok (dim first)
  else .ok second

/-! ## What the operations compute -/

inductive Operation
  | add | subtract | multiply | min | max | divide (evenlyDivisible : Bool)

namespace Operation

def run (first : Dimension) (second : DimensionOrConstant) :
    Operation → Except String DimensionOrConstant
  | add => ShapeInference.add first second
  | subtract => ShapeInference.subtract first second
  | multiply => ShapeInference.multiply first second
  | min => ShapeInference.min first second
  | max => ShapeInference.max first second
  | divide evenlyDivisible => ShapeInference.divide first second evenlyDivisible

/-- The result for the actual values, in unbounded integers. -/
@[grind] def exact (a b : Nat) : Operation → Int
  | add => a + b
  | subtract => a - b
  | multiply => a * b
  | min => Min.min a b
  | max => Max.max a b
  | divide _ => a / b

/-- The exact result is no dimension. -/
@[grind] def Undefined (a b : Nat) : Operation → Prop
  | divide evenlyDivisible => b = 0 ∨ evenlyDivisible = true ∧ a % b ≠ 0
  | op => op.exact a b < 0 ∨ 2 ^ 63 ≤ op.exact a b

/-- The product wraps around to a value that is not negative. -/
def Wraps (first : Dimension) (second : DimensionOrConstant) (op : Operation) : Prop :=
  op = multiply ∧ 2 ^ 64 ≤ first.value * second.value ∧
    first.value * second.value % 2 ^ 64 < 2 ^ 63

/-- What a result says about the actual values of the operands. -/
@[grind] def Sound (first : Dimension) (second : DimensionOrConstant) (a b : Nat) (op : Operation) :
    Except String DimensionOrConstant → Prop
  | .ok out => out.value = kUnknownDim ∨ out.value = op.exact a b
  | .error _ => first.value ≠ kUnknownDim ∧ second.value ≠ kUnknownDim ∧ op.Undefined a b

end Operation

theorem toInt64_cases {n : Int} (h0 : 0 ≤ n) (h : n < 2 ^ 64 ∨ 2 ^ 63 ≤ n % 2 ^ 64) :
    n < 2 ^ 63 ∧ toInt64 n = n ∨ 2 ^ 63 ≤ n ∧ toInt64 n < 0 := by
  rw [toInt64, Int.bmod_def]
  omega

section Sound

variable {first : Dimension} {second : DimensionOrConstant} {a b : Nat}
  (ha : first.value = kUnknownDim ∨ first.value = a)
  (hb : second.value = kUnknownDim ∨ second.value = b)

include ha hb

theorem subtract_sound : Operation.Sound first second a b .subtract (subtract first second) := by
  unfold subtract
  grind

theorem min_sound : Operation.Sound first second a b .min (min first second) := by
  unfold min
  grind

theorem max_sound : Operation.Sound first second a b .max (max first second) := by
  unfold max
  grind

theorem add_sound (hlt : second.value < 2 ^ 63) :
    Operation.Sound first second a b .add (add first second) := by
  have hfirst := first.value_lt
  -- Two summands below `2 ^ 63` wrap around once at most, to a negative sum.
  have hsum (h0 : 0 ≤ first.value + second.value) := toInt64_cases h0 (.inl (by omega))
  unfold add
  grind

theorem multiply_sound (h : ¬Operation.Wraps first second .multiply) :
    Operation.Sound first second a b .multiply (multiply first second) := by
  have hwrap : first.value * second.value < 2 ^ 64 ∨
      2 ^ 63 ≤ first.value * second.value % 2 ^ 64 := by
    simp only [Operation.Wraps, true_and] at h
    omega
  have hproduct (h1 : 0 ≤ first.value) (h2 : 0 ≤ second.value) :=
    toInt64_cases (Int.mul_nonneg h1 h2) hwrap
  unfold multiply
  grind

theorem multiply_not_sound (hlt : second.value < 2 ^ 63)
    (h : Operation.Wraps first second .multiply) :
    ¬Operation.Sound first second a b .multiply (multiply first second) := by
  obtain ⟨-, hwrap, hsign⟩ := h
  have hfirst := first.value_lt
  have hproduct : toInt64 (first.value * second.value) = first.value * second.value % 2 ^ 64 :=
    Int.bmod_eq_emod_of_lt hsign
  unfold multiply
  grind

theorem divide_sound (evenlyDivisible : Bool)
    (hsecond : second.isUnknownDim = true ↔ second.value = kUnknownDim) :
    Operation.Sound first second a b (.divide evenlyDivisible)
      (divide first second evenlyDivisible) := by
  unfold divide
  by_cases hknown : first.value = kUnknownDim ∨ second.value = kUnknownDim
  · grind
  · grind

end Sound

/-- For all actual values `a` and `b` of the operands, an operation returns the unknown dimension
or the exact result and fails only where there is none, unless it wraps around. -/
theorem dimension_arithmetic_sound_iff (first : Dimension) (second : DimensionOrConstant)
    (hconstant : ∀ val, second = constant val → 0 ≤ val ∧ val < 2 ^ 63) (a b : Nat)
    (ha : first.value = kUnknownDim ∨ first.value = a)
    (hb : second.value = kUnknownDim ∨ second.value = b) (op : Operation) :
    op.Sound first second a b (op.run first second) ↔ ¬op.Wraps first second := by
  have hlt : second.value < 2 ^ 63 := by
    cases second with
    | dim d => exact d.value_lt
    | constant val => exact (hconstant val rfl).2
  refine ⟨fun hsound hwrap => ?_, fun hwrap => ?_⟩
  · obtain rfl := hwrap.1
    exact multiply_not_sound ha hb hlt hwrap hsound
  cases op with
  | add => exact add_sound ha hb hlt
  | subtract => exact subtract_sound ha hb
  | multiply => exact multiply_sound ha hb hwrap
  | min => exact min_sound ha hb
  | max => exact max_sound ha hb
  | divide evenlyDivisible =>
    refine divide_sound ha hb evenlyDivisible ?_
    cases second with
    | dim d => exact decide_eq_true_iff
    | constant val =>
      grind

theorem dimension_arithmetic_sound_six_times_seven :
    Operation.Sound ⟨0, 6, by decide, by decide⟩ (constant 7) 6 7 .multiply
      (multiply ⟨0, 6, by decide, by decide⟩ (constant 7)) :=
  (dimension_arithmetic_sound_iff _ _ (by rintro _ ⟨⟩; decide) 6 7 (.inr rfl) (.inr rfl)
    .multiply).mpr fun h => absurd h.2.1 (by decide)

/-- The product of `2 ^ 32` and `2 ^ 32` is inferred to be `0`: only the sign of the wrapped
product is checked. -/
theorem multiply_two_pow_32 :
    let first : Dimension := ⟨0, 2 ^ 32, by decide, by decide⟩
    multiply first (constant (2 ^ 32)) = .ok (constant 0) ∧
      ¬Operation.Sound first (constant (2 ^ 32)) (2 ^ 32) (2 ^ 32) .multiply
        (multiply first (constant (2 ^ 32))) := by
  refine ⟨rfl, ?_⟩
  show ¬((0 : Int) = -1 ∨ (0 : Int) = 2 ^ 32 * 2 ^ 32)
  decide

end TfReading.ShapeInference
