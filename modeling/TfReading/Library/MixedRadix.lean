import Mathlib.Algebra.Order.BigOperators.GroupWithZero.List
import Mathlib.Tactic.Ring

/-!
# Mixed-radix positions

A position in an array is a number whose digits, in the radices of the array's dimensions, are
the indices.  Lists of dimensions here begin with the innermost one, the least significant
digit.

`strided` gives each dimension a stride of its own.  Two strided arrays over the same positions
agree everywhere if they agree on the unit indices of both (`strided_eq_of_units`).
-/

namespace TfReading.MixedRadix

open List Nat

/-! ## Digits -/

def digits : List Nat → Nat → List Nat
  | [], _ => []
  | d :: ds, p => p % d :: digits ds (p / d)

def value : List Nat → List Nat → Nat
  | d :: ds, i :: is => i + d * value ds is
  | _, _ => 0

def InBounds (ds is : List Nat) : Prop := List.Forall₂ (fun d i => i < d) ds is

variable {ds es is js : List Nat} {p q : Nat}

theorem length_digits : (digits ds p).length = ds.length := by
  induction ds generalizing p with
  | nil => rfl
  | cons d ds ih => rw [digits, length_cons, length_cons, ih]

theorem digits_zero : digits ds 0 = replicate ds.length 0 := by
  induction ds with
  | nil => rfl
  | cons d ds ih => rw [digits, Nat.zero_mod, Nat.zero_div, ih, length_cons, replicate_succ]

theorem value_digits (hp : p < ds.prod) : value ds (digits ds p) = p := by
  induction ds generalizing p with
  | nil => exact (Nat.lt_one_iff.mp hp).symm
  | cons d ds ih =>
    rw [digits, value, ih (Nat.div_lt_of_lt_mul hp)]
    exact Nat.mod_add_div p d

theorem digits_inBounds (hp : p < ds.prod) : InBounds ds (digits ds p) := by
  induction ds generalizing p with
  | nil => exact .nil
  | cons d ds ih =>
    rw [prod_cons] at hp
    have hd : 0 < d := Nat.pos_of_ne_zero fun h => by rw [h, Nat.zero_mul] at hp; omega
    exact .cons (Nat.mod_lt p hd) (ih (Nat.div_lt_of_lt_mul hp))

theorem value_lt (h : InBounds ds is) : value ds is < ds.prod := by
  induction h with
  | nil => exact one_pos
  | @cons d i ds is hi _ ih =>
    calc i + d * value ds is < d + d * value ds is := by omega
      _ = d * (value ds is + 1) := by ring
      _ ≤ d * ds.prod := mul_le_mul_left d ih

theorem digits_value (h : InBounds ds is) : digits ds (value ds is) = is := by
  induction h with
  | nil => rfl
  | @cons d i ds is hi _ ih =>
    have hd : 0 < d := by omega
    rw [value, digits, add_mul_mod_self_left, mod_eq_of_lt hi,
      add_mul_div_left _ _ hd, div_eq_of_lt hi, zero_add, ih]

/-! ## Strides -/

/-- The number with the digits of `p`, where each dimension has its own stride. -/
def strided : List (Nat × Nat) → Nat → Nat
  | [], _ => 0
  | (d, s) :: t, p => p % d * s + strided t (p / d)

def extent (l : List (Nat × Nat)) : Nat := (l.map Prod.fst).prod

variable {l l' as bs : List (Nat × Nat)} {a b s t c : Nat} {f : Nat → Nat}

theorem extent_cons : extent ((a, s) :: l) = a * extent l := rfl

theorem strided_zero : strided l 0 = 0 := by
  induction l with
  | nil => rfl
  | cons x l ih =>
    rw [strided, Nat.zero_mod, Nat.zero_div, ih, Nat.zero_mul]

theorem strided_one_cons : strided ((1, s) :: l) p = strided l p := by
  rw [strided, Nat.mod_one, Nat.zero_mul, Nat.zero_add, Nat.div_one]

/-- The strides of `l` are what `f` gives for its unit indices, of which the first is at `c`. -/
def Units (f : Nat → Nat) : Nat → List (Nat × Nat) → Prop
  | _, [] => True
  | c, (d, s) :: t => (1 < d → s = f c) ∧ Units f (c * d) t

/-- The strides from the second dimension on are those of the positions divided by `a`. -/
theorem Units.div {g : Nat → Nat} (hfg : ∀ m, f (a * m) = g m) (h : Units f (a * c) l) :
    Units g c l := by
  induction l generalizing c with
  | nil => trivial
  | cons x l ih =>
    refine ⟨fun hd => (h.1 hd).trans (hfg c), ih ?_⟩
    rw [← mul_assoc]
    exact h.2

theorem Units.filter (h : Units f c l) :
    Units f c (l.filter fun x => decide (x.1 ≠ 1)) := by
  induction l generalizing c with
  | nil => trivial
  | cons x l ih =>
    obtain ⟨d, s⟩ := x
    by_cases hd : d = 1
    · rw [filter_cons_of_neg (by simp [hd])]
      have h2 := h.2
      rw [hd, mul_one] at h2
      exact ih h2
    · rw [filter_cons_of_pos (by simp [hd])]
      exact ⟨h.1, ih h.2⟩

theorem strided_filter : strided (l.filter fun x => decide (x.1 ≠ 1)) p = strided l p := by
  induction l generalizing p with
  | nil => rfl
  | cons x l ih =>
    obtain ⟨d, s⟩ := x
    by_cases hd : d = 1
    · rw [filter_cons_of_neg (by simp [hd]), ih, hd, strided_one_cons]
    · rw [filter_cons_of_pos (by simp [hd]), strided, strided, ih]

theorem extent_filter : extent (l.filter fun x => decide (x.1 ≠ 1)) = extent l := by
  induction l with
  | nil => rfl
  | cons x l ih =>
    obtain ⟨d, s⟩ := x
    by_cases hd : d = 1
    · rw [filter_cons_of_neg (by simp [hd]), ih, hd, extent_cons, one_mul]
    · rw [filter_cons_of_pos (by simp [hd]), extent_cons, extent_cons, ih]

/-- What two arrays without dimensions of size one are known to share. -/
structure UnitsAgree (as bs : List (Nat × Nat)) : Prop where
  left_proper : ∀ x ∈ as, 1 < x.1
  right_proper : ∀ x ∈ bs, 1 < x.1
  extent_eq : extent as = extent bs
  left : Units (strided bs) 1 as
  right : Units (strided as) 1 bs

namespace UnitsAgree

theorem symm (h : UnitsAgree as bs) : UnitsAgree bs as :=
  ⟨h.right_proper, h.left_proper, h.extent_eq.symm, h.right, h.left⟩

theorem extent_pos (hl : ∀ x ∈ l, 1 < x.1) : 0 < extent l := by
  induction l with
  | nil => exact one_pos
  | cons x l ih =>
    have hx := hl x mem_cons_self
    exact mul_pos (by omega) (ih fun y hy => hl y (mem_cons_of_mem x hy))

/-- The smaller one of the first two dimensions is not the last one of its array. -/
theorem ne_nil (h : UnitsAgree ((a, s) :: as) ((b, t) :: bs)) (hab : a < b) : as ≠ [] := by
  intro has
  have hext := h.extent_eq
  have hpos := extent_pos fun x hx => h.right_proper x (mem_cons_of_mem _ hx)
  have hle := Nat.le_mul_of_pos_right b hpos
  rw [has, extent_cons, extent_cons, show extent ([] : List (Nat × Nat)) = 1 from rfl] at hext
  omega

theorem stride_eq (h : UnitsAgree ((a, s) :: as) ((b, t) :: bs)) : s = t := by
  have ha : 1 < a := h.left_proper _ mem_cons_self
  have hb : 1 < b := h.right_proper _ mem_cons_self
  rw [h.left.1 ha, strided, mod_eq_of_lt hb, div_eq_of_lt hb, strided_zero, one_mul,
    add_zero]

/-- The smaller one of the first two dimensions may be merged with the dimension after it. -/
theorem merge {a2 s2 : Nat} (h : UnitsAgree ((a, s) :: (a2, s2) :: as) ((b, t) :: bs))
    (hab : a < b) :
    UnitsAgree ((a * a2, s) :: as) ((b, t) :: bs) ∧
      strided ((a, s) :: (a2, s2) :: as) = strided ((a * a2, s) :: as) := by
  have ha : 1 < a := h.left_proper _ mem_cons_self
  have ha2 : 1 < a2 := h.left_proper _ (mem_cons_of_mem _ mem_cons_self)
  have hunits := h.left.2
  rw [Nat.one_mul] at hunits
  have hs2 : s2 = a * s := by
    rw [hunits.1 ha2, strided, Nat.mod_eq_of_lt hab, Nat.div_eq_of_lt hab, strided_zero,
      h.stride_eq, Nat.add_zero]
  have hsame : strided ((a, s) :: (a2, s2) :: as) = strided ((a * a2, s) :: as) := by
    funext p
    rw [hs2, strided, strided, strided, Nat.mod_mul, Nat.div_div_eq_div_mul]
    ring
  refine ⟨⟨fun x hx => ?_, h.right_proper, ?_, ⟨fun _ => h.left.1 ha, ?_⟩, ?_⟩, hsame⟩
  · rcases mem_cons.mp hx with hx | hx
    · rw [hx]
      exact lt_of_lt_of_le ha (Nat.le_mul_of_pos_right a (by omega))
    · exact h.left_proper x (mem_cons_of_mem _ (mem_cons_of_mem _ hx))
  · rw [extent_cons, Nat.mul_assoc]
    exact h.extent_eq
  · rw [Nat.one_mul]
    exact hunits.2
  · rw [← hsame]
    exact h.right

/-- Equal first dimensions come off together. -/
theorem tail (h : UnitsAgree ((a, s) :: as) ((a, t) :: bs)) : UnitsAgree as bs := by
  have ha : 1 < a := h.left_proper _ mem_cons_self
  have hdiv : ∀ l s m, strided ((a, s) :: l) (a * m) = strided l m := by
    intro l s m
    rw [strided, Nat.mul_mod_right, Nat.zero_mul, Nat.zero_add,
      Nat.mul_div_cancel_left m (by omega)]
  have hleft := h.left.2
  have hright := h.right.2
  rw [Nat.one_mul] at hleft hright
  exact ⟨fun x hx => h.left_proper x (mem_cons_of_mem _ hx),
    fun x hx => h.right_proper x (mem_cons_of_mem _ hx),
    Nat.eq_of_mul_eq_mul_left (by omega) h.extent_eq,
    .div (hdiv bs t) (by rw [Nat.mul_one]; exact hleft),
    .div (hdiv as s) (by rw [Nat.mul_one]; exact hright)⟩

/-- By induction on the number of dimensions. -/
theorem strided_eq (h : UnitsAgree as bs) (hp : p < extent as) : strided as p = strided bs p := by
  induction hn : as.length + bs.length using Nat.strong_induction_on generalizing as bs p with
  | _ n ih =>
    subst hn
    match as, bs, h with
    | [], bs, h =>
      rw [show p = 0 from Nat.lt_one_iff.mp hp, strided_zero, strided_zero]
    | (a, s) :: as, [], h =>
      rw [h.extent_eq] at hp
      rw [show p = 0 from Nat.lt_one_iff.mp hp, strided_zero, strided_zero]
    | (a, s) :: as, (b, t) :: bs, h =>
      rcases lt_trichotomy a b with hab | hab | hab
      · obtain ⟨x, as', rfl⟩ := exists_cons_of_ne_nil (h.ne_nil hab)
        obtain ⟨hmerged, hsame⟩ := h.merge hab
        rw [hsame]
        refine ih _ ?_ hmerged ?_ rfl
        · simp only [length_cons]
          omega
        · rw [hmerged.extent_eq, ← h.extent_eq]
          exact hp
      · subst hab
        have hrest := ih _ (by simp only [length_cons]; omega) h.tail
          (Nat.div_lt_of_lt_mul hp) rfl
        rw [strided, strided, h.stride_eq, hrest]
      · obtain ⟨x, bs', rfl⟩ := exists_cons_of_ne_nil (h.symm.ne_nil hab)
        obtain ⟨hmerged, hsame⟩ := h.symm.merge hab
        rw [hsame]
        refine ih _ ?_ hmerged.symm hp rfl
        simp only [length_cons]
        omega

end UnitsAgree

/-- Two strided arrays that agree on the unit indices of both agree everywhere. -/
theorem strided_eq_of_units (ha : ∀ x ∈ as, 0 < x.1) (hb : ∀ x ∈ bs, 0 < x.1)
    (hext : extent as = extent bs) (hua : Units (strided bs) 1 as) (hub : Units (strided as) 1 bs)
    (hp : p < extent as) : strided as p = strided bs p := by
  have hproper : ∀ l : List (Nat × Nat), (∀ x ∈ l, 0 < x.1) →
      ∀ x ∈ l.filter (fun x => decide (x.1 ≠ 1)), 1 < x.1 := by
    intro l hl x hx
    obtain ⟨hx, hne⟩ := mem_filter.mp hx
    have hpos := hl x hx
    have hne := of_decide_eq_true hne
    omega
  have hagree : UnitsAgree (as.filter fun x => decide (x.1 ≠ 1))
      (bs.filter fun x => decide (x.1 ≠ 1)) := by
    refine ⟨hproper as ha, hproper bs hb, ?_, ?_, ?_⟩
    · rw [extent_filter, extent_filter]
      exact hext
    · rw [show strided (bs.filter fun x => decide (x.1 ≠ 1)) = strided bs from
        funext fun _ => strided_filter]
      exact hua.filter
    · rw [show strided (as.filter fun x => decide (x.1 ≠ 1)) = strided as from
        funext fun _ => strided_filter]
      exact hub.filter
  rw [← strided_filter, ← strided_filter (l := bs)]
  apply hagree.strided_eq
  rw [extent_filter]
  exact hp

/-- Unit positions are positions, so agreement on them is necessary as well. -/
theorem units_of_strided_eq (hpos : ∀ x ∈ l, 0 < x.1) (c : Nat)
    (h : ∀ n, n < extent l → strided l n = f (c * n)) : Units f c l := by
  induction l generalizing c with
  | nil => exact trivial
  | cons x l ih =>
    have hx : 0 < x.1 := hpos x mem_cons_self
    have hrest : ∀ y ∈ l, 0 < y.1 := fun y hy => hpos y (mem_cons_of_mem _ hy)
    have hext : 0 < extent l := by
      apply prod_pos
      intro d hd
      obtain ⟨y, hy, rfl⟩ := mem_map.mp hd
      exact hrest y hy
    constructor
    · intro h1
      have hlt : 1 < x.1 * extent l := lt_of_lt_of_le h1 (Nat.le_mul_of_pos_right _ hext)
      have hunit := h 1 hlt
      rw [strided, Nat.mod_eq_of_lt h1, Nat.div_eq_of_lt h1, strided_zero, Nat.one_mul,
        Nat.add_zero, Nat.mul_one] at hunit
      exact hunit
    · apply ih hrest (c * x.1)
      intro n hn
      have hstep := h (x.1 * n) (Nat.mul_lt_mul_of_pos_left hn hx)
      rw [strided, Nat.mul_mod_right, Nat.zero_mul, Nat.zero_add, Nat.mul_div_cancel_left n hx,
        ← Nat.mul_assoc] at hstep
      exact hstep

end TfReading.MixedRadix
