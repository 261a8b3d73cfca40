import TfReading.Library.MixedRadix

/-!
# Tiled arrays

An array of which copies fill a larger one, as pairs of the large and the small dimension from the
innermost one.  Each position of the large array is a copy of one of the small array.  Adjacent
dimensions may be merged if both are repeated, or both are not.
-/

namespace TfReading.MixedRadix

open List

/-- The position in the small array that the position `p` of the large array is a copy of. -/
def tiled : List (Nat × Nat) → Nat → Nat
  | [], _ => 0
  | (o, c) :: t, p => p % o % c + c * tiled t (p / o)

def copied (l : List (Nat × Nat)) : Nat := (l.map Prod.snd).prod

/-- A dimension that is repeated as a whole, or not at all. -/
def Uniform (x : Nat × Nat) (repeated : Bool) : Prop := x.2 = if repeated then 1 else x.1

/-- The same copies of arrays with the same numbers of elements. -/
structure SameTiles (l l' : List (Nat × Nat)) : Prop where
  tiled_eq : ∀ p, tiled l p = tiled l' p
  extent_eq : extent l = extent l'
  copied_eq : copied l = copied l'

variable {l l' m : List (Nat × Nat)} {p : Nat}

theorem tiled_append : tiled (l ++ m) p = tiled l p + copied l * tiled m (p / extent l) := by
  induction l generalizing p with
  | nil =>
    rw [nil_append, tiled, Nat.zero_add, show copied [] = 1 from rfl, Nat.one_mul,
      show extent [] = 1 from rfl, Nat.div_one]
  | cons x l ih =>
    rw [cons_append, tiled, tiled, ih, copied, copied, map_cons, prod_cons,
      extent_cons, Nat.div_div_eq_div_mul]
    ring

theorem extent_append : extent (l ++ m) = extent l * extent m := by
  rw [extent, extent, extent, map_append, prod_append]

theorem copied_append : copied (l ++ m) = copied l * copied m := by
  rw [copied, copied, copied, map_append, prod_append]

namespace SameTiles

theorem refl (l : List (Nat × Nat)) : SameTiles l l := ⟨fun _ => rfl, rfl, rfl⟩

theorem symm (h : SameTiles l l') : SameTiles l' l where
  tiled_eq p := (h.tiled_eq p).symm
  extent_eq := h.extent_eq.symm
  copied_eq := h.copied_eq.symm

theorem trans {l'' : List (Nat × Nat)} (h : SameTiles l l') (h' : SameTiles l' l'') :
    SameTiles l l'' where
  tiled_eq p := (h.tiled_eq p).trans (h'.tiled_eq p)
  extent_eq := h.extent_eq.trans h'.extent_eq
  copied_eq := h.copied_eq.trans h'.copied_eq

theorem append_right (h : SameTiles l l') (m : List (Nat × Nat)) :
    SameTiles (l ++ m) (l' ++ m) where
  tiled_eq p := by rw [tiled_append, tiled_append, h.tiled_eq, h.extent_eq, h.copied_eq]
  extent_eq := by rw [extent_append, extent_append, h.extent_eq]
  copied_eq := by rw [copied_append, copied_append, h.copied_eq]

theorem append_left (h : SameTiles l l') (m : List (Nat × Nat)) :
    SameTiles (m ++ l) (m ++ l') where
  tiled_eq p := by rw [tiled_append, tiled_append, h.tiled_eq]
  extent_eq := by rw [extent_append, extent_append, h.extent_eq]
  copied_eq := by rw [copied_append, copied_append, h.copied_eq]

theorem one : SameTiles [] [(1, 1)] where
  tiled_eq p := by rw [tiled, tiled, tiled, Nat.mod_one, Nat.zero_add, Nat.mul_zero]
  extent_eq := rfl
  copied_eq := rfl

/-- Adjacent dimensions that are both repeated, or both not, are one. -/
theorem merge {o1 c1 o2 c2 : Nat} {r : Bool} (h1 : Uniform (o1, c1) r) (h2 : Uniform (o2, c2) r) :
    SameTiles [(o1 * o2, c1 * c2)] [(o1, c1), (o2, c2)] where
  tiled_eq p := by
    simp only [tiled, Nat.mul_zero, Nat.add_zero]
    cases r with
    | false =>
      have h1 : c1 = o1 := h1
      have h2 : c2 = o2 := h2
      rw [h1, h2, Nat.mod_mod, Nat.mod_mod, Nat.mod_mod, Nat.mod_mul]
    | true =>
      have h1 : c1 = 1 := h1
      have h2 : c2 = 1 := h2
      rw [h1, h2, Nat.mul_one, Nat.mod_one, Nat.mod_one, Nat.mod_one]
  extent_eq := by
    rw [extent_cons, extent_cons, extent_cons, ← Nat.mul_assoc]
  copied_eq := by
    rw [copied, copied, map_cons, map_cons, map_cons, prod_cons, prod_cons,
      prod_cons, ← Nat.mul_assoc]

end SameTiles

/-- Copies by the remainders of the indices. -/
theorem value_mod_digits :
    value (l.map Prod.snd) (List.zipWith (· % ·) (digits (l.map Prod.fst) p) (l.map Prod.snd)) =
      tiled l p := by
  induction l generalizing p with
  | nil => rfl
  | cons x l ih =>
    rw [map_cons, map_cons, digits, zipWith_cons_cons, value, ih]
    rfl

/-- Copies by the index 0 in the dimensions that are repeated. -/
theorem value_zero_digits (h : ∀ x ∈ l, x.2 = 1 ∨ x.2 = x.1) :
    value (l.map Prod.snd) (List.zipWith (fun d i => if d = 1 then 0 else i) (l.map Prod.snd)
      (digits (l.map Prod.fst) p)) = tiled l p := by
  induction l generalizing p with
  | nil => rfl
  | cons x l ih =>
    obtain ⟨hx, hl⟩ := forall_mem_cons.mp h
    rw [map_cons, map_cons, digits, zipWith_cons_cons, value, ih hl]
    obtain ⟨o, c⟩ := x
    congr 1
    by_cases hc : c = 1
    · rw [if_pos hc, hc, Nat.mod_one]
    · have hco : c = o := hx.resolve_left hc
      rw [if_neg hc, hco, Nat.mod_mod]

theorem tiled_diag {ds : List Nat} (hp : p < ds.prod) : tiled (ds.map fun d => (d, d)) p = p := by
  induction ds generalizing p with
  | nil => exact (Nat.lt_one_iff.mp hp).symm
  | cons d ds ih =>
    rw [map_cons, tiled, ih (Nat.div_lt_of_lt_mul hp), Nat.mod_mod]
    exact Nat.mod_add_div p d

end TfReading.MixedRadix
