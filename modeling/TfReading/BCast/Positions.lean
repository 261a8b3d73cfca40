import Mathlib.Data.Fintype.Basic
import TfReading.BCast.Valid
import TfReading.Library.TiledArrays

/-!
# Collapsing positions

A position of compatible shapes is an output dimension and the inputs that are 1 there.  Joining
adjacent positions with the same inputs, in unbounded arithmetic, is what the constructor does to
save dimensions.  It changes neither numbers of elements nor the copies of elements.
-/

namespace TfReading.BCast

open MixedRadix List

structure Position (N : Nat) where
  extent : Nat
  isOne : Fin N → Bool

variable {N : Nat} {i : Fin N} {b r : Position N} {bs stack : List (Position N)} {fewer : Bool}

namespace Position

def size (b : Position N) (i : Fin N) : Nat := if b.isOne i then 1 else b.extent

def copies (b : Position N) (i : Fin N) : Nat := if b.isOne i then b.extent else 1

def allOnes (b : Position N) : Bool := decide (∀ i, b.isOne i = true)

def append (r b : Position N) : Position N := { r with extent := r.extent * b.extent }

theorem size_mul_copies : b.size i * b.copies i = b.extent := by
  rw [size, copies]
  split
  · exact Nat.one_mul _
  · exact Nat.mul_one _

theorem size_append (h : r.isOne = b.isOne) : (r.append b).size i = r.size i * b.size i := by
  rw [size, size, size, ← h, append]
  split
  · rfl
  · rfl

theorem copies_append (h : r.isOne = b.isOne) :
    (r.append b).copies i = r.copies i * b.copies i := by
  rw [copies, copies, copies, ← h, append]
  split
  · rfl
  · rfl

end Position

/-- The positions after one more of them, from the outermost one. -/
def join (fewer : Bool) (stack : List (Position N)) (b : Position N) : List (Position N) :=
  if b.allOnes then if fewer then stack else b :: stack
  else
    match stack with
    | [] => [b]
    | r :: rest => if fewer = true ∧ r.isOne = b.isOne then r.append b :: rest else b :: r :: rest

/-- The output with one of the inputs, as pairs of dimensions from the innermost one. -/
def rows (i : Fin N) (stack : List (Position N)) : List (Nat × Nat) :=
  stack.reverse.map fun b => (b.extent, b.size i)

theorem rows_cons : rows i (b :: stack) = rows i stack ++ [(b.extent, b.size i)] := by
  rw [rows, rows, reverse_cons, map_append, map_singleton]

theorem rows_append : rows i (bs ++ stack) = rows i stack ++ rows i bs := by
  rw [rows, rows, rows, reverse_append, map_append]

theorem sameTiles_of_allOnes (hb : b.allOnes = true) (h1 : b.extent = 1) :
    SameTiles (rows i stack) (rows i (b :: stack)) := by
  have hsize : b.size i = 1 := if_pos (of_decide_eq_true hb i)
  have h := SameTiles.one.append_left (rows i stack)
  rw [append_nil] at h
  rw [rows_cons, h1, hsize]
  exact h

theorem sameTiles_append (h : r.isOne = b.isOne) :
    SameTiles (rows i (r.append b :: stack)) (rows i (b :: r :: stack)) := by
  have hr : Uniform (r.extent, r.size i) (r.isOne i) := rfl
  have hb : Uniform (b.extent, b.size i) (r.isOne i) := by
    rw [h]
    rfl
  have hmerge := (SameTiles.merge hr hb).append_left (rows i stack)
  rw [rows_cons, rows_cons, rows_cons, Position.size_append h, append_assoc]
  exact hmerge

theorem sameTiles_join (h1 : b.allOnes = true → b.extent = 1) :
    SameTiles (rows i (join fewer stack b)) (rows i (b :: stack)) := by
  unfold join
  split
  next hb =>
    split
    · exact sameTiles_of_allOnes hb (h1 hb)
    · exact .refl _
  next =>
    cases stack with
    | nil => exact .refl _
    | cons =>
      dsimp only
      split
      next h => exact sameTiles_append h.2
      next => exact .refl _

theorem sameTiles_foldl_join (i : Fin N) (fewer : Bool) (stack : List (Position N))
    (h1 : ∀ b ∈ bs, b.allOnes = true → b.extent = 1) :
    SameTiles (rows i (bs.foldl (join fewer) stack)) (rows i (bs.reverse ++ stack)) := by
  induction bs generalizing stack with
  | nil => exact .refl _
  | cons b bs ih =>
    obtain ⟨hb, hbs⟩ := forall_mem_cons.mp h1
    rw [foldl_cons, reverse_cons, append_assoc, singleton_append]
    apply (ih _ hbs).trans
    rw [rows_append, rows_append]
    exact (sameTiles_join hb).append_right _

/-! ## Positions of shapes -/

def position (x : Fin N → Vec) (j : Nat) : Position N where
  extent := (numpyDim x j).toNat
  isOne i := decide (dimAt (x i) j = 1)

def positions (x : Fin N → Vec) : List (Position N) :=
  (List.range (largestRank x)).map (position x)

variable {x : Fin N → Vec} {j : Nat}

theorem allOnes_position : (position x j).allOnes = true ↔ nonOnes x j = [] := by
  rw [Position.allOnes, decide_eq_true_iff, eq_nil_iff_forall_not_mem]
  constructor
  · intro h d hd
    obtain ⟨hne, i, hi⟩ := mem_nonOnes.mp hd
    exact hne (hi ▸ of_decide_eq_true (h i))
  · intro h i
    by_contra hne
    exact h _ (mem_nonOnes.mpr ⟨fun h1 => hne (decide_eq_true h1), i, rfl⟩)

theorem extent_position_of_allOnes (h : (position x j).allOnes = true) :
    (position x j).extent = 1 := by
  show (numpyDim x j).toNat = 1
  rw [numpyDim, allOnes_position.mp h]
  rfl

theorem size_position (h : Compatible x) (i : Fin N) :
    (position x j).size i = (dimAt (x i) j).toNat := by
  show (if decide (dimAt (x i) j = 1) = true then 1 else (numpyDim x j).toNat) = _
  by_cases h1 : dimAt (x i) j = 1
  · rw [if_pos (decide_eq_true h1), h1]
    rfl
  · rw [if_neg (fun hd => h1 (of_decide_eq_true hd)), h.dimAt_eq i h1]

theorem rows_positions (h : Compatible x) : rows i (positions x).reverse =
    (List.range (largestRank x)).map fun j => ((numpyDim x j).toNat, (dimAt (x i) j).toNat) := by
  rw [rows, reverse_reverse, positions, map_map]
  apply map_congr_left
  intro j _
  exact Prod.ext rfl (size_position h i)

end TfReading.BCast
