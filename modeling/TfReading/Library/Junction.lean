import Mathlib.Data.List.Basic

/-!
# Conjunctions and disjunctions at once

`junction true` is the conjunction of the values of a list and `junction false` their disjunction.
Either one equals its flag iff all values do, and every law is proved once for both.
-/

namespace TfReading

variable {α : Type*}

def junction (b : Bool) (v : α → Bool) (l : List α) : Bool := if l.all (fun x => v x = b) then b else !b

variable {b : Bool} {v : α → Bool} {l : List α} {β : Type*}

theorem junction_eq_iff :
    junction b v l = b ↔ ∀ x ∈ l, v x = b := by
  rw [junction]
  split
  next h => simpa using h
  next h => simpa using h

theorem eq_of_flag_iff {x y : Bool} (h : x = b ↔ y = b) : x = y := by
  revert h
  cases b <;> cases x <;> cases y <;> simp

theorem junction_eq_not_iff :
    junction b v l = !b ↔ ∃ x ∈ l, v x = !b := by
  simp only [Bool.eq_not, ne_eq, junction_eq_iff, not_forall, exists_prop]

theorem junction_congr {l' : List α}
    (h : (∀ x ∈ l, v x = b) ↔ ∀ x ∈ l', v x = b) : junction b v l = junction b v l' := by
  apply eq_of_flag_iff
  rw [junction_eq_iff, junction_eq_iff, h]

theorem junction_congr_values {v' : α → Bool}
    (h : ∀ x ∈ l, v x = v' x) : junction b v l = junction b v' l := by
  apply eq_of_flag_iff
  rw [junction_eq_iff, junction_eq_iff]
  exact forall₂_congr fun x hx => by rw [h x hx]

theorem junction_singleton (b : Bool) (v : α → Bool) (x : α) : junction b v [x] = v x := by
  apply eq_of_flag_iff
  rw [junction_eq_iff]
  simp

theorem junction_map (b : Bool) (v : β → Bool) (h : α → β) (l : List α) :
    junction b v (l.map h) = junction b (fun x => v (h x)) l := by
  rw [junction, junction, List.all_map]
  rfl

theorem junction_true_snoc (v : α → Bool) (l : List α) (x : α) :
    junction true v (l ++ [x]) = (junction true v l && v x) := by
  apply eq_of_flag_iff
  rw [junction_eq_iff, Bool.and_eq_true, junction_eq_iff, List.forall_mem_append]
  simp

/-- De Morgan's laws. -/
theorem junction_not (b : Bool) (v : α → Bool) (l : List α) :
    junction (!b) (fun x => !v x) l = !junction b v l := by
  apply eq_of_flag_iff
  rw [junction_eq_iff, Bool.not_inj_iff, junction_eq_iff]
  simp only [Bool.not_inj_iff]

/-- The distributive laws: what all inner junctions have in common is factored out. -/
theorem junction_factor {common : List α} {u w : β → Bool}
    {l : List β} (h : ∀ y ∈ l, u y = !b ↔ w y = !b ∧ ∀ x ∈ common, v x = !b) :
    junction b u l = !b ↔ junction b w l = !b ∧ ∀ x ∈ common, v x = !b := by
  rw [junction_eq_not_iff, junction_eq_not_iff]
  constructor
  · intro hex
    obtain ⟨y, hy, hu⟩ := hex
    obtain ⟨hw, hcommon⟩ := (h y hy).mp hu
    exact ⟨⟨y, hy, hw⟩, hcommon⟩
  · intro hboth
    obtain ⟨⟨y, hy, hw⟩, hcommon⟩ := hboth
    exact ⟨y, hy, (h y hy).mpr ⟨hw, hcommon⟩⟩

end TfReading
