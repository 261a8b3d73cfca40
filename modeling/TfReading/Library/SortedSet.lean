import Mathlib.Data.List.Basic

/-!
# Sets kept in the order of a comparator

The elements of the set are a list in the order of `less`.  As in an ordered container
that knows its elements through the comparator only, two elements of which neither is
less than the other count as equal.
-/

namespace TfReading.SortedSet

open List

variable {α : Type*} {less less' : α → α → Bool} {x y : α} {l : List α}

def insert (less : α → α → Bool) (x : α) : List α → List α
  | [] => [x]
  | y :: t => if less x y then x :: y :: t else if less y x then y :: insert less x t else y :: t

def equivalent (less : α → α → Bool) (x y : α) : Bool := !less y x && !less x y

def contains (less : α → α → Bool) (x : α) (l : List α) : Bool := l.any (equivalent less x)

def erase (less : α → α → Bool) (x : α) (l : List α) : List α :=
  l.filter fun y => !equivalent less x y

theorem mem_of_mem_insert (h : y ∈ insert less x l) : y = x ∨ y ∈ l := by
  induction l with
  | nil => simpa [insert] using h
  | cons z t ih =>
    rw [insert] at h
    split at h
    · simpa using h
    · split at h
      · rcases mem_cons.mp h with rfl | h
        · exact .inr mem_cons_self
        · exact (ih h).imp_right (mem_cons_of_mem z)
      · exact .inr h

theorem mem_insert (hx : ∀ z ∈ l, less x z = true ∨ less z x = true) :
    y ∈ insert less x l ↔ y = x ∨ y ∈ l := by
  refine ⟨mem_of_mem_insert, ?_⟩
  induction l with
  | nil => simp [insert]
  | cons z t ih =>
    have ih := ih fun w hw => hx w (mem_cons_of_mem z hw)
    rw [insert]
    split
    · simp
    next hxz =>
      rw [if_pos ((hx z mem_cons_self).resolve_left hxz)]
      rintro (rfl | h)
      · exact mem_cons_of_mem z (ih (.inl rfl))
      · rcases mem_cons.mp h with rfl | h
        · exact mem_cons_self
        · exact mem_cons_of_mem z (ih (.inr h))

theorem sorted_insert (htrans : ∀ a b c, less a b = true → less b c = true → less a c = true)
    (hl : l.Pairwise fun a b => less a b = true) :
    (insert less x l).Pairwise fun a b => less a b = true := by
  induction l with
  | nil => simp [insert]
  | cons z t ih =>
    obtain ⟨hz, ht⟩ := pairwise_cons.mp hl
    rw [insert]
    split
    next hxz =>
      refine pairwise_cons.mpr ⟨fun w hw => ?_, hl⟩
      rcases mem_cons.mp hw with rfl | hw
      · exact hxz
      · exact htrans x z w hxz (hz w hw)
    · split
      next hzx =>
        refine pairwise_cons.mpr ⟨fun w hw => ?_, ih ht⟩
        rcases mem_of_mem_insert hw with rfl | hw
        · exact hzx
        · exact hz w hw
      · exact hl

theorem contains_of_mem (hirr : less x x = false) (h : x ∈ l) : contains less x l = true :=
  any_eq_true.mpr ⟨x, h, by simp [equivalent, hirr]⟩

/-- Where no other member is equivalent to `x`, only `x` goes. -/
theorem mem_erase (hirr : less x x = false)
    (hx : ∀ z ∈ l, z ≠ x → less x z = true ∨ less z x = true) :
    y ∈ erase less x l ↔ y ∈ l ∧ y ≠ x := by
  rw [erase, mem_filter]
  refine and_congr_right fun hy => ?_
  by_cases hyx : y = x
  · subst hyx
    simp [equivalent, hirr]
  · rcases hx y hy hyx with h | h <;> simp [equivalent, h, hyx]

end TfReading.SortedSet
