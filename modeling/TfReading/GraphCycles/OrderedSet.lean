import Mathlib.Data.List.Basic

/-!
# `OrderedSet` of `compiler/xla/service/graphcycles/ordered_set.h`

A set with a deterministic iteration order.  The hash map from values to their
positions is a partial function, and the class invariant that ties it to the
sequence is a field, so every operation proves it again.
-/

namespace TfReading

open Function List

structure OrderedSet (α : Type*) where
  /-- The stable order that is maintained through insertions and deletions. -/
  valueSequence : List α
  /-- Maps values to their indices in `valueSequence`. -/
  valueToIndex : α → Option Nat
  index_iff : ∀ v i, valueToIndex v = some i ↔ valueSequence[i]? = some v

namespace OrderedSet

variable {α : Type*}

/-- Also what `Clear` and a move leave behind. -/
def empty : OrderedSet α := ⟨[], fun _ => none, by simp⟩

instance : Membership α (OrderedSet α) := ⟨fun s v => v ∈ s.valueSequence⟩

def contains (s : OrderedSet α) (v : α) : Bool := (s.valueToIndex v).isSome

def size (s : OrderedSet α) : Nat := s.valueSequence.length

variable {s : OrderedSet α} {v : α} {i : Nat}

theorem mem_def : v ∈ s ↔ v ∈ s.valueSequence := Iff.rfl

theorem contains_iff : s.contains v = true ↔ v ∈ s := by
  rw [contains, Option.isSome_iff_exists, mem_def, mem_iff_getElem?]
  exact exists_congr (s.index_iff v)

instance (s : OrderedSet α) (v : α) : Decidable (v ∈ s) :=
  decidable_of_iff _ contains_iff

@[simp]
theorem not_mem_empty (v : α) : v ∉ (empty : OrderedSet α) := not_mem_nil

theorem index_inj (s : OrderedSet α) {j : Nat} (hi : s.valueSequence[i]? = some v)
    (hj : s.valueSequence[j]? = some v) : i = j := by
  rw [← s.index_iff] at hi hj
  exact Option.some.inj (hi.symm.trans hj)

theorem mem_iff_index : v ∈ s ↔ ∃ i, s.valueToIndex v = some i := by
  rw [← contains_iff, contains, Option.isSome_iff_exists]

variable [DecidableEq α] {w : α}

theorem insert_index_iff (s : OrderedSet α) (hv : s.valueToIndex v = none) (w : α) (i : Nat) :
    update s.valueToIndex v (some s.valueSequence.length) w = some i ↔
      (s.valueSequence ++ [v])[i]? = some w := by
  rcases Nat.lt_trichotomy i s.valueSequence.length with hi | rfl | hi
  · rw [getElem?_append_left hi, ← s.index_iff]
    by_cases hwv : w = v
    · subst hwv
      simp [hv, Nat.ne_of_gt hi]
    · rw [update_of_ne hwv]
  · rw [getElem?_concat_length]
    by_cases hwv : w = v
    · subst hwv; simp
    · rw [update_of_ne hwv, s.index_iff, getElem?_eq_none (Nat.le_refl _)]
      simp [Ne.symm hwv]
  · rw [getElem?_eq_none (by simpa using Nat.succ_le_of_lt hi)]
    by_cases hwv : w = v
    · subst hwv; simp [Nat.ne_of_lt hi]
    · rw [update_of_ne hwv, s.index_iff, getElem?_eq_none (Nat.le_of_lt hi)]

/-- The flag tells whether the value was absent before. -/
def insert (s : OrderedSet α) (value : α) : Bool × OrderedSet α :=
  match h : s.valueToIndex value with
  | some _ => (false, s)
  | none => (true, ⟨s.valueSequence ++ [value],
      Function.update s.valueToIndex value (some s.valueSequence.length),
      s.insert_index_iff h⟩)

theorem insert_fst_iff : (s.insert v).1 = true ↔ v ∉ s := by
  rw [← contains_iff, contains, insert]
  split <;> simp_all

theorem mem_insert : w ∈ (s.insert v).2 ↔ w ∈ s ∨ w = v := by
  rw [insert]
  split
  · rename_i i hi
    have hv : v ∈ s := contains_iff.mp (by rw [contains, hi]; rfl)
    refine ⟨.inl, ?_⟩
    rintro (hw | rfl)
    · exact hw
    · exact hv
  · simp [mem_def]

theorem erase_index_iff (s : OrderedSet α) {last : α} (hv : s.valueToIndex v = some i)
    (hlast : s.valueSequence[s.valueSequence.length - 1]? = some last) (w : α) (j : Nat) :
    update (update s.valueToIndex last (some i)) v none w = some j ↔
      (s.valueSequence.set i last).dropLast[j]? = some w := by
  rw [s.index_iff] at hv
  have hi : i < s.valueSequence.length := (List.getElem?_eq_some_iff.mp hv).1
  rw [getElem?_dropLast, length_set]
  split
  next hj =>
    by_cases hij : i = j
    · subst hij
      have hne : v ≠ last := by
        rintro rfl
        exact absurd (s.index_inj hv hlast) (Nat.ne_of_lt hj)
      rw [getElem?_set_self hi]
      by_cases hwv : w = v
      · subst hwv; simp [hne.symm]
      · rw [update_of_ne hwv]
        by_cases hwl : w = last
        · subst hwl; simp
        · rw [update_of_ne hwl, s.index_iff, hv]
          simp [Ne.symm hwv, Ne.symm hwl]
    · rw [getElem?_set_ne hij]
      by_cases hwv : w = v
      · subst hwv
        exact ⟨fun h => absurd h (by simp), fun h => absurd (s.index_inj hv h) hij⟩
      · rw [update_of_ne hwv]
        by_cases hwl : w = last
        · subst hwl
          rw [update_self]
          exact ⟨fun h => absurd (Option.some.inj h) hij,
            fun h => absurd (s.index_inj h hlast) (Nat.ne_of_lt hj)⟩
        · rw [update_of_ne hwl, s.index_iff]
  · refine ⟨fun h => ?_, fun h => absurd h (by simp)⟩
    by_cases hwv : w = v
    · rw [hwv, update_self] at h
      exact absurd h (by simp)
    · rw [update_of_ne hwv] at h
      by_cases hwl : w = last
      · rw [hwl, update_self] at h
        have hil : i = s.valueSequence.length - 1 := by
          have := Option.some.inj h
          omega
        rw [hil, hlast] at hv
        exact absurd (hwl.trans (Option.some.inj hv)) hwv
      · rw [update_of_ne hwl, s.index_iff] at h
        have hjlt := (List.getElem?_eq_some_iff.mp h).1
        have hjl : j = s.valueSequence.length - 1 := by omega
        rw [hjl, hlast] at h
        exact absurd (Option.some.inj h).symm hwl

/-- Swaps the value with the last one and pops.  Erasing an absent value is
undefined in the C++ and leaves the set alone here. -/
def erase (s : OrderedSet α) (value : α) : OrderedSet α :=
  match h : s.valueToIndex value, hl : s.valueSequence[s.valueSequence.length - 1]? with
  | some i, some last =>
    ⟨(s.valueSequence.set i last).dropLast,
      Function.update (Function.update s.valueToIndex last (some i)) value none,
      s.erase_index_iff h hl⟩
  | _, _ => s

theorem mem_erase : w ∈ s.erase v ↔ w ∈ s ∧ w ≠ v := by
  rw [erase]
  split
  · rename_i i last hi hl
    have hlast : last ∈ s := mem_of_getElem? hl
    rw [mem_iff_index, mem_iff_index]
    show (∃ j, update (update s.valueToIndex last (some i)) v none w =
      some j) ↔ _
    by_cases hwv : w = v
    · subst hwv; simp
    · rw [update_of_ne hwv]
      by_cases hwl : w = last
      · subst hwl
        simp [hwv, mem_iff_index.mp hlast]
      · simp [update_of_ne hwl, hwv]
  · rename_i hcase
    have hv : v ∉ s := by
      intro hv
      obtain ⟨i, hi⟩ := mem_iff_index.mp hv
      have hlt := (List.getElem?_eq_some_iff.mp ((s.index_iff v i).mp hi)).1
      obtain ⟨last, hl⟩ : ∃ last, s.valueSequence[s.valueSequence.length - 1]? = some last :=
        ⟨_, getElem?_eq_getElem (by omega)⟩
      exact hcase i last hi hl
    exact ⟨fun hw => ⟨hw, fun e => hv (e ▸ hw)⟩, fun hw => hw.1⟩

end OrderedSet
end TfReading
