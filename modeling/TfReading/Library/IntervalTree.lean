import Mathlib.Order.Lattice

/-!
# Interval trees

A search tree over the starts of closed intervals.  Each node also keeps the latest end in its
subtree, so that a query can leave out subtrees that end too early or start too late.
-/

namespace TfReading

inductive IntervalTree (α γ : Type*)
  | nil
  | node (start stop subtreeEnd : α) (value : γ) (left right : IntervalTree α γ)

namespace IntervalTree

variable {α γ : Type*} [LinearOrder α] {t : IntervalTree α γ}

structure Entry (α γ : Type*) where
  start : α
  stop : α
  value : γ

def add (e : Entry α γ) : IntervalTree α γ → IntervalTree α γ
  | nil => node e.start e.stop e.stop e.value nil nil
  | node start stop subtreeEnd value left right =>
    if e.start < start then
      node start stop (max subtreeEnd e.stop) value (left.add e) right
    else node start stop (max subtreeEnd e.stop) value left (right.add e)

def overlapping (start stop : α) : IntervalTree α γ → List γ
  | nil => []
  | node s e subtreeEnd value left right =>
    if subtreeEnd < start then []
    else
      (if s ≤ stop ∧ start ≤ e then [value] else []) ++
        (if stop < s then [] else right.overlapping start stop) ++ left.overlapping start stop

omit [LinearOrder α] in
def Mem (e : Entry α γ) : IntervalTree α γ → Prop
  | nil => False
  | node start stop _ value left right => e = ⟨start, stop, value⟩ ∨ left.Mem e ∨ right.Mem e

/-- Starts are ordered, and each node bounds the ends below it. -/
def Ordered : IntervalTree α γ → Prop
  | nil => True
  | node start stop subtreeEnd _ left right =>
    (∀ e, left.Mem e → e.start < start ∧ e.stop ≤ subtreeEnd) ∧
      (∀ e, right.Mem e → start ≤ e.start ∧ e.stop ≤ subtreeEnd) ∧
      stop ≤ subtreeEnd ∧ left.Ordered ∧ right.Ordered

theorem mem_add {e e' : Entry α γ} :
    (t.add e).Mem e' ↔ e' = e ∨ t.Mem e' := by
  induction t with
  | nil => simp [add, Mem]
  | node start stop subtreeEnd value left right ihl ihr =>
    rw [add]
    split
    · rw [Mem, ihl, or_assoc, or_left_comm, Mem]
    · rw [Mem, ihr, or_left_comm (a := left.Mem e'), or_left_comm, Mem]

theorem Ordered.add {e : Entry α γ} (h : t.Ordered) :
    (t.add e).Ordered := by
  induction t with
  | nil => exact ⟨fun _ hno => absurd hno id, fun _ hno => absurd hno id, le_refl _, trivial, trivial⟩
  | node start stop subtreeEnd value left right ihl ihr =>
    obtain ⟨hleft, hright, hstop, hl, hr⟩ := h
    have hmax : subtreeEnd ≤ max subtreeEnd e.stop := le_max_left _ _
    rw [IntervalTree.add]
    split
    next hlt =>
      refine ⟨?_, ?_, le_trans hstop hmax, ihl hl, hr⟩
      · intro e' he'
        rcases mem_add.mp he' with he' | he'
        · rw [he']
          exact ⟨hlt, le_max_right _ _⟩
        · exact ⟨(hleft e' he').1, le_trans (hleft e' he').2 hmax⟩
      · intro e' he'
        exact ⟨(hright e' he').1, le_trans (hright e' he').2 hmax⟩
    next hge =>
      refine ⟨?_, ?_, le_trans hstop hmax, hl, ihr hr⟩
      · intro e' he'
        exact ⟨(hleft e' he').1, le_trans (hleft e' he').2 hmax⟩
      · intro e' he'
        rcases mem_add.mp he' with he' | he'
        · rw [he']
          exact ⟨not_lt.mp hge, le_max_right _ _⟩
        · exact ⟨(hright e' he').1, le_trans (hright e' he').2 hmax⟩

theorem Ordered.mem_overlapping {start stop : α} {v : γ} (h : t.Ordered) :
    v ∈ t.overlapping start stop ↔
      ∃ e, t.Mem e ∧ e.value = v ∧ e.start ≤ stop ∧ start ≤ e.stop := by
  induction t with
  | nil => simp [overlapping, Mem]
  | node s e subtreeEnd value left right ihl ihr =>
    obtain ⟨hleft, hright, hstop, hl, hr⟩ := h
    rw [overlapping]
    split
    next hearly =>
      -- All of this subtree ends too early.
      apply iff_of_false List.not_mem_nil
      intro hex
      obtain ⟨e', he', -, -, hge⟩ := hex
      have hend : e'.stop ≤ subtreeEnd := by
        rcases he' with he' | he' | he'
        · rw [he']
          exact hstop
        · exact (hleft e' he').2
        · exact (hright e' he').2
      exact absurd (lt_of_le_of_lt hend hearly) (not_lt.mpr hge)
    next =>
      have hskip : v ∈ (if stop < s then [] else right.overlapping start stop) ↔
          ∃ e', right.Mem e' ∧ e'.value = v ∧ e'.start ≤ stop ∧ start ≤ e'.stop := by
        split
        next hlate =>
          -- All of the right subtree starts too late.
          apply iff_of_false List.not_mem_nil
          intro hex
          obtain ⟨e', he', -, hle, -⟩ := hex
          exact absurd (lt_of_lt_of_le hlate (hright e' he').1) (not_lt.mpr hle)
        · exact ihr hr
      rw [List.mem_append, List.mem_append, hskip, ihl hl]
      have hself : v ∈ (if s ≤ stop ∧ start ≤ e then [value] else []) ↔
          value = v ∧ s ≤ stop ∧ start ≤ e := by
        split
        next hmeet => simp [hmeet, eq_comm]
        next hmeet => simp [hmeet]
      rw [hself]
      constructor
      · intro hor
        rcases hor with (hv | ⟨e', he', hv⟩) | ⟨e', he', hv⟩
        · exact ⟨⟨s, e, value⟩, .inl rfl, hv⟩
        · exact ⟨e', .inr (.inr he'), hv⟩
        · exact ⟨e', .inr (.inl he'), hv⟩
      · intro hex
        obtain ⟨e', he' | he' | he', hv⟩ := hex
        · rw [he'] at hv
          exact .inl (.inl hv)
        · exact .inr ⟨e', he', hv⟩
        · exact .inl (.inr ⟨e', he', hv⟩)

end IntervalTree
end TfReading
