import Mathlib.Data.List.Nodup
import TfReading.HeapSimulator.BestFit

/-!
# The forest of intervals

Colocations make the entries of `buffer_intervals_` a forest, in which a buffer stands below the
one that it shares with.  A buffer that needs an allocation is a root.
-/

namespace TfReading.HeapSimulator

open List

variable {β : Type}

/-- Colocated buffers are intervals of their own, each below one other that started earlier. -/
structure Forest (l : List (BufferInterval β)) : Prop where
  nodup : (l.map (·.buffer)).Nodup
  child : ∀ i ∈ l, ∀ b ∈ i.colocations,
    ∃ j ∈ l, j.buffer = b ∧ j.needAllocation = false ∧ i.start < j.start
  colocations_nodup : ∀ i ∈ l, i.colocations.Nodup
  parent_unique : ∀ i ∈ l, ∀ j ∈ l, ∀ b, b ∈ i.colocations → b ∈ j.colocations →
    i.buffer = j.buffer
  parent : ∀ j ∈ l, j.needAllocation = false → ∃ i ∈ l, j.buffer ∈ i.colocations

variable {l : List (BufferInterval β)} {i j : BufferInterval β} {b : β}
    {g : BufferInterval β → BufferInterval β}

theorem Forest.eq_of_buffer (h : Forest l) (hi : i ∈ l) (hj : j ∈ l) (heq : i.buffer = j.buffer) :
    i = j :=
  inj_on_of_nodup_map h.nodup hi hj heq

theorem Forest.exists_eq_buffer (h : Forest l) (hi : i ∈ l) {P : BufferInterval β → Prop} :
    (∃ j ∈ l, j.buffer = i.buffer ∧ P j) ↔ P i := by
  constructor
  · rintro ⟨j, hj, hbuf, hP⟩
    exact h.eq_of_buffer hj hi hbuf ▸ hP
  · exact fun hP => ⟨i, hi, rfl, hP⟩

theorem Forest.grow (h : Forest l) {L : List (BufferInterval β)} {D : BufferInterval β → List β}
    (hg : ∀ j, (g j).buffer = j.buffer ∧ (g j).start = j.start ∧
      (g j).needAllocation = j.needAllocation ∧ (g j).colocations = j.colocations ++ D j)
    (hnodup : (L.map (·.buffer)).Nodup)
    (hL : ∀ i ∈ L, i.colocations = [] ∧ (∀ j ∈ l, j.buffer ≠ i.buffer) ∧
      (i.needAllocation = false → ∃ j ∈ l, i.buffer ∈ D j))
    (hD : ∀ j ∈ l, (D j).Nodup ∧ ∀ b ∈ D j,
      (∃ i ∈ L, i.buffer = b ∧ i.needAllocation = false ∧ j.start < i.start) ∧
        ∀ k ∈ l, b ∈ D k → j.buffer = k.buffer) : Forest (l.map g ++ L) := by
  -- What is colocated already is an interval already.
  have hfresh : ∀ j ∈ l, ∀ b ∈ j.colocations, ∀ k ∈ l, b ∉ D k := by
    intro j hj b hb k hk hbk
    obtain ⟨j', hj', hbuf, -⟩ := h.child j hj b hb
    obtain ⟨⟨i, hi, heq, -⟩, -⟩ := (hD k hk).2 b hbk
    exact (hL i hi).2.1 j' hj' (hbuf.trans heq.symm)
  have hold : ∀ {j' : BufferInterval β} {b : β}, j' ∈ l.map g ++ L → b ∈ j'.colocations →
      ∃ j ∈ l, g j = j' ∧ (b ∈ j.colocations ∨ b ∈ D j) := by
    intro j' b hj' hb
    rcases mem_append.mp hj' with hj' | hj'
    · obtain ⟨j, hj, rfl⟩ := mem_map.mp hj'
      rw [(hg j).2.2.2, mem_append] at hb
      exact ⟨j, hj, rfl, hb⟩
    · rw [(hL j' hj').1] at hb
      cases hb
  constructor
  · have hsame : (l.map g).map (·.buffer) = l.map (·.buffer) :=
      map_map.trans (map_congr_left fun j _ => (hg j).1)
    rw [map_append, hsame, nodup_append]
    refine ⟨h.nodup, hnodup, fun c hc d hd => ?_⟩
    obtain ⟨j, hj, rfl⟩ := mem_map.mp hc
    obtain ⟨i, hi, rfl⟩ := mem_map.mp hd
    exact (hL i hi).2.1 j hj
  · intro j' hj' b hb
    obtain ⟨j, hj, rfl, hb | hb⟩ := hold hj' hb
    · obtain ⟨k, hk, hrest⟩ := h.child j hj b hb
      refine ⟨g k, mem_append_left _ (mem_map_of_mem hk), ?_⟩
      rw [(hg j).2.1, (hg k).1, (hg k).2.1, (hg k).2.2.1]
      exact hrest
    · obtain ⟨⟨i, hi, hrest⟩, -⟩ := (hD j hj).2 b hb
      exact ⟨i, mem_append_right _ hi, (hg j).2.1.symm ▸ hrest⟩
  · intro j' hj'
    rcases mem_append.mp hj' with hj' | hj'
    · obtain ⟨j, hj, rfl⟩ := mem_map.mp hj'
      rw [(hg j).2.2.2, nodup_append]
      refine ⟨h.colocations_nodup j hj, (hD j hj).1, ?_⟩
      rintro b hb _ hbD rfl
      exact hfresh j hj b hb j hj hbD
    · rw [(hL j' hj').1]
      exact nodup_nil
  · intro j' hj' k' hk' b hbj hbk
    obtain ⟨j, hj, rfl, hcj⟩ := hold hj' hbj
    obtain ⟨k, hk, rfl, hck⟩ := hold hk' hbk
    rw [(hg j).1, (hg k).1]
    rcases hcj with hcj | hcj
    · exact h.parent_unique j hj k hk b hcj (hck.resolve_right (hfresh j hj b hcj k hk))
    · exact ((hD j hj).2 b hcj).2 k hk (hck.resolve_left fun hb => hfresh k hk b hb j hj hcj)
  · intro j' hj' hneed
    have hex : ∃ i ∈ l, j'.buffer ∈ i.colocations ++ D i := by
      rcases mem_append.mp hj' with hj' | hj'
      · obtain ⟨j, hj, rfl⟩ := mem_map.mp hj'
        rw [(hg j).2.2.1] at hneed
        obtain ⟨i, hi, hmem⟩ := h.parent j hj hneed
        exact ⟨i, hi, (hg j).1.symm ▸ mem_append_left _ hmem⟩
      · obtain ⟨i, hi, hmem⟩ := (hL j' hj').2.2 hneed
        exact ⟨i, hi, mem_append_right _ hmem⟩
    obtain ⟨i, hi, hmem⟩ := hex
    exact ⟨g i, mem_append_left _ (mem_map_of_mem hi), (hg i).2.2.2.symm ▸ hmem⟩

variable [DecidableEq β]

theorem lookup_isSome_iff : (lookup l b).isSome ↔ ∃ i ∈ l, i.buffer = b := by
  rw [lookup, find?_isSome]
  simp only [decide_eq_true_eq]

theorem Forest.lookup_eq (h : Forest l) (hi : i ∈ l) : lookup l i.buffer = some i := by
  cases hl : lookup l i.buffer with
  | none =>
    have hsome : (lookup l i.buffer).isSome := lookup_isSome_iff.mpr ⟨i, hi, rfl⟩
    rw [hl] at hsome
    cases hsome
  | some j =>
    have hj : j ∈ l := mem_of_find?_eq_some hl
    have hbuf : j.buffer = i.buffer := by simpa using find?_some hl
    rw [h.eq_of_buffer hj hi hbuf]

theorem emplaceInterval_of_new (h : ∀ j ∈ l, j.buffer ≠ i.buffer) :
    emplaceInterval l i = l ++ [i] := by
  apply if_neg
  rw [lookup_isSome_iff]
  intro hex
  obtain ⟨j, hj, heq⟩ := hex
  exact h j hj heq

/-- Times of freeing do not matter for the forest. -/
theorem Forest.modifyAt_stop (h : Forest l) (stop : Int) :
    Forest (modifyAt l b fun i => { i with stop }) := by
  have hgrow := h.grow (g := fun i => if i.buffer = b then { i with stop } else i) (L := [])
    (D := fun _ => []) (fun j => by split <;> simp) nodup_nil nofun (by simp)
  rwa [append_nil] at hgrow

theorem Forest.concat_leaf {p : BufferInterval β} (h : Forest l)
    (hnew : ∀ j ∈ l, j.buffer ≠ i.buffer) (hneed : i.needAllocation = false)
    (hcoloc : i.colocations = []) (hp : p ∈ l) (hlt : p.start < i.start) :
    Forest (modifyAt l p.buffer (fun j => { j with colocations := j.colocations ++ [i.buffer] })
      ++ [i]) := by
  -- The new buffer is a colocation of `p` alone.
  have hD : ∀ {j : BufferInterval β} {c : β},
      c ∈ (if j.buffer = p.buffer then [i.buffer] else []) → c = i.buffer ∧ j.buffer = p.buffer := by
    intro j c hc
    split at hc
    next hjp => exact ⟨mem_singleton.mp hc, hjp⟩
    next => cases hc
  refine h.grow (D := fun j => if j.buffer = p.buffer then [i.buffer] else [])
    (fun j => by dsimp only; split <;> simp) (nodup_singleton _) ?_ fun j hj => ⟨?_, fun c hc => ?_⟩
  · exact forall_mem_singleton.mpr ⟨hcoloc, hnew, fun _ => ⟨p, hp, by simp⟩⟩
  · split <;> simp
  · obtain ⟨rfl, hjp⟩ := hD hc
    refine ⟨⟨i, mem_cons_self, rfl, hneed, ?_⟩, fun k _ hck => hjp.trans (hD hck).2.symm⟩
    rw [h.eq_of_buffer hj hp hjp]
    exact hlt

end TfReading.HeapSimulator
