import Mathlib.Data.List.Sort

/-!
# Repairing a topological rank

A rank is topological for a relation when every edge leads to a larger rank.  A
new edge `x → y` that goes down is repaired inside the window between the two
ranks: the nodes of the window that reach `x` take the smallest of the ranks in
play and the nodes of the window that `y` reaches take the largest.
-/

namespace TfReading.RankOrder

open List Relation

/-! ## Merging two sorted lists -/

section Merge

variable {xs ys : List Nat}

variable {i : Nat}

/-- Merging can only push the entries of the left list down. -/
theorem merge_getElem_le (hx : xs.Pairwise (· ≤ ·)) (hi : i < xs.length)
    (hm : i < (xs.merge ys (· ≤ ·)).length) : (xs.merge ys (· ≤ ·))[i] ≤ xs[i] := by
  induction xs, ys using merge.induct (fun a b : Nat => decide (a ≤ b))
      generalizing i with
  | case1 ys => exact absurd hi (Nat.not_lt_zero i)
  | case2 xs _ => simp
  | case3 x xs y ys hle ih =>
    simp only [cons_merge_cons, if_pos hle]
    cases i with
    | zero => exact le_rfl
    | succ => exact ih hx.of_cons (by simpa using hi) _
  | case4 x xs y ys hle ih =>
    simp only [cons_merge_cons, if_neg hle]
    have hyx : y ≤ x := by simpa using Nat.le_of_lt (by simpa using hle)
    cases i with
    | zero => exact hyx
    | succ i =>
      have hi' : i < (x :: xs).length := by omega
      exact le_trans (ih hx hi' _)
        (pairwise_iff_getElem.mp hx i (i + 1) hi' hi (Nat.lt_succ_self i))

theorem ge_of_mem_merge {y z : Nat} (hxs : ∀ w ∈ xs, y ≤ w) (hys : ∀ w ∈ ys, y ≤ w)
    (hz : z ∈ xs.merge ys (· ≤ ·)) : y ≤ z :=
  (mem_merge.mp hz).elim (hxs z) (hys z)

/-- Merging can only push the entries of the right list up. -/
theorem getElem_le_merge (hx : xs.Pairwise (· ≤ ·)) (hy : ys.Pairwise (· ≤ ·)) {j : Nat} (hj : j < ys.length)
    (hm : xs.length + j < (xs.merge ys (· ≤ ·)).length) :
    ys[j] ≤ (xs.merge ys (· ≤ ·))[xs.length + j] := by
  induction xs, ys using merge.induct (fun a b : Nat => decide (a ≤ b))
      generalizing j with
  | case1 ys => simp
  | case2 xs _ => exact absurd hj (Nat.not_lt_zero j)
  | case3 x xs y ys hle ih =>
    simp only [cons_merge_cons, if_pos hle, length_cons]
    simp only [Nat.add_right_comm xs.length 1 j, getElem_cons_succ]
    exact ih hx.of_cons hy hj _
  | case4 x xs y ys hle ih =>
    have hyx : y ≤ x := by simpa using Nat.le_of_lt (by simpa using hle)
    cases j with
    | zero =>
      refine ge_of_mem_merge (fun z hz => ?_) (fun z hz => ?_) (getElem_mem hm)
      · rcases mem_cons.mp hz with rfl | hz
        · exact hyx
        · exact le_trans hyx (rel_of_pairwise_cons hx hz)
      · rcases mem_cons.mp hz with rfl | hz
        · exact le_rfl
        · exact rel_of_pairwise_cons hy hz
    | succ =>
      simp only [cons_merge_cons, if_neg hle, length_cons]
      exact ih hx hy.of_cons (by simpa using hj) _

theorem merge_strict (hx : xs.Pairwise (· ≤ ·)) (hy : ys.Pairwise (· ≤ ·))
    (hn : (xs ++ ys).Nodup) : (xs.merge ys (· ≤ ·)).Pairwise (· < ·) := by
  have hsorted : (xs.merge ys (· ≤ ·)).Pairwise (· ≤ ·) := by
    simpa using @List.pairwise_merge Nat (fun a b => decide (a ≤ b))
      (fun a b c hab hbc => by simp at *; omega) (fun a b => by simp; omega) xs ys
      (by simpa using hx) (by simpa using hy)
  have hnodup : (xs.merge ys (· ≤ ·)).Nodup :=
    (merge_perm_append (fun a b : Nat => decide (a ≤ b))).nodup_iff.mpr hn
  exact (hsorted.and hnodup).imp (fun h => lt_of_le_of_ne h.1 h.2)

end Merge

/-! ## Assigning ranks along a list -/

section Assign

variable {ν : Type*} [DecidableEq ν]

/-- Writes the second components at the first ones, in order. -/
def assign (rank : ν → Nat) (ps : List (ν × Nat)) : ν → Nat :=
  ps.foldl (fun f p => Function.update f p.1 p.2) rank

variable {rank : ν → Nat} {ps : List (ν × Nat)}

variable {v : ν}

theorem assign_of_not_mem (h : v ∉ ps.map Prod.fst) : assign rank ps v = rank v := by
  induction ps generalizing rank with
  | nil => rfl
  | cons p ps ih =>
    rw [map_cons, mem_cons, not_or] at h
    show assign (Function.update rank p.1 p.2) ps v = rank v
    rw [ih h.2, Function.update_of_ne h.1]

theorem assign_of_mem (hn : (ps.map Prod.fst).Nodup)
    {p : ν × Nat} (h : p ∈ ps) : assign rank ps p.1 = p.2 := by
  induction ps generalizing rank with
  | nil => exact absurd h (by simp)
  | cons q ps ih =>
    rw [map_cons, nodup_cons] at hn
    show assign (Function.update rank q.1 q.2) ps p.1 = p.2
    rcases mem_cons.mp h with rfl | h
    · rw [assign_of_not_mem hn.1, Function.update_self]
    · exact ih hn.2 h

theorem assign_zip_getElem {vs : List ν} {rs : List Nat} (hn : vs.Nodup)
    (hlen : rs.length = vs.length) (hi : i < vs.length) :
    assign rank (vs.zip rs) vs[i] = rs[i] := by
  have hkeys : (vs.zip rs).map Prod.fst = vs := map_fst_zip hlen.ge
  have hz : i < (vs.zip rs).length := by simp [hlen, hi]
  have hmem : (vs[i], rs[i]) ∈ vs.zip rs := by
    rw [← getElem_zip]
    exact getElem_mem hz
  exact assign_of_mem (hkeys.symm ▸ hn) hmem

end Assign

/-! ## The repair -/

section Reach

variable {ν : Type*} {E : ν → ν → Prop} {rank : ν → Nat}

theorem rank_le_of_reach (hE : ∀ a b, E a b → rank a < rank b) {a b : ν}
    (h : ReflTransGen E a b) : rank a ≤ rank b := by
  induction h with
  | refl => exact le_rfl
  | tail _ hbc ih => exact le_trans ih (hE _ _ hbc).le

theorem reach_below (hE : ∀ a b, E a b → rank a < rank b) {bound : Nat} {a b : ν}
    (h : ReflTransGen E a b) (hb : rank b < bound) :
    ReflTransGen (fun u v => E u v ∧ rank v < bound) a b := by
  induction h with
  | refl => exact .refl
  | tail _ hbc ih => exact (ih (lt_trans (hE _ _ hbc) hb)).tail ⟨hbc, hb⟩

theorem meets_iff_reach (hE : ∀ a b, E a b → rank a < rank b) {x y : ν} (hxy : y ≠ x)
    (hx : ∀ v w, E v w → rank w = rank x → w = x) :
    (∃ v, ReflTransGen (fun u w => E u w ∧ rank w < rank x) y v ∧
      ∃ w, E v w ∧ rank w = rank x) ↔ ReflTransGen E y x := by
  constructor
  · rintro ⟨v, hv, w, hvw, hw⟩
    rw [hx v w hvw hw] at hvw
    have hreach : ReflTransGen E y v :=
      .mono (fun _ _ h => h.1) y v hv
    exact hreach.tail hvw
  · intro h
    rcases ReflTransGen.cases_tail h with he | ⟨v, hv, hvx⟩
    · exact absurd he.symm hxy
    · exact ⟨v, reach_below hE hv (hE v x hvx), x, hvx, rfl⟩

end Reach

section Repair

variable {ν : Type*} [DecidableEq ν] {rank : ν → Nat}

def ranks (rank : ν → Nat) (back fwd : List ν) : List Nat :=
  (back.map rank).merge (fwd.map rank) (· ≤ ·)

/-- The ranks in play are handed out in order, first along `back`, then along
`fwd`. -/
def repair (rank : ν → Nat) (back fwd : List ν) : ν → Nat :=
  assign rank ((back ++ fwd).zip (ranks rank back fwd))

omit [DecidableEq ν] in
@[simp]
theorem length_ranks (rank : ν → Nat) (back fwd : List ν) :
    (ranks rank back fwd).length = (back ++ fwd).length := by
  simp [ranks, length_merge]

omit [DecidableEq ν] in
theorem mem_ranks {back fwd : List ν} {k : Nat} :
    k ∈ ranks rank back fwd ↔ ∃ v ∈ back ++ fwd, rank v = k := by
  rw [ranks, mem_merge, ← mem_append, ← map_append, mem_map]

theorem repair_of_not_mem {back fwd : List ν}
    (hv : v ∉ back ++ fwd) : repair rank back fwd v = rank v := by
  refine assign_of_not_mem ?_
  rwa [map_fst_zip (Nat.le_of_eq (length_ranks rank back fwd).symm)]

/-- `back` and `fwd` are the two closed halves of the window that a new edge
`x → y` opens in a topological rank on `S`. -/
structure Window (S : Set ν) (E : ν → ν → Prop) (rank : ν → Nat) (x y : ν)
    (back fwd : List ν) : Prop where
  inj : Set.InjOn rank S
  edge_mem : ∀ a b, E a b → a ∈ S ∧ b ∈ S
  edge_rank : ∀ a b, E a b → rank a < rank b
  back_mem : ∀ b ∈ back, b ∈ S
  fwd_mem : ∀ a ∈ fwd, a ∈ S
  back_nodup : back.Nodup
  fwd_nodup : fwd.Nodup
  back_sorted : (back.map rank).Pairwise (· ≤ ·)
  fwd_sorted : (fwd.map rank).Pairwise (· ≤ ·)
  x_mem : x ∈ back
  y_mem : y ∈ fwd
  back_reach : ∀ b ∈ back, Relation.ReflTransGen E b x
  fwd_reach : ∀ a ∈ fwd, Relation.ReflTransGen E y a
  back_above : ∀ b ∈ back, rank y < rank b
  fwd_below : ∀ a ∈ fwd, rank a < rank x
  back_closed : ∀ b ∈ back, ∀ a, E a b → rank y < rank a → a ∈ back
  fwd_closed : ∀ a ∈ fwd, ∀ b, E a b → rank b ≠ rank x ∧ (rank b < rank x → b ∈ fwd)

namespace Window

variable {S : Set ν} {E : ν → ν → Prop} {rank : ν → Nat} {x y : ν} {back fwd : List ν}
  (h : Window S E rank x y back fwd)

include h

omit [DecidableEq ν] in
/-- A node on both sides would carry a path from `y` to `x`. -/
theorem disjoint (hb : v ∈ back) (hf : v ∈ fwd) : False := by
  have hreach := h.back_reach v hb
  clear hb
  induction hreach using ReflTransGen.head_induction_on with
  | refl => exact absurd (h.fwd_below x hf) (lt_irrefl _)
  | head hac hcx ih =>
    have hc := h.fwd_closed _ hf _ hac
    have hle := rank_le_of_reach h.edge_rank hcx
    exact ih (hc.2 (lt_of_le_of_ne hle hc.1))

omit [DecidableEq ν] in
theorem nodup : (back ++ fwd).Nodup :=
  nodup_append.mpr ⟨h.back_nodup, h.fwd_nodup, fun _ ha _ hb e =>
    h.disjoint ha (e ▸ hb)⟩

omit [DecidableEq ν] in
theorem mem (hv : v ∈ back ++ fwd) : v ∈ S :=
  (mem_append.mp hv).elim (h.back_mem v) (h.fwd_mem v)

omit [DecidableEq ν] in
theorem rank_nodup : (back.map rank ++ fwd.map rank).Nodup := by
  rw [← map_append]
  exact .map_on (fun a ha b hb e => h.inj (h.mem ha) (h.mem hb) e) h.nodup

theorem repair_getElem (hi : i < (back ++ fwd).length) (hr : i < (ranks rank back fwd).length) :
    repair rank back fwd (back ++ fwd)[i] = (ranks rank back fwd)[i] :=
  assign_zip_getElem h.nodup (length_ranks rank back fwd) hi

theorem exists_repair_eq (hv : v ∈ back ++ fwd) :
    ∃ w ∈ back ++ fwd, rank w = repair rank back fwd v := by
  obtain ⟨i, hi, rfl⟩ := getElem_of_mem hv
  have hr : i < (ranks rank back fwd).length := by rwa [length_ranks]
  rw [h.repair_getElem hi hr]
  exact mem_ranks.mp (getElem_mem hr)

theorem repair_lt_of_lt {j : Nat} (hij : i < j) (hi : i < (back ++ fwd).length)
    (hj : j < (back ++ fwd).length) :
    repair rank back fwd (back ++ fwd)[i] < repair rank back fwd (back ++ fwd)[j] := by
  have hri : i < (ranks rank back fwd).length := by rwa [length_ranks]
  have hrj : j < (ranks rank back fwd).length := by rwa [length_ranks]
  rw [h.repair_getElem hi hri, h.repair_getElem hj hrj]
  exact pairwise_iff_getElem.mp
    (merge_strict h.back_sorted h.fwd_sorted h.rank_nodup) i j hri hrj hij

variable {a b : ν}

/-- Inside either half the repair keeps the order, and `back` precedes `fwd`. -/
theorem repair_lt_of_pairwise {R : ν → ν → Prop} (hR : (back ++ fwd).Pairwise R)
    (ha : a ∈ back ++ fwd) (hb : b ∈ back ++ fwd) (hne : a ≠ b) (hba : ¬R b a) :
    repair rank back fwd a < repair rank back fwd b := by
  obtain ⟨i, hi, rfl⟩ := getElem_of_mem ha
  obtain ⟨j, hj, rfl⟩ := getElem_of_mem hb
  rcases lt_trichotomy i j with hij | rfl | hji
  · exact h.repair_lt_of_lt hij hi hj
  · exact absurd rfl hne
  · exact absurd (pairwise_iff_getElem.mp hR j i hj hi hji) hba

theorem repair_le_of_mem_back (hb : b ∈ back) : repair rank back fwd b ≤ rank b := by
  obtain ⟨i, hi, rfl⟩ := getElem_of_mem hb
  have hi' : i < (back ++ fwd).length := by rw [length_append]; omega
  have hr : i < (ranks rank back fwd).length := by rwa [length_ranks]
  have hrep := h.repair_getElem hi' hr
  rw [getElem_append_left hi] at hrep
  rw [hrep]
  have hle : (ranks rank back fwd)[i] ≤ _ :=
    merge_getElem_le h.back_sorted (by rwa [length_map]) hr
  rwa [getElem_map] at hle

theorem le_repair_of_mem_fwd (ha : a ∈ fwd) : rank a ≤ repair rank back fwd a := by
  obtain ⟨j, hj, rfl⟩ := getElem_of_mem ha
  have hj' : back.length + j < (back ++ fwd).length := by rw [length_append]; omega
  have hr : back.length + j < (ranks rank back fwd).length := by rwa [length_ranks]
  have hrep := h.repair_getElem hj' hr
  rw [getElem_append_right (Nat.le_add_right _ _)] at hrep
  simp only [Nat.add_sub_cancel_left] at hrep
  rw [hrep]
  have hle := getElem_le_merge h.back_sorted h.fwd_sorted (by rwa [length_map])
    (by rw [length_map]; exact hr)
  simp only [getElem_map, length_map] at hle
  exact hle

omit [DecidableEq ν] in
/-- The list of the window keeps either half sorted and puts `back` first. -/
theorem pairwise_before : (back ++ fwd).Pairwise (fun a b =>
    (b ∈ back → a ∈ back ∧ rank a ≤ rank b) ∧ (a ∈ fwd → b ∈ fwd ∧ rank a ≤ rank b)) := by
  have hback := pairwise_map.mp h.back_sorted
  have hfwd := pairwise_map.mp h.fwd_sorted
  rw [pairwise_append]
  refine ⟨?_, ?_, fun a ha b hb => ⟨fun hb' => (h.disjoint hb' hb).elim,
    fun ha' => (h.disjoint ha ha').elim⟩⟩
  · exact hback.imp_of_mem (fun ha _ hab =>
      ⟨fun _ => ⟨ha, hab⟩, fun ha' => (h.disjoint ha ha').elim⟩)
  · exact hfwd.imp_of_mem (fun _ hb hab =>
      ⟨fun hb' => (h.disjoint hb' hb).elim, fun _ => ⟨hb, hab⟩⟩)

theorem repair_lt_of_side (ha : a ∈ back ++ fwd) (hb : b ∈ back ++ fwd)
    (hside : a ∈ back ∨ b ∈ fwd) (hab : rank a < rank b) :
    repair rank back fwd a < repair rank back fwd b := by
  refine h.repair_lt_of_pairwise h.pairwise_before ha hb (fun e => ?_) (fun hba => ?_)
  · rw [e] at hab
    exact absurd hab (lt_irrefl _)
  · have hle : rank b ≤ rank a := hside.elim (fun ha => (hba.1 ha).2) fun hb => (hba.2 hb).2
    exact absurd hab (Nat.not_lt_of_le hle)

theorem repair_back_lt_fwd (ha : a ∈ back) (hb : b ∈ fwd) :
    repair rank back fwd a < repair rank back fwd b :=
  h.repair_lt_of_pairwise h.pairwise_before (mem_append_left _ ha)
    (mem_append_right _ hb) (fun e => h.disjoint ha (e ▸ hb))
    (fun hba => h.disjoint (hba.1 ha).1 hb)

omit [DecidableEq ν] in
theorem rank_mem_window (hv : v ∈ back ++ fwd) : rank y ≤ rank v ∧ rank v ≤ rank x := by
  rcases mem_append.mp hv with hv | hv
  · exact ⟨(h.back_above v hv).le, rank_le_of_reach h.edge_rank (h.back_reach v hv)⟩
  · exact ⟨rank_le_of_reach h.edge_rank (h.fwd_reach v hv), (h.fwd_below v hv).le⟩

theorem repair_mem_window (hv : v ∈ back ++ fwd) :
    rank y ≤ repair rank back fwd v ∧ repair rank back fwd v ≤ rank x := by
  obtain ⟨w, hw, hrank⟩ := h.exists_repair_eq hv
  rw [← hrank]
  exact h.rank_mem_window hw

/-- An edge that was there before keeps pointing upwards. -/
theorem repair_edge (hab : E a b) :
    repair rank back fwd a < repair rank back fwd b := by
  have hlt := h.edge_rank a b hab
  by_cases ha : a ∈ back ++ fwd <;> by_cases hb : b ∈ back ++ fwd
  · by_cases hside : a ∈ back ∨ b ∈ fwd
    · exact h.repair_lt_of_side ha hb hside hlt
    · -- the search from `y` would have followed this edge
      rw [not_or] at hside
      have hb := (mem_append.mp hb).resolve_right hside.2
      have hc := h.fwd_closed a ((mem_append.mp ha).resolve_left hside.1) b hab
      have hle := rank_le_of_reach h.edge_rank (h.back_reach b hb)
      exact absurd (hc.2 (lt_of_le_of_ne hle hc.1)) hside.2
  · rw [repair_of_not_mem hb]
    rcases mem_append.mp ha with ha' | ha'
    · exact lt_of_le_of_lt (h.repair_le_of_mem_back ha') hlt
    · have hc := h.fwd_closed a ha' b hab
      have hge : rank x ≤ rank b :=
        Nat.le_of_not_lt (fun hbx => hb (mem_append_right _ (hc.2 hbx)))
      exact lt_of_le_of_lt (h.repair_mem_window ha).2
        (lt_of_le_of_ne hge hc.1.symm)
  · rw [repair_of_not_mem ha]
    rcases mem_append.mp hb with hb' | hb'
    · have hle : rank a ≤ rank y := Nat.le_of_not_lt
        (fun hya => ha (mem_append_left _ (h.back_closed b hb' a hab hya)))
      have hne : rank a ≠ rank y := fun e => ha (mem_append_right _
        (h.inj (h.edge_mem a b hab).1 (h.fwd_mem y h.y_mem) e ▸ h.y_mem))
      exact lt_of_lt_of_le (lt_of_le_of_ne hle hne) (h.repair_mem_window hb).1
    · exact lt_of_lt_of_le hlt (h.le_repair_of_mem_fwd hb')
  · rw [repair_of_not_mem ha, repair_of_not_mem hb]
    exact hlt

theorem repair_new_edge : repair rank back fwd x < repair rank back fwd y :=
  h.repair_back_lt_fwd h.x_mem h.y_mem

theorem repair_injOn : Set.InjOn (repair rank back fwd) S := by
  have houtside : ∀ u ∈ back ++ fwd, ∀ v ∈ S, v ∉ back ++ fwd →
      repair rank back fwd u ≠ repair rank back fwd v := by
    intro u hu v hvS hv e
    obtain ⟨w, hw, hrank⟩ := h.exists_repair_eq hu
    rw [e, repair_of_not_mem hv] at hrank
    exact hv (h.inj (h.mem hw) hvS hrank ▸ hw)
  intro u huS v hvS e
  by_cases hu : u ∈ back ++ fwd <;> by_cases hv : v ∈ back ++ fwd
  · obtain ⟨i, hi, rfl⟩ := getElem_of_mem hu
    obtain ⟨j, hj, rfl⟩ := getElem_of_mem hv
    rcases lt_trichotomy i j with hij | rfl | hji
    · exact absurd e (h.repair_lt_of_lt hij hi hj).ne
    · rfl
    · exact absurd e (h.repair_lt_of_lt hji hj hi).ne'
  · exact absurd e (houtside u hu v hvS hv)
  · exact absurd e.symm (houtside v hv u huS hu)
  · rw [repair_of_not_mem hu, repair_of_not_mem hv] at e
    exact h.inj huS hvS e

end Window

end Repair

end TfReading.RankOrder
