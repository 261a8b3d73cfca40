import Mathlib.Data.List.Perm.Subperm
import TfReading.HeapSimulator.Forest

/-!
# Transitive colocations

`GetTransitiveColocations` walks over the tree below an interval.  In a forest it meets every
buffer once, so as many turns as there are intervals are enough.
-/

namespace TfReading.HeapSimulator

open List Relation

variable {β : Type}

def Parent (l : List (BufferInterval β)) (b c : β) : Prop :=
  ∃ i ∈ l, i.buffer = b ∧ c ∈ i.colocations

def Below (l : List (BufferInterval β)) : β → β → Prop := Relation.ReflTransGen (Parent l)

section Roots

variable {l : List (BufferInterval β)} {i j r r' : BufferInterval β} {b c : β}

theorem Forest.parent_eq (h : Forest l) {b' : β} (hb : Parent l b c) (hb' : Parent l b' c) :
    b = b' := by
  obtain ⟨i, hi, rfl, hci⟩ := hb
  obtain ⟨j, hj, rfl, hcj⟩ := hb'
  exact h.parent_unique i hi j hj c hci hcj

theorem Forest.no_parent (h : Forest l) (hr : r ∈ l) (hneed : r.needAllocation = true) :
    ¬Parent l b r.buffer := by
  intro hp
  obtain ⟨i, hi, -, hmem⟩ := hp
  obtain ⟨j, hj, hbuf, hjneed, -⟩ := h.child i hi _ hmem
  rw [h.eq_of_buffer hj hr hbuf, hneed] at hjneed
  cases hjneed

theorem Forest.eq_of_below_root (h : Forest l) (hr : r ∈ l) (hneed : r.needAllocation = true)
    (hb : Below l b r.buffer) : b = r.buffer := by
  rcases ReflTransGen.cases_tail hb with heq | ⟨c, -, hc⟩
  · exact heq.symm
  · exact absurd hc (h.no_parent hr hneed)

/-- Only intervals stand below an interval. -/
theorem Forest.exists_of_below (h : Forest l) (hr : r ∈ l) (hb : Below l r.buffer b) :
    ∃ i ∈ l, i.buffer = b := by
  rcases ReflTransGen.cases_tail hb with heq | ⟨c, -, i, hi, -, hmem⟩
  · exact ⟨r, hr, heq.symm⟩
  · obtain ⟨j, hj, hbuf, -⟩ := h.child i hi b hmem
    exact ⟨j, hj, hbuf⟩

/-- The trees of different roots have no buffer in common. -/
theorem Forest.root_unique (h : Forest l) (hr : r ∈ l) (hneed : r.needAllocation = true)
    (hr' : r' ∈ l) (hneed' : r'.needAllocation = true) (hb : Below l r.buffer b)
    (hb' : Below l r'.buffer b) : r = r' := by
  have hunique : Relator.RightUnique (Function.swap (Parent l)) :=
    fun _ _ _ hx hy => h.parent_eq hx hy
  apply h.eq_of_buffer hr hr'
  rcases ReflTransGen.total_of_right_unique hunique (reflTransGen_swap.mpr hb)
    (reflTransGen_swap.mpr hb') with hle | hle
  · exact (h.eq_of_below_root hr hneed (reflTransGen_swap.mp hle)).symm
  · exact h.eq_of_below_root hr' hneed' (reflTransGen_swap.mp hle)

/-- Every interval stands below a root.  Parents started earlier, and the first time is zero. -/
theorem Forest.exists_root (h : Forest l) (hstart : ∀ i ∈ l, 0 ≤ i.start) (hi : i ∈ l) :
    ∃ r ∈ l, r.needAllocation = true ∧ Below l r.buffer i.buffer := by
  generalize hn : i.start.toNat = n
  induction n using Nat.strong_induction_on generalizing i with
  | _ n ih =>
    cases hneed : i.needAllocation with
    | true => exact ⟨i, hi, hneed, .refl⟩
    | false =>
      obtain ⟨p, hp, hmem⟩ := h.parent i hi hneed
      obtain ⟨j, hj, hbuf, -, hlt⟩ := h.child p hp _ hmem
      rw [h.eq_of_buffer hj hi hbuf] at hlt
      have hpos := hstart p hp
      obtain ⟨r, hr, hrneed, hbelow⟩ := ih _ (by omega) hp rfl
      exact ⟨r, hr, hrneed, hbelow.tail ⟨p, hp, rfl, hmem⟩⟩

end Roots

/-! ## The worklist -/

variable {l worklist : List (BufferInterval β)} {r : BufferInterval β} {visited result : List β}
    {root : β}

/-- Between two turns: what was taken from the worklist and what is still on it. -/
structure Visiting (l : List (BufferInterval β)) (root : β) (visited : List β)
    (worklist : List (BufferInterval β)) (result : List β) : Prop where
  mem : ∀ i ∈ worklist, i ∈ l
  nodup : (visited ++ worklist.map (·.buffer)).Nodup
  keys : ∀ b ∈ visited, ∃ i ∈ l, i.buffer = b
  root_mem : root ∈ visited ++ worklist.map (·.buffer)
  closed : ∀ b ∈ visited, ∀ c, Parent l b c → c ∈ visited ++ worklist.map (·.buffer)
  parent : ∀ b ∈ visited ++ worklist.map (·.buffer), b = root ∨ ∃ c ∈ visited, Parent l c b
  below : ∀ b ∈ visited ++ worklist.map (·.buffer), Below l root b
  result_iff : ∀ b, b ∈ result ↔ b ∈ visited ++ worklist.map (·.buffer) ∧ b ≠ root

theorem Visiting.start (hr : r ∈ l) : Visiting l r.buffer [] [r] [] where
  mem := forall_mem_singleton.mpr hr
  nodup := nodup_singleton _
  keys := nofun
  root_mem := mem_singleton_self _
  closed := nofun
  parent := fun b hb => .inl (mem_singleton.mp hb)
  below := forall_mem_singleton.mpr .refl
  result_iff := by
    intro b
    simp

/-- A turn moves an item from the worklist to the visited ones and adds its colocations, which
were not met before. -/
theorem Visiting.step {item : BufferInterval β} {worklist' : List (BufferInterval β)}
    {result' : List β} (hf : Forest l) (hroot : ∀ b, ¬Parent l b root)
    (hv : Visiting l root visited (item :: worklist) result)
    (hres : ∀ b, b ∈ result' ↔ b ∈ result ∨ b ∈ item.colocations)
    (hmem : ∀ i ∈ worklist', i ∈ l)
    (hmap : worklist'.map (·.buffer) = item.colocations.reverse ++ worklist.map (·.buffer)) :
    Visiting l root (visited ++ [item.buffer]) worklist' result' := by
  have hitem : item ∈ l := hv.mem item mem_cons_self
  have hperm : (visited ++ [item.buffer] ++ worklist'.map (·.buffer)).Perm
      (visited ++ (item :: worklist).map (·.buffer) ++ item.colocations) := by
    rw [hmap, append_assoc, append_assoc]
    apply List.Perm.append_left
    apply List.Perm.cons
    exact (item.colocations.reverse_perm.append_right _).trans perm_append_comm
  have hseen : ∀ b, b ∈ visited ++ [item.buffer] ++ worklist'.map (·.buffer) ↔
      b ∈ visited ++ (item :: worklist).map (·.buffer) ∨ b ∈ item.colocations := by
    intro b
    rw [hperm.mem_iff, mem_append]
  have hnotvisited : item.buffer ∉ visited := by
    intro hmem
    exact (nodup_append.mp hv.nodup).2.2 _ hmem _ mem_cons_self rfl
  have hp : ∀ c ∈ item.colocations, Parent l item.buffer c := fun c hc => ⟨item, hitem, rfl, hc⟩
  -- A buffer that was met before has its parent among the visited ones, or is the root.
  have hfresh : ∀ c ∈ item.colocations, c ∉ visited ++ (item :: worklist).map (·.buffer) := by
    intro c hc hmet
    rcases hv.parent c hmet with heq | ⟨b, hb, hbc⟩
    · exact hroot _ (heq ▸ hp c hc)
    · exact hnotvisited (hf.parent_eq (hp c hc) hbc ▸ hb)
  constructor
  · exact hmem
  · rw [hperm.nodup_iff, nodup_append]
    refine ⟨hv.nodup, hf.colocations_nodup item hitem, ?_⟩
    intro b hb c hc heq
    exact hfresh c hc (heq ▸ hb)
  · exact forall_mem_append.mpr ⟨hv.keys, forall_mem_singleton.mpr ⟨item, hitem, rfl⟩⟩
  · exact (hseen root).mpr (.inl hv.root_mem)
  · intro b hb c hc
    rw [hseen]
    rcases mem_append.mp hb with hb | hb
    · exact .inl (hv.closed b hb c hc)
    · obtain ⟨i, hi, hbuf, hci⟩ := hc
      rw [hf.eq_of_buffer hi hitem (hbuf.trans (mem_singleton.mp hb))] at hci
      exact .inr hci
  · intro b hb
    rcases (hseen b).mp hb with hb | hb
    · exact (hv.parent b hb).imp_right fun ⟨c, hc, hcb⟩ => ⟨c, mem_append_left _ hc, hcb⟩
    · exact .inr ⟨item.buffer, mem_append_right _ (mem_singleton_self _), hp b hb⟩
  · intro b hb
    rcases (hseen b).mp hb with hb | hb
    · exact hv.below b hb
    · exact (hv.below item.buffer (mem_append_right _ mem_cons_self)).tail (hp b hb)
  · intro b
    rw [hres, hv.result_iff, hseen]
    rw [or_and_right]
    exact or_congr_right (and_iff_left_of_imp fun hb heq => hroot _ (heq ▸ hp b hb)).symm

theorem Visiting.length_le (hv : Visiting l root visited worklist result) :
    visited.length + worklist.length ≤ l.length := by
  have hsub : visited ++ worklist.map (·.buffer) ⊆ l.map (·.buffer) :=
    append_subset.mpr ⟨fun b hb => mem_map.mpr (hv.keys b hb), map_subset _ hv.mem⟩
  have hle := (subperm_of_subset hv.nodup hsub).length_le
  rw [length_append, length_map, length_map] at hle
  exact hle

theorem Visiting.mem_result (hv : Visiting l root visited [] result) (b : β) :
    b ∈ result ↔ Below l root b ∧ b ≠ root := by
  have hseen : ∀ c, c ∈ visited ++ ([] : List (BufferInterval β)).map (·.buffer) ↔ c ∈ visited := by
    intro c
    rw [map_nil, append_nil]
  rw [hv.result_iff]
  apply and_congr_left'
  constructor
  · exact hv.below b
  · intro hb
    induction hb with
    | refl => exact hv.root_mem
    | tail _ hp ih => exact hv.closed _ ((hseen _).mp ih) _ hp

variable [DecidableEq β] {fuel : Nat}

/-- The inner loop puts all colocations of an item on the worklist. -/
theorem foldlM_visitColocated {bs : List β} (result : List β)
    (hbs : ∀ b ∈ bs, ∃ i ∈ l, i.buffer = b) (hw : ∀ i ∈ worklist, i ∈ l) :
    ∃ result' worklist', bs.foldlM (visitColocated l) (result, worklist) =
        some (result', worklist') ∧
      (∀ b, b ∈ result' ↔ b ∈ result ∨ b ∈ bs) ∧ (∀ i ∈ worklist', i ∈ l) ∧
      worklist'.map (·.buffer) = bs.reverse ++ worklist.map (·.buffer) := by
  induction bs generalizing result worklist with
  | nil => exact ⟨result, worklist, rfl, by simp, hw, rfl⟩
  | cons b bs ih =>
    obtain ⟨hb, hbs⟩ := forall_mem_cons.mp hbs
    obtain ⟨i, hlook⟩ := Option.isSome_iff_exists.mp (lookup_isSome_iff.mpr hb)
    have hi : i ∈ l := mem_of_find?_eq_some hlook
    have hbuf : i.buffer = b := by simpa using find?_some hlook
    obtain ⟨result', worklist', hrun, hres, hmem, hmap⟩ :=
      ih (result.insert b) hbs (forall_mem_cons.mpr ⟨hi, hw⟩)
    refine ⟨result', worklist', ?_, ?_, hmem, ?_⟩
    · rw [foldlM_cons, visitColocated, hlook]
      exact hrun
    · intro c
      rw [hres, mem_insert_iff, mem_cons]
      tauto
    · rw [hmap, map_cons, hbuf, reverse_cons, append_assoc]
      rfl

theorem colocationsLoop_spec (hf : Forest l)
    (hroot : ∀ b, ¬Parent l b root) (hv : Visiting l root visited worklist result)
    (hfuel : l.length ≤ fuel + visited.length) :
    ∃ result', colocationsLoop l fuel worklist result = some result' ∧
      ∀ b, b ∈ result' ↔ Below l root b ∧ b ≠ root := by
  induction fuel generalizing visited worklist result with
  | zero =>
    cases worklist with
    | nil => exact ⟨result, rfl, hv.mem_result⟩
    | cons =>
      have hle := hv.length_le
      rw [length_cons] at hle
      omega
  | succ fuel ih =>
    cases worklist with
    | nil => exact ⟨result, rfl, hv.mem_result⟩
    | cons item =>
      have hitem : item ∈ l := hv.mem item mem_cons_self
      have hcoloc : ∀ b ∈ item.colocations, ∃ i ∈ l, i.buffer = b := by
        intro b hb
        obtain ⟨i, hi, hbuf, -⟩ := hf.child item hitem b hb
        exact ⟨i, hi, hbuf⟩
      obtain ⟨result', worklist', hrun, hres, hmem, hmap⟩ := foldlM_visitColocated result
        hcoloc fun i hi => hv.mem i (mem_cons_of_mem item hi)
      rw [colocationsLoop, hrun]
      apply ih (hv.step hf hroot hres hmem hmap)
      rw [length_append, length_singleton]
      omega

theorem getTransitiveColocations_spec (orders : Orders β) {h : Heap β}
    (hf : Forest h.bufferIntervals) (hr : r ∈ h.bufferIntervals) (hneed : r.needAllocation = true)
    (hfuel : h.bufferIntervals.length ≤ fuel) :
    ∃ result, getTransitiveColocations fuel h r = some result ∧
      r.buffer ∉ orders.setOrder result ∧
      ∀ b, Below h.bufferIntervals r.buffer b ↔ b = r.buffer ∨ b ∈ orders.setOrder result := by
  obtain ⟨result, hres, hiff⟩ :=
    colocationsLoop_spec hf (fun _ => hf.no_parent hr hneed) (.start hr) hfuel
  have hmem := fun b => (orders.setOrder_perm result).mem_iff.trans (hiff b)
  refine ⟨result, hres, fun hin => ((hmem _).mp hin).2 rfl, fun b => ?_⟩
  rw [hmem]
  constructor
  · exact fun hb => (eq_or_ne b r.buffer).imp_right fun hne => ⟨hb, hne⟩
  · rintro (rfl | hb)
    · exact .refl
    · exact hb.1

end TfReading.HeapSimulator
