import Mathlib.Data.Finset.Card

/-!
# Bounded depth-first search with an explicit stack

The search starts at one node, enters only successors inside a bound, and gives
up as soon as it meets a successor on which it has to stop.  Marks live in a
function that the caller hands in and gets back, so a search may start with
marks left by an earlier one.
-/

namespace TfReading.Search

open Function List

variable {ν : Type*} [DecidableEq ν] {visited : ν → Bool} {n : ν}

theorem card_unvisited_lt {nodes : Finset ν} (h : n ∈ nodes ∧ visited n = false) :
    (nodes.filter (fun v => update visited n true v = false)).card <
      (nodes.filter (fun v => visited v = false)).card := by
  refine Finset.card_lt_card ⟨fun v hv => ?_, fun hsub => ?_⟩
  · rw [Finset.mem_filter] at hv ⊢
    by_cases hvn : v = n
    · rw [hvn, update_self] at hv
      exact absurd hv.2 (by simp)
    · rw [update_of_ne hvn] at hv
      exact hv
  · have hn := hsub (Finset.mem_filter.mpr h)
    rw [Finset.mem_filter, update_self] at hn
    exact absurd hn.2 (by simp)

/-- A finite graph, the nodes the search may enter and those it stops on. -/
structure Bounded (ν : Type*) where
  nodes : Finset ν
  succ : ν → List ν
  within : ν → Bool
  stop : ν → Bool

/-- `found` lists the marked nodes in the order in which they were marked. -/
structure Outcome (ν : Type*) where
  stopped : Bool
  visited : ν → Bool
  found : List ν

namespace Bounded

variable (g : Bounded ν) {stack stack' ws : List ν}

/-- Pushes the successors to be entered, or gives `none` at one to stop on. -/
def scan (visited : ν → Bool) : List ν → List ν → Option (List ν)
  | [], stack => some stack
  | w :: ws, stack =>
    if g.stop w then none
    else scan visited ws (if !visited w && g.within w then w :: stack else stack)

omit [DecidableEq ν] in
theorem scan_eq_none_iff :
    g.scan visited ws stack = none ↔ ∃ w ∈ ws, g.stop w = true := by
  induction ws generalizing stack with
  | nil => simp [scan]
  | cons w ws ih =>
    by_cases hw : g.stop w = true
    · simp [scan, hw]
    · simp [scan, hw, ih]

omit [DecidableEq ν] in
theorem mem_of_scan_eq_some (h : g.scan visited ws stack = some stack') (v : ν) :
    v ∈ stack' ↔ v ∈ stack ∨ (v ∈ ws ∧ visited v = false ∧ g.within v = true) := by
  induction ws generalizing stack with
  | nil =>
    obtain rfl : stack = stack' := by simpa [scan] using h
    simp
  | cons w ws ih =>
    by_cases hw : g.stop w = true
    · simp [scan, hw] at h
    · rw [scan, if_neg hw] at h
      rw [ih h]
      by_cases hp : (!visited w && g.within w) = true
      · have hpw : visited w = false ∧ g.within w = true := by simpa using hp
        rw [if_pos hp]
        by_cases hv : v = w
        · subst hv; simp [hpw]
        · simp [hv]
      · rw [if_neg hp]
        by_cases hv : v = w
        · subst hv
          have hpv : ¬(visited v = false ∧ g.within v = true) := by simpa using hp
          simp [hpv]
        · simp [hv]

/-- The search loop.  A node is marked when it is popped, so it may stand on the
stack more than once. -/
def loop (visited : ν → Bool) (stack found : List ν) : Outcome ν :=
  match stack with
  | [] => ⟨false, visited, found⟩
  | n :: stack =>
    if _h : n ∈ g.nodes ∧ visited n = false then
      match g.scan (Function.update visited n true) (g.succ n) stack with
      | none => ⟨true, Function.update visited n true, found ++ [n]⟩
      | some stack' => loop (Function.update visited n true) stack' (found ++ [n])
    else loop visited stack found
termination_by ((g.nodes.filter (fun v => visited v = false)).card, stack.length)
decreasing_by
  · exact Prod.Lex.left _ _ (card_unvisited_lt _h)
  · exact Prod.Lex.right _ (by simp)

def run (visited : ν → Bool) (start : ν) : Outcome ν :=
  g.loop visited [start] []

def Reach (start v : ν) : Prop :=
  Relation.ReflTransGen (fun a b => b ∈ g.succ a ∧ g.within b = true) start v

/-! ## What a search finds -/

section Invariant

variable (marked : ν → Bool) (start : ν)

/-- The loop invariant.  A successor of a marked node is marked or still on the
stack, so an empty stack leaves the marked nodes closed. -/
structure Inv (visited : ν → Bool) (stack found : List ν) : Prop where
  visited_iff : ∀ v, visited v = true ↔ marked v = true ∨ v ∈ found
  nodup : found.Nodup
  reach : ∀ v, v ∈ found ∨ v ∈ stack → g.Reach start v
  start_mem : start ∈ found ∨ start ∈ stack
  closed : ∀ v ∈ found, ∀ w ∈ g.succ v, g.stop w = false ∧
    (g.within w = true → w ∈ found ∨ w ∈ stack)

structure Spec (o : Outcome ν) : Prop where
  visited_iff : ∀ v, o.visited v = true ↔ marked v = true ∨ v ∈ o.found
  nodup : o.found.Nodup
  reach : ∀ v ∈ o.found, g.Reach start v
  stopped_iff : o.stopped = true ↔ ∃ v, g.Reach start v ∧ ∃ w ∈ g.succ v, g.stop w = true
  complete : o.stopped = false → ∀ v, g.Reach start v → v ∈ o.found

end Invariant

variable {g} {marked : ν → Bool} {start : ν}

omit [DecidableEq ν] in
theorem inv_init (g : Bounded ν) (marked : ν → Bool) (start : ν) :
    g.Inv marked start marked [start] [] where
  visited_iff v := by simp
  nodup := nodup_nil
  reach v hv := by
    obtain rfl : v = start := by simpa using hv
    exact .refl
  start_mem := .inr (by simp)
  closed v hv := by simp at hv

variable {visited : ν → Bool} {found : List ν}

omit [DecidableEq ν] in
theorem Inv.found_of_reach (h : g.Inv marked start visited [] found) {v : ν} (hv : g.Reach start v)
    : v ∈ found := by
  induction hv with
  | refl => simpa using h.start_mem
  | tail _ hstep ih =>
    simpa using (h.closed _ ih _ hstep.1).2 hstep.2

variable {stack found : List ν}

theorem Inv.mark_visited (h : g.Inv marked start visited stack found) (n v : ν) :
    update visited n true v = true ↔ marked v = true ∨ v ∈ found ++ [n] := by
  by_cases hv : v = n
  · subst hv; simp
  · simp [h.visited_iff v, hv]

omit [DecidableEq ν] in
theorem Inv.mark_nodup
    (h : g.Inv marked start visited stack found) (hn : visited n = false) :
    (found ++ [n]).Nodup := by
  rw [nodup_append]
  refine ⟨h.nodup, nodup_singleton n, fun a ha b hb => ?_⟩
  rw [mem_singleton.mp hb]
  rintro rfl
  rw [(h.visited_iff a).mpr (.inr ha)] at hn
  exact absurd hn (by simp)

theorem Inv.mark (hfresh : ∀ v, g.Reach start v → marked v = false)
    (h : g.Inv marked start visited (n :: stack) found) (hn : visited n = false)
    (hscan : g.scan (update visited n true) (g.succ n) stack = some stack') :
    g.Inv marked start (update visited n true) stack' (found ++ [n]) := by
  have hmem := g.mem_of_scan_eq_some hscan
  have hreachn : g.Reach start n := h.reach n (.inr (by simp))
  refine ⟨h.mark_visited n, h.mark_nodup hn, ?_, ?_, ?_⟩
  · intro v hv
    rw [hmem, mem_append, mem_singleton] at hv
    rcases hv with (hv | rfl) | hv | ⟨hv, -, hw⟩
    · exact h.reach v (.inl hv)
    · exact hreachn
    · exact h.reach v (.inr (by simp [hv]))
    · exact hreachn.tail ⟨hv, hw⟩
  · rw [hmem, mem_append, mem_singleton]
    rcases h.start_mem with hs | hs
    · exact .inl (.inl hs)
    · rcases mem_cons.mp hs with hs | hs
      · exact .inl (.inr hs)
      · exact .inr (.inl hs)
  · intro v hv w hw
    rw [hmem, mem_append, mem_singleton] at *
    rcases hv with hv | rfl
    · refine ⟨(h.closed v hv w hw).1, fun hin => ?_⟩
      rcases (h.closed v hv w hw).2 hin with hf | hf
      · exact .inl (.inl hf)
      · rcases mem_cons.mp hf with hf | hf
        · exact .inl (.inr hf)
        · exact .inr (.inl hf)
    · have hstop : g.stop w = false := by
        by_contra hne
        rw [g.scan_eq_none_iff.mpr ⟨w, hw, by simpa using hne⟩] at hscan
        exact absurd hscan (by simp)
      refine ⟨hstop, fun hin => ?_⟩
      -- a successor that is already marked was marked by this search
      by_cases hvw : update visited v true w = true
      · rcases (h.mark_visited v w).mp hvw with hm | hm
        · rw [hfresh w (hreachn.tail ⟨hw, hin⟩)] at hm
          exact absurd hm (by simp)
        · exact .inl (by simpa using hm)
      · exact .inr (.inr ⟨hw, by simpa using hvw, hin⟩)

omit [DecidableEq ν] in
theorem Inv.drop (h : g.Inv marked start visited (n :: stack) found) (hn : n ∈ found) :
    g.Inv marked start visited stack found := by
  have hdrop : ∀ w, w ∈ found ∨ w ∈ n :: stack → w ∈ found ∨ w ∈ stack := by
    rintro w (hw | hw)
    · exact .inl hw
    · rcases mem_cons.mp hw with rfl | hw
      · exact .inl hn
      · exact .inr hw
  exact ⟨h.visited_iff, h.nodup, fun v hv => h.reach v (hv.imp_right (mem_cons_of_mem n)),
    hdrop _ h.start_mem,
    fun v hv w hw => ⟨(h.closed v hv w hw).1, fun hin => hdrop w ((h.closed v hv w hw).2 hin)⟩⟩

theorem loop_spec (hfresh : ∀ v, g.Reach start v → marked v = false)
    (hnodes : ∀ v, g.Reach start v → v ∈ g.nodes) (h : g.Inv marked start visited stack found) :
    g.Spec marked start (g.loop visited stack found) := by
  fun_induction loop g visited stack found with
  | case1 visited found =>
    have hall : ∀ v, g.Reach start v → v ∈ found := fun v hv => h.found_of_reach hv
    refine ⟨h.visited_iff, h.nodup, fun v hv => h.reach v (.inl hv), ?_, fun _ => hall⟩
    refine ⟨fun hs => absurd hs (by simp), ?_⟩
    rintro ⟨v, hv, w, hw, hstop⟩
    rw [(h.closed v (hall v hv) w hw).1] at hstop
    exact absurd hstop (by simp)
  | case2 visited found n stack hn hscan =>
    have hreachn : g.Reach start n := h.reach n (.inr (by simp))
    refine ⟨h.mark_visited n, h.mark_nodup hn.2, ?_, ?_, fun hs => absurd hs (by simp)⟩
    · intro v hv
      rcases mem_append.mp hv with hv | hv
      · exact h.reach v (.inl hv)
      · rw [mem_singleton.mp hv]
        exact hreachn
    · exact ⟨fun _ => ⟨n, hreachn, g.scan_eq_none_iff.mp hscan⟩, fun _ => rfl⟩
  | case3 visited found n stack hn stack' hscan ih =>
    exact ih (h.mark hfresh hn.2 hscan)
  | case4 visited found n stack hn ih =>
    have hreachn : g.Reach start n := h.reach n (.inr (by simp))
    have hvis : visited n = true := by
      by_contra hne
      exact hn ⟨hnodes n hreachn, by simpa using hne⟩
    refine ih (h.drop ?_)
    rcases (h.visited_iff n).mp hvis with hm | hm
    · rw [hfresh n hreachn] at hm
      exact absurd hm (by simp)
    · exact hm

/-- A search that meets no earlier mark finds exactly the nodes it can reach, or
stops because a reachable node has a successor to stop on. -/
theorem run_spec (hfresh : ∀ v, g.Reach start v → marked v = false)
    (hnodes : ∀ v, g.Reach start v → v ∈ g.nodes) : g.Spec marked start (g.run marked start) :=
  loop_spec hfresh hnodes (inv_init g marked start)

end Bounded
end TfReading.Search
