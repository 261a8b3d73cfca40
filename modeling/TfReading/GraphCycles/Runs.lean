import TfReading.GraphCycles.Contract
import TfReading.Library.Runs

/-!
# Runs of `GraphCycles`

The calls that change the structure or its markers, under the conditions that
callers have to meet, form a transition system.  The invariant holds in each of
its reachable states, so `InsertEdge` and `ContractEdge` meet their contracts
there.
-/

namespace TfReading.GraphCycles

open List

inductive Op
  | newNode
  | removeNode (node : Nat)
  | insertEdge (x y : Nat)
  | removeEdge (x y : Nat)
  | contractEdge (a b : Nat)
  | canContractEdge (a b : Nat)
  | isReachableNonConst (x y : Nat)

namespace Rep

def Allowed (r : Rep) : Op → Prop
  | .newNode => True
  | .removeNode node => r.Live node
  | .insertEdge x y => r.Live x ∧ r.Live y
  | .removeEdge x y => r.Edge x y
  | .contractEdge a b => r.Live a ∧ r.Live b
  | .canContractEdge a b => r.Live a ∧ r.Live b
  | .isReachableNonConst x y => r.Live x ∧ r.Live y

/-- `none` where a `CHECK` ends the process. -/
def step (r : Rep) : Op → Option Rep
  | .newNode => some r.newNode.2
  | .removeNode node => some (r.removeNode node)
  | .insertEdge x y => some (r.insertEdge x y).2
  | .removeEdge x y => some (r.removeEdge x y)
  | .contractEdge a b => (r.contractEdge a b).map Prod.snd
  | .canContractEdge a b => (r.canContractEdge a b).map Prod.snd
  | .isReachableNonConst x y => some (r.isReachableNonConst x y).2

end Rep

open TfReading.GraphCycles.Rep

def system : System Rep Op where
  init r := r = Rep.init
  step r op r' := r.Allowed op ∧ r.step op = some r'

theorem init_valid : Rep.init.Valid where
  rank_lt n hn := absurd hn (Nat.not_lt_zero n)
  rank_inj m hm := absurd hm (Nat.not_lt_zero m)
  edge_lt _ y hxy := absurd hxy (OrderedSet.not_mem_empty y)
  edge_rank _ y hxy := absurd hxy (OrderedSet.not_mem_empty y)
  inEdge_iff x y := iff_of_false (OrderedSet.not_mem_empty x) (OrderedSet.not_mem_empty y)
  unvisited _ := rfl
  free_lt _ hn := absurd hn not_mem_nil
  free_nodup := nodup_nil
  free_isolated _ hn := absurd hn not_mem_nil

variable {r r' : Rep}

theorem contractEdge_valid (h : r.Valid) {a b : Nat} (hab : r.Edge a b)
    {res : Option Nat} (hstep : r.contractEdge a b = some (res, r')) : r'.Valid := by
  have hlive := h.live_of_edge hab
  rcases contractEdge_eq h hab with ⟨-, heq⟩ | ⟨hno, c, d, hcd, heq⟩
  · rw [heq, Option.some.injEq, Prod.mk.injEq] at hstep
    rw [← hstep.2]
    exact (restore_spec h hab).1
  · rw [heq, Option.some.injEq, Prod.mk.injEq] at hstep
    rw [← hstep.2]
    have hba := (contractTest_spec h hab).2.2
    have hne := h.edge_ne hab
    rcases hcd with ⟨rfl, rfl⟩ | ⟨rfl, rfl⟩
    · exact (mergeInto_spec (removeEdge_valid h c d) hlive.1 hlive.2 hne
        (.inl ⟨rfl, rfl⟩) hno hba).2.1
    · exact (mergeInto_spec (removeEdge_valid h d c) hlive.2 hlive.1 hne.symm
        (.inr ⟨rfl, rfl⟩) hno hba).2.1

theorem canContractEdge_valid (h : r.Valid) {a b : Nat} {res : Bool}
    (hstep : r.canContractEdge a b = some (res, r')) : r'.Valid := by
  rw [canContractEdge] at hstep
  by_cases hedge : r.hasEdge a b = true
  · have hab := hasEdge_iff.mp hedge
    simp only [if_pos hedge, (contractTest_spec h hab).1, Option.some.injEq,
      Prod.mk.injEq] at hstep
    rw [← hstep.2]
    exact (restore_spec h hab).1
  · rw [if_neg hedge] at hstep
    exact absurd hstep (by simp)

theorem step_valid {op : Op} (h : r.Valid) (hok : r.Allowed op)
    (hstep : r.step op = some r') : r'.Valid := by
  cases op with
  | newNode =>
    obtain rfl : r.newNode.2 = r' := Option.some.inj hstep
    exact newNode_valid h
  | removeNode node =>
    obtain rfl : r.removeNode node = r' := Option.some.inj hstep
    exact (removeNode_isolated h node).valid h hok
  | insertEdge x y =>
    obtain rfl : (r.insertEdge x y).2 = r' := Option.some.inj hstep
    exact (insertEdge_spec h hok.1 hok.2).valid
  | removeEdge x y =>
    obtain rfl : r.removeEdge x y = r' := Option.some.inj hstep
    exact removeEdge_valid h x y
  | contractEdge =>
    obtain ⟨⟨res, r''⟩, hres, rfl⟩ := Option.map_eq_some_iff.mp hstep
    refine contractEdge_valid h ?_ hres
    rw [← hasEdge_iff]
    by_contra hne
    rw [contractEdge, if_neg hne] at hres
    exact absurd hres (by simp)
  | canContractEdge =>
    obtain ⟨⟨res, r''⟩, hres, rfl⟩ := Option.map_eq_some_iff.mp hstep
    exact canContractEdge_valid h hres
  | isReachableNonConst x y =>
    obtain rfl : (r.isReachableNonConst x y).2 = r' := Option.some.inj hstep
    rw [(isReachableNonConst_spec h hok.1.1 hok.2.1).1]
    exact h

theorem reachable_valid (h : system.Reachable r) : r.Valid := by
  refine System.Reachable.invariant (fun s hs => ?_) (fun s op s' hv hs => ?_) h
  · rw [show s = Rep.init from hs]
    exact init_valid
  · exact step_valid hv hs.1 hs.2

theorem Rep.Valid.rank_perm (h : r.Valid) :
    ((List.range r.size).map r.rank).Perm (List.range r.size) := by
  have hnodup : ((range r.size).map r.rank).Nodup :=
    .map_on (fun m hm n hn e => h.rank_inj m (mem_range.mp hm) n
      (mem_range.mp hn) e) nodup_range
  have hsub : (range r.size).map r.rank ⊆ range r.size := by
    intro k hk
    obtain ⟨n, hn, rfl⟩ := mem_map.mp hk
    exact mem_range.mpr (h.rank_lt n (mem_range.mp hn))
  exact (subperm_of_subset hnodup hsub).perm_of_length_le (by simp)

/-- After every sequence of calls the ranks are a topological permutation, the two
kinds of neighbour sets agree and no marker is left. -/
theorem ranks_topological {r : Rep} (h : system.Reachable r) :
    ((List.range r.size).map r.rank).Perm (List.range r.size) ∧
      (∀ x y, r.Edge x y → r.rank x < r.rank y) ∧
      (∀ x y, r.InEdge x y ↔ r.Edge x y) ∧
      ∀ n, n < r.size → r.visited n = false :=
  have hv := reachable_valid h
  ⟨hv.rank_perm, hv.edge_rank, hv.inEdge_iff, fun n _ => hv.unvisited n⟩

def twoNodes : Rep := Rep.init.newNode.2.newNode.2

theorem twoNodes_reachable : system.Reachable twoNodes := by
  have h0 : system.Reachable .init := .init rfl
  have h1 : system.Reachable Rep.init.newNode.2 := .step (a := .newNode) h0 ⟨trivial, rfl⟩
  exact .step (a := .newNode) h1 ⟨trivial, rfl⟩

theorem twoNodes_live : twoNodes.Live 0 ∧ twoNodes.Live 1 :=
  ⟨⟨by decide, by decide⟩, ⟨by decide, by decide⟩⟩

def reversedEdge : Rep := (twoNodes.insertEdge 1 0).2

theorem reversedEdge_reachable : system.Reachable reversedEdge :=
  .step (a := .insertEdge 1 0) twoNodes_reachable
    ⟨⟨twoNodes_live.2, twoNodes_live.1⟩, rfl⟩

theorem ranks_topological_reversedEdge :
    system.Reachable reversedEdge ∧
      ((List.range reversedEdge.size).map reversedEdge.rank).Perm
        (List.range reversedEdge.size) :=
  ⟨reversedEdge_reachable, (ranks_topological reversedEdge_reachable).1⟩

namespace Rep

/-- `std::sort` may order equal ranks either way, and no two nodes share a rank. -/
def sortInPostOrder (r : Rep) (toSort : List Nat) : List Nat :=
  toSort.insertionSort fun a b => (r.nodes a).rank ≥ (r.nodes b).rank

def allNodesInPostOrder (r : Rep) : List Nat :=
  r.sortInPostOrder ((List.range r.size).filter fun n => n ∉ r.freeNodes)

end Rep

/-- `AllNodesInPostOrder` lists each node in use once, behind every node that it reaches. -/
theorem allNodesInPostOrder_post (h : system.Reachable r) :
    r.allNodesInPostOrder.Nodup ∧ (∀ n, n ∈ r.allNodesInPostOrder ↔ r.Live n) ∧
      r.allNodesInPostOrder.Pairwise fun a b => ¬r.Path a b := by
  have hv := reachable_valid h
  have hperm : r.allNodesInPostOrder.Perm _ := perm_insertionSort _ _
  have hsorted : r.allNodesInPostOrder.Pairwise (fun a b => r.rank a ≥ r.rank b) :=
    pairwise_insertionSort _ _
  have hnodup : r.allNodesInPostOrder.Nodup := hperm.nodup_iff.mpr (nodup_range.filter _)
  have hmem : ∀ n, n ∈ r.allNodesInPostOrder ↔ r.Live n := fun n => by
    simp [hperm.mem_iff, Live]
  refine ⟨hnodup, hmem, (hsorted.and hnodup).imp_of_mem fun ha hb hab hpath => hab.2 ?_⟩
  -- a path goes up in rank, and ranks are distinct
  exact hv.rank_inj _ ((hmem _).mp ha).1 _ ((hmem _).mp hb).1
    ((hv.rank_le_of_path hpath).antisymm hab.1)

theorem allNodesInPostOrder_post_reversedEdge : reversedEdge.allNodesInPostOrder.Nodup :=
  (allNodesInPostOrder_post reversedEdge_reachable).1

/-- `InsertEdge` rejects exactly the edges that would close a cycle.  A rejected
edge leaves no trace, and an accepted one is the only change. -/
theorem insertEdge_exact {r : Rep} (h : system.Reachable r) {x y : Nat} (hx : r.Live x)
    (hy : r.Live y) :
    ((r.insertEdge x y).1 = false ↔ x = y ∨ r.Path y x) ∧
      ((r.insertEdge x y).1 = false →
        (∀ u v, (r.insertEdge x y).2.Edge u v ↔ r.Edge u v) ∧
          ∀ n, (r.insertEdge x y).2.rank n = r.rank n) ∧
      ((r.insertEdge x y).1 = true →
        ∀ u v, (r.insertEdge x y).2.Edge u v ↔ r.Edge u v ∨ (u = x ∧ v = y)) := by
  have hins := insertEdge_spec (reachable_valid h) hx hy
  refine ⟨hins.rejected_iff.trans ⟨.inr, ?_⟩, fun hok => ?_, hins.edge_of_accepted⟩
  · rintro (rfl | hp)
    · exact .refl
    · exact hp
  · exact ⟨hins.edge_of_rejected hok, hins.rank_of_rejected hok⟩

theorem insertEdge_exact_twoNodes :
    system.Reachable twoNodes ∧ twoNodes.Live 1 ∧ twoNodes.Live 0 ∧
      ((twoNodes.insertEdge 1 0).1 = false ↔ 1 = 0 ∨ twoNodes.Path 0 1) :=
  ⟨twoNodes_reachable, twoNodes_live.2, twoNodes_live.1,
    (insertEdge_exact twoNodes_reachable twoNodes_live.2 twoNodes_live.1).1⟩

/-- `ContractEdge` refuses exactly when a second path joins the ends of the edge,
and otherwise leaves the quotient of the graph without its self-loops. -/
theorem contractEdge_quotient {r : Rep} (h : system.Reachable r) {a b : Nat}
    (hab : r.Edge a b) :
    ∃ res r', r.contractEdge a b = some (res, r') ∧
      (res = none ↔ Relation.ReflTransGen (fun x y => r.Edge x y ∧ ¬(x = a ∧ y = b)) a b) ∧
      (res = none → ∀ x y, r'.Edge x y ↔ r.Edge x y) ∧
      ∀ c, res = some c → ∃ d, ((c = a ∧ d = b) ∨ (c = b ∧ d = a)) ∧
        (∀ x y, r'.Edge x y ↔ x ≠ y ∧
          ∃ u v, r.Edge u v ∧ contractMap a b c u = x ∧ contractMap a b c v = y) ∧
        r'.freeNodes = d :: r.freeNodes ∧ r'.Live c ∧
        r' = ((r.removeEdge a b).mergeInto c d).2 ∧
        ∀ ok ∈ ((r.removeEdge a b).mergeInto c d).1, ok = true := by
  have hv := reachable_valid h
  have hne := hv.edge_ne hab
  have hlive := hv.live_of_edge hab
  have hpath : (r.removeEdge a b).Path a b ↔
      Relation.ReflTransGen (fun x y => r.Edge x y ∧ ¬(x = a ∧ y = b)) a b := by
    have hrel : (r.removeEdge a b).Edge = fun x y => r.Edge x y ∧ ¬(x = a ∧ y = b) := by
      funext x y
      exact propext (edge_removeEdge r a b)
    rw [Rep.Path, hrel]
  have hba := (contractTest_spec hv hab).2.2
  rcases contractEdge_eq hv hab with ⟨hp, heq⟩ | ⟨hno, c, d, hcd, heq⟩
  · refine ⟨none, _, heq, ⟨fun _ => hpath.mp hp, fun _ => rfl⟩,
      fun _ => (restore_spec hv hab).2, fun c hc => absurd hc (by simp)⟩
  · refine ⟨some c, _, heq, ⟨fun hc => absurd hc (by simp), fun hp => absurd (hpath.mpr hp) hno⟩,
      fun hc => absurd hc (by simp), fun c' hc' => ?_⟩
    obtain rfl : c = c' := Option.some.inj hc'
    have hends : r.Live c ∧ r.Live d ∧ c ≠ d := by
      rcases hcd with ⟨rfl, rfl⟩ | ⟨rfl, rfl⟩
      · exact ⟨hlive.1, hlive.2, hne⟩
      · exact ⟨hlive.2, hlive.1, hne.symm⟩
    obtain ⟨hall, hvalid, hsize, hfree, hedges⟩ := mergeInto_spec (removeEdge_valid hv a b)
      hends.1 hends.2.1 hends.2.2 hcd hno hba
    refine ⟨d, hcd, fun x y => ?_, hfree, ⟨?_, ?_⟩, rfl, hall⟩
    · refine (hedges x y).trans ⟨?_, ?_⟩
      · intro hmap
        refine ⟨hvalid.edge_ne ((hedges x y).mpr hmap), ?_⟩
        obtain ⟨u, v, he, hu, hw⟩ := hmap
        exact ⟨u, v, ((edge_removeEdge r a b).mp he).1, hu, hw⟩
      · rintro ⟨hxy, u, v, he, rfl, rfl⟩
        refine ⟨u, v, (edge_removeEdge r a b).mpr ⟨he, ?_⟩, rfl, rfl⟩
        -- the contracted edge itself becomes a self-loop
        rintro ⟨rfl, rfl⟩
        exact hxy (by simp [contractMap])
    · rw [hsize]
      exact hends.1.1
    · rw [hfree, mem_cons, not_or]
      exact ⟨hends.2.2, hends.1.2⟩

theorem reversedEdge_edge : reversedEdge.Edge 1 0 := by
  have hlive := twoNodes_live
  have hins := insertEdge_spec (reachable_valid twoNodes_reachable) hlive.2 hlive.1
  have hok : (twoNodes.insertEdge 1 0).1 = true := by
    by_contra hne
    have hp : twoNodes.Path 0 1 := hins.rejected_iff.mp (by simpa using hne)
    rcases Relation.ReflTransGen.cases_head hp with he | ⟨n, hn, -⟩
    · exact absurd he (by decide)
    · exact absurd (show n ∈ (twoNodes.nodes 0).out from hn) (OrderedSet.not_mem_empty n)
  exact (hins.edge_of_accepted hok 1 0).mpr (.inr ⟨rfl, rfl⟩)

theorem contractEdge_quotient_reversedEdge :
    system.Reachable reversedEdge ∧ reversedEdge.Edge 1 0 ∧
      ∃ res r', reversedEdge.contractEdge 1 0 = some (res, r') :=
  ⟨reversedEdge_reachable, reversedEdge_edge,
    (contractEdge_quotient reversedEdge_reachable reversedEdge_edge).imp
      fun _ h => h.imp fun _ h' => h'.1⟩

/-- `CanContractEdge` answers whether no other path joins the ends, and restores the edge. -/
theorem canContractEdge_exact (h : system.Reachable r) {a b : Nat} (hab : r.Edge a b) :
    ∃ ok r', r.canContractEdge a b = some (ok, r') ∧ (∀ x y, r'.Edge x y ↔ r.Edge x y) ∧
      (ok = true ↔ ¬(r.removeEdge a b).Path a b) := by
  have hv := reachable_valid h
  obtain ⟨hsame, hiff, -⟩ := contractTest_spec hv hab
  refine ⟨!((r.removeEdge a b).isReachableNonConst a b).1, _, ?_, (restore_spec hv hab).2, ?_⟩
  · simp only [canContractEdge, if_pos (hasEdge_iff.mpr hab), hsame]
  · rw [← hiff, Bool.not_eq_true, Bool.not_eq_true']

theorem canContractEdge_exact_reversedEdge :
    ∃ ok r', reversedEdge.canContractEdge 1 0 = some (ok, r') :=
  (canContractEdge_exact reversedEdge_reachable reversedEdge_edge).imp
    fun _ h => h.imp fun _ h' => h'.1

end TfReading.GraphCycles
