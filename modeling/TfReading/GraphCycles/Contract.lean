import TfReading.GraphCycles.Insert
import TfReading.Library.Contraction

/-!
# Adding, removing and contracting nodes

`ContractEdge` re-inserts the edges of the node it frees one at a time and
ignores the results.  All of them lie in the quotient of the graph, which is
acyclic as no second path joins the two ends, so none of them is refused.
-/

namespace TfReading.GraphCycles
namespace Rep

open Function List

/-! ## New nodes -/

variable {r r' : Rep} {a b c d n x y : Nat}

theorem newNode_valid_reused (h : r.Valid) {rest : List Nat} (hfree : r.freeNodes = n :: rest) :
    Valid { r.modify n (fun x => { x with data := none }) with freeNodes := rest } := by
  let f : Node → Node := fun x => { x with data := none }
  obtain ⟨-, -, hrank, hvisited⟩ := frame_eq (frame_modify r n f (fun _ => rfl) fun _ => rfl)
  have hedge : ∀ x y, (r.modify n f).Edge x y ↔ r.Edge x y := fun _ _ =>
    edge_modify r n f fun _ => rfl
  have hin : ∀ x y, (r.modify n f).InEdge x y ↔ r.InEdge x y := fun _ _ =>
    inEdge_modify r n f fun _ => rfl
  have hnodup := h.free_nodup
  rw [hfree, nodup_cons] at hnodup
  exact h.of_subset rfl hrank hvisited (fun x y => (hedge x y).mp)
    (fun x y => (hin x y).trans ((h.inEdge_iff x y).trans (hedge x y).symm)) hnodup.2
    fun m hm => .inl (hfree ▸ mem_cons_of_mem n hm)

theorem newNode_valid_fresh (h : r.Valid) :
    Valid { r with nodes := update r.nodes r.size (blank r.size),
                   size := r.size + 1 } := by
  have hlast := update_self r.size (blank r.size) r.nodes
  have hold : ∀ m, m ≠ r.size → update r.nodes r.size (blank r.size) m = r.nodes m :=
    fun m hm => update_of_ne hm ..
  generalize update r.nodes r.size (blank r.size) = nodes at hlast hold
  have hedge : ∀ x y, y ∈ (nodes x).out ↔ r.Edge x y := by
    intro x y
    by_cases hx : x = r.size
    · rw [hx, hlast]
      exact ⟨fun hy => absurd hy (OrderedSet.not_mem_empty y),
        fun he => absurd (h.edge_lt _ y he).1 (lt_irrefl _)⟩
    · rw [hold x hx, Edge]
  have hinEdge : ∀ x y, x ∈ (nodes y).inSet ↔ r.InEdge x y := by
    intro x y
    by_cases hy : y = r.size
    · rw [hy, hlast]
      refine ⟨fun hx => absurd hx (OrderedSet.not_mem_empty x), fun he => ?_⟩
      exact absurd (h.edge_lt x _ ((h.inEdge_iff x _).mp he)).2 (lt_irrefl _)
    · rw [hold y hy, InEdge]
  have hrank : ∀ m < r.size, (nodes m).rank = r.rank m := fun m hm => by
    rw [hold m hm.ne, rank]
  have hrank_last : (nodes r.size).rank = r.size := by rw [hlast]; rfl
  refine
    { rank_lt := fun m hm => ?_
      rank_inj := fun m hm k hk e => ?_
      edge_lt := fun x y hxy => ?_
      edge_rank := fun x y hxy => ?_
      inEdge_iff := fun x y => (hinEdge x y).trans ((h.inEdge_iff x y).trans (hedge x y).symm)
      unvisited := fun m => ?_
      free_lt := fun m hm => Nat.lt_succ_of_lt (h.free_lt m hm)
      free_nodup := h.free_nodup
      free_isolated := fun m hm k => ?_ }
  · show (nodes m).rank < r.size + 1
    rcases Nat.lt_succ_iff_lt_or_eq.mp hm with hm | rfl
    · rw [hrank m hm]
      exact Nat.lt_succ_of_lt (h.rank_lt m hm)
    · rw [hrank_last]
      exact Nat.lt_succ_self _
  · change (nodes m).rank = (nodes k).rank at e
    rcases Nat.lt_succ_iff_lt_or_eq.mp hm with hm | rfl <;>
      rcases Nat.lt_succ_iff_lt_or_eq.mp hk with hk | rfl
    · rw [hrank m hm, hrank k hk] at e
      exact h.rank_inj m hm k hk e
    · rw [hrank m hm, hrank_last] at e
      exact absurd e (h.rank_lt m hm).ne
    · rw [hrank k hk, hrank_last] at e
      exact absurd e.symm (h.rank_lt k hk).ne
    · rfl
  · have hlt := h.edge_lt x y ((hedge x y).mp hxy)
    exact ⟨Nat.lt_succ_of_lt hlt.1, Nat.lt_succ_of_lt hlt.2⟩
  · have he := (hedge x y).mp hxy
    have hlt := h.edge_lt x y he
    show (nodes x).rank < (nodes y).rank
    rw [hrank x hlt.1, hrank y hlt.2]
    exact h.edge_rank x y he
  · show (nodes m).visited = false
    by_cases hm : m = r.size
    · rw [hm, hlast]; rfl
    · rw [hold m hm]
      exact h.unvisited m
  · exact ⟨fun he => (h.free_isolated m hm k).1 ((hedge m k).mp he),
      fun he => (h.free_isolated m hm k).2 ((hedge k m).mp he)⟩

theorem newNode_valid (h : r.Valid) : r.newNode.2.Valid := by
  rw [newNode]
  split
  · exact newNode_valid_fresh h
  · rename_i n rest hfree
    exact newNode_valid_reused h hfree

/-! ## Isolating a node -/

structure Isolated (r : Rep) (b : Nat) (r' : Rep) : Prop where
  size_eq : r'.size = r.size
  freeNodes_eq : r'.freeNodes = b :: r.freeNodes
  rank_eq : ∀ n, r'.rank n = r.rank n
  visited_eq : ∀ n, r'.visited n = r.visited n
  edge_iff : ∀ x y, r'.Edge x y ↔ r.Edge x y ∧ x ≠ b ∧ y ≠ b
  inEdge_iff : ∀ x y, r'.InEdge x y ↔ r.InEdge x y ∧ x ≠ b ∧ y ≠ b

theorem Isolated.valid (hi : Isolated r b r') (h : r.Valid) (hb : r.Live b) : r'.Valid := by
  refine h.of_subset hi.size_eq hi.rank_eq hi.visited_eq
    (fun x y he => ((hi.edge_iff x y).mp he).1)
    (fun x y => by rw [hi.inEdge_iff, hi.edge_iff, h.inEdge_iff]) ?_ fun n hn => ?_
  · rw [hi.freeNodes_eq, nodup_cons]
    exact ⟨hb.2, h.free_nodup⟩
  · rw [hi.freeNodes_eq, mem_cons] at hn
    rcases hn with rfl | hn
    · refine .inr ⟨hb.1, fun m => ?_⟩
      rw [hi.edge_iff, hi.edge_iff]
      exact ⟨fun he => he.2.1 rfl, fun he => he.2.2 rfl⟩
    · exact .inl hn

theorem Isolated.live (hi : Isolated r b r') (hn : r.Live n) (hnb : n ≠ b) : r'.Live n := by
  refine ⟨by rw [hi.size_eq]; exact hn.1, ?_⟩
  rw [hi.freeNodes_eq, mem_cons, not_or]
  exact ⟨hnb, hn.2⟩

def emptied (r : Rep) (b : Nat) : Rep := r.modify b fun x => { x with inSet := .empty, out := .empty }

theorem frame_emptied (r : Rep) (b : Nat) : (r.emptied b).frame = r.frame :=
  frame_modify _ _ _ (by intro; rfl) (by intro; rfl)

theorem edge_emptied (r : Rep) (b : Nat) :
    (r.emptied b).Edge x y ↔ r.Edge x y ∧ x ≠ b := by
  rw [Edge, emptied, nodes_modify]
  by_cases hx : x = b
  · simp [hx]
  · rw [if_neg hx, and_iff_left hx, Edge]

theorem inEdge_emptied (r : Rep) (b : Nat) :
    (r.emptied b).InEdge x y ↔ r.InEdge x y ∧ y ≠ b := by
  rw [InEdge, emptied, nodes_modify]
  by_cases hy : y = b
  · simp [hy]
  · rw [if_neg hy, and_iff_left hy, InEdge]

theorem isolated_of_frame {t : Rep} (ht : t.frame = r.frame)
    (hedge : ∀ x y, t.Edge x y ↔ r.Edge x y ∧ x ≠ b ∧ y ≠ b)
    (hin : ∀ x y, t.InEdge x y ↔ r.InEdge x y ∧ x ≠ b ∧ y ≠ b) :
    Isolated r b { t with freeNodes := b :: t.freeNodes } := by
  obtain ⟨hsize, hfree, hrank, hvisited⟩ := frame_eq ht
  exact ⟨hsize, congrArg (b :: ·) hfree, hrank, hvisited, hedge, hin⟩

theorem detach_isolated (h : r.Valid) (b : Nat) : Isolated r b (r.detach b) := by
  refine isolated_of_frame (t := ((r.emptied b).eraseFromIn b _).eraseFromOut b _)
    ((frame_eraseFromOut ..).trans ((frame_eraseFromIn ..).trans (frame_emptied r b)))
    (fun x y => ?_) fun x y => ?_
  · rw [edge_eraseFromOut, edge_eraseFromIn, edge_emptied, mem_inSet, h.inEdge_iff]
    exact ⟨fun he => ⟨he.1.1, he.1.2, fun hy => he.2 (hy ▸ he.1.1) hy⟩,
      fun he => ⟨⟨he.1, he.2.1⟩, fun _ => he.2.2⟩⟩
  · rw [inEdge_eraseFromOut, inEdge_eraseFromIn, inEdge_emptied, mem_out, ← h.inEdge_iff]
    exact ⟨fun he => ⟨he.1.1, fun hx => he.2 (hx ▸ he.1.1) hx, he.1.2⟩,
      fun he => ⟨⟨he.1, he.2.2⟩, fun _ => he.2.1⟩⟩

theorem removeNode_isolated (h : r.Valid) (b : Nat) : Isolated r b (r.removeNode b) := by
  refine isolated_of_frame (t := ((r.eraseFromIn b _).eraseFromOut b _).emptied b)
    ((frame_emptied ..).trans ((frame_eraseFromOut ..).trans (frame_eraseFromIn ..)))
    (fun x y => ?_) fun x y => ?_
  · rw [edge_emptied, edge_eraseFromOut, edge_eraseFromIn, mem_inSet, inEdge_eraseFromIn,
      h.inEdge_iff]
    exact ⟨fun he => ⟨he.1.1, he.2, fun hy => he.1.2 ⟨hy ▸ he.1.1, fun _ => he.2⟩ hy⟩,
      fun he => ⟨⟨he.1, fun _ => he.2.2⟩, he.2.1⟩⟩
  · rw [inEdge_emptied, inEdge_eraseFromOut, inEdge_eraseFromIn, mem_out, ← h.inEdge_iff]
    exact ⟨fun he => ⟨he.1.1, fun hx => he.1.2 (hx ▸ he.1.1) hx, he.2⟩,
      fun he => ⟨⟨he.1, fun _ => he.2.1⟩, he.2.2⟩⟩

theorem removeEdge_valid (h : r.Valid) (a b : Nat) : (r.removeEdge a b).Valid :=
  h.of_subset rfl (rank_removeEdge r a b) (visited_removeEdge r a b)
    (fun _ _ he => ((edge_removeEdge r a b).mp he).1)
    (fun x y => by rw [inEdge_removeEdge, edge_removeEdge, h.inEdge_iff]) h.free_nodup fun _ => .inl

/-! ## A batch of insertions -/

/-- Edges that lie in one acyclic relation together with the present ones are all
accepted. -/
theorem insertEdges_spec {Q : Nat → Nat → Prop}
    (hQ : ∀ u v, Q u v → ¬Relation.ReflTransGen Q v u) (ps : List (Nat × Nat))
    (h : r.Valid) (hsub : ∀ u v, r.Edge u v → Q u v)
    (hps : ∀ p ∈ ps, r.Live p.1 ∧ r.Live p.2 ∧ Q p.1 p.2) :
    (∀ ok ∈ (r.insertEdges ps).1, ok = true) ∧ (r.insertEdges ps).2.Valid ∧
      (r.insertEdges ps).2.size = r.size ∧ (r.insertEdges ps).2.freeNodes = r.freeNodes ∧
      ∀ u v, (r.insertEdges ps).2.Edge u v ↔ r.Edge u v ∨ (u, v) ∈ ps := by
  induction ps generalizing r with
  | nil => exact ⟨fun _ hok => absurd hok (by simp [insertEdges]), h, rfl, rfl, by simp [insertEdges]⟩
  | cons p ps ih =>
    obtain ⟨hx, hy, hp⟩ := hps p (by simp)
    have hins := insertEdge_spec h hx hy
    have hok : (r.insertEdge p.1 p.2).1 = true := by
      by_contra hne
      refine hQ _ _ hp (.mono hsub _ _ (hins.rejected_iff.mp ?_))
      simpa using hne
    have hedge := hins.edge_of_accepted hok
    have hlive : ∀ n, r.Live n → (r.insertEdge p.1 p.2).2.Live n := fun n hn =>
      ⟨by rw [hins.size_eq]; exact hn.1, by rw [hins.freeNodes_eq]; exact hn.2⟩
    have hsub' : ∀ u v, (r.insertEdge p.1 p.2).2.Edge u v → Q u v := by
      intro u v huv
      rcases (hedge u v).mp huv with he | ⟨rfl, rfl⟩
      · exact hsub u v he
      · exact hp
    obtain ⟨hall, hvalid, hsize, hfree, hedges⟩ := ih hins.valid hsub' (fun q hq => by
      obtain ⟨h1, h2, h3⟩ := hps q (mem_cons_of_mem p hq)
      exact ⟨hlive _ h1, hlive _ h2, h3⟩)
    refine ⟨?_, hvalid, hsize.trans hins.size_eq, hfree.trans hins.freeNodes_eq, fun u v => ?_⟩
    · intro ok hmem
      rcases mem_cons.mp hmem with rfl | hmem
      · exact hok
      · exact hall ok hmem
    · refine (hedges u v).trans ?_
      rw [hedge, mem_cons, Prod.ext_iff]
      exact or_assoc

/-! ## Contraction -/

def contractMap (a b c n : Nat) : Nat := if n = a ∨ n = b then c else n

theorem contractMap_eq {u v : Nat} (hc : c = a ∨ c = b)
    (huv : contractMap a b c u = contractMap a b c v) :
    u = v ∨ ((u = a ∨ u = b) ∧ (v = a ∨ v = b)) := by
  unfold contractMap at huv
  by_cases hu : u = a ∨ u = b <;> by_cases hv : v = a ∨ v = b
  · exact .inr ⟨hu, hv⟩
  · rw [if_pos hu, if_neg hv] at huv
    exact absurd (huv ▸ hc) hv
  · rw [if_neg hu, if_pos hv] at huv
    exact absurd (huv.symm ▸ hc) hu
  · rw [if_neg hu, if_neg hv] at huv
    exact .inl huv

/-- The quotient of a graph in which no path joins `a` and `b` is acyclic. -/
theorem contract_acyclic (h : r.Valid) (hc : c = a ∨ c = b)
    (hab : ¬r.Path a b) (hba : ¬r.Path b a)
    (hxy : Relation.Map r.Edge (contractMap a b c) (contractMap a b c) x y) :
    ¬Relation.ReflTransGen
      (Relation.Map r.Edge (contractMap a b c) (contractMap a b c)) y x := by
  have hirrefl : ∀ u, ¬Relation.TransGen r.Edge u u := by
    intro u hu
    obtain ⟨v, huv, hvu⟩ := Relation.TransGen.head'_iff.mp hu
    exact absurd (h.rank_le_of_path hvu) (Nat.not_le_of_lt (h.edge_rank u v huv))
  refine Contraction.acyclic_map (fun u v => contractMap_eq hc) (fun s t hs ht hst => ?_)
    hirrefl hxy
  rcases hs with rfl | rfl <;> rcases ht with rfl | rfl
  · exact hirrefl _ hst
  · exact hab hst.to_reflTransGen
  · exact hba hst.to_reflTransGen
  · exact hirrefl _ hst

/-- With `d` the end that goes, only `d` moves. -/
theorem contractMap_eq_ite (hcd : (c = a ∧ d = b) ∨ (c = b ∧ d = a)) (n : Nat) :
    contractMap a b c n = if n = d then c else n := by
  unfold contractMap
  by_cases hn : n = d
  · rw [if_pos hn, if_pos]
    rcases hcd with ⟨-, rfl⟩ | ⟨-, rfl⟩
    · exact .inr hn
    · exact .inl hn
  · rw [if_neg hn]
    split
    next hn' =>
      rcases hcd with ⟨rfl, rfl⟩ | ⟨rfl, rfl⟩
      · exact (hn'.resolve_right hn).symm
      · exact (hn'.resolve_left hn).symm
    · rfl

/-- The part of `ContractEdge` that follows a negative reachability test. -/
theorem mergeInto_spec (h : r.Valid) (hc : r.Live c) (hd : r.Live d)
    (hne : c ≠ d) (hcd : (c = a ∧ d = b) ∨ (c = b ∧ d = a)) (hab : ¬r.Path a b)
    (hba : ¬r.Path b a) :
    (∀ ok ∈ (r.mergeInto c d).1, ok = true) ∧ (r.mergeInto c d).2.Valid ∧
      (r.mergeInto c d).2.size = r.size ∧
      (r.mergeInto c d).2.freeNodes = d :: r.freeNodes ∧
      ∀ u v, (r.mergeInto c d).2.Edge u v ↔
        Relation.Map r.Edge (contractMap a b c) (contractMap a b c) u v := by
  have hiso := detach_isolated h d
  have hmap := contractMap_eq_ite hcd
  have hkeep : ∀ n, n ≠ d → contractMap a b c n = n := fun n hn => by rw [hmap, if_neg hn]
  have hmove : contractMap a b c d = c := by rw [hmap, if_pos rfl]
  have hmoved : ∀ u v, (u, v) ∈ r.movedEdges c d ↔
      (u = c ∧ r.Edge d v) ∨ (v = c ∧ r.Edge u d) := by
    intro u v
    rw [movedEdges, mem_append, mem_map, mem_map]
    simp only [mem_out, mem_inSet, h.inEdge_iff, Prod.mk.injEq]
    refine or_congr ⟨?_, ?_⟩ ⟨?_, ?_⟩
    · rintro ⟨y, hy, rfl, rfl⟩; exact ⟨rfl, hy⟩
    · rintro ⟨rfl, hv⟩; exact ⟨v, hv, rfl, rfl⟩
    · rintro ⟨y, hy, rfl, rfl⟩; exact ⟨rfl, hy⟩
    · rintro ⟨rfl, hu⟩; exact ⟨u, hu, rfl, rfl⟩
  have hmovedMap : ∀ u v, (u, v) ∈ r.movedEdges c d →
      (r.detach d).Live u ∧ (r.detach d).Live v ∧
        Relation.Map r.Edge (contractMap a b c) (contractMap a b c) u v := by
    intro u v huv
    rcases (hmoved u v).mp huv with ⟨rfl, he⟩ | ⟨rfl, he⟩
    · have hvd : v ≠ d := (h.edge_ne he).symm
      exact ⟨hiso.live hc hne, hiso.live (h.live_of_edge he).2 hvd, d, v, he, hmove, hkeep v hvd⟩
    · have hud : u ≠ d := h.edge_ne he
      exact ⟨hiso.live (h.live_of_edge he).1 hud, hiso.live hc hne, u, d, he, hkeep u hud, hmove⟩
  have hQ := fun u v => contract_acyclic h (hcd.imp And.left And.left) hab hba (x := u) (y := v)
  obtain ⟨hall, hvalid, hsize, hfree, hedges⟩ := insertEdges_spec hQ (r.movedEdges c d)
    (hiso.valid h hd)
    (fun u v huv => by
      obtain ⟨he, hu, hv⟩ := (hiso.edge_iff u v).mp huv
      exact ⟨u, v, he, hkeep u hu, hkeep v hv⟩)
    (fun p hp => hmovedMap p.1 p.2 hp)
  refine ⟨hall, hvalid, hsize.trans hiso.size_eq, hfree.trans hiso.freeNodes_eq, fun u v => ?_⟩
  refine (hedges u v).trans ⟨?_, ?_⟩
  · rintro (huv | huv)
    · obtain ⟨he, hu, hv⟩ := (hiso.edge_iff u v).mp huv
      exact ⟨u, v, he, hkeep u hu, hkeep v hv⟩
    · exact (hmovedMap u v huv).2.2
  · rintro ⟨u', v', he, rfl, rfl⟩
    by_cases hu : u' = d
    · subst hu
      have hv : v' ≠ u' := (h.edge_ne he).symm
      rw [hmove, hkeep v' hv]
      exact .inr ((hmoved c v').mpr (.inl ⟨rfl, he⟩))
    · by_cases hv : v' = d
      · subst hv
        rw [hmove, hkeep u' hu]
        exact .inr ((hmoved u' c).mpr (.inr ⟨rfl, he⟩))
      · rw [hkeep u' hu, hkeep v' hv]
        exact .inl ((hiso.edge_iff u' v').mpr ⟨he, hu, hv⟩)

theorem contractPair_eq (r : Rep) (a b : Nat) :
    r.contractPair a b = (a, b) ∨ r.contractPair a b = (b, a) := by
  unfold contractPair
  split
  · exact .inr rfl
  · exact .inl rfl

theorem contractTest_spec (h : r.Valid) (hab : r.Edge a b) :
    ((r.removeEdge a b).isReachableNonConst a b).2 = r.removeEdge a b ∧
      (((r.removeEdge a b).isReachableNonConst a b).1 = true ↔ (r.removeEdge a b).Path a b) ∧
      ¬(r.removeEdge a b).Path b a := by
  have hlt := h.edge_lt a b hab
  have hspec := isReachableNonConst_spec (removeEdge_valid h a b) hlt.1 hlt.2
  refine ⟨hspec.1, hspec.2, fun hp => ?_⟩
  have hle := (removeEdge_valid h a b).rank_le_of_path hp
  rw [rank_removeEdge, rank_removeEdge] at hle
  exact absurd (h.edge_rank a b hab) (Nat.not_lt_of_le hle)

theorem restore_spec (h : r.Valid) (hab : r.Edge a b) :
    let restored := ((r.removeEdge a b).insertEdge a b).2
    restored.Valid ∧ ∀ x y, restored.Edge x y ↔ r.Edge x y := by
  have hlive := h.live_of_edge hab
  have hins := insertEdge_spec (removeEdge_valid h a b) hlive.1 hlive.2
  have hok : ((r.removeEdge a b).insertEdge a b).1 = true := by
    by_contra hne
    exact (contractTest_spec h hab).2.2 (hins.rejected_iff.mp (by simpa using hne))
  refine ⟨hins.valid, fun x y => ?_⟩
  rw [hins.edge_of_accepted hok, edge_removeEdge]
  by_cases hxy : x = a ∧ y = b
  · obtain ⟨rfl, rfl⟩ := hxy
    exact ⟨fun _ => hab, fun _ => .inr ⟨rfl, rfl⟩⟩
  · exact ⟨fun he => (he.resolve_right hxy).1, fun he => .inl ⟨he, hxy⟩⟩

theorem contractEdge_eq (h : r.Valid) (hab : r.Edge a b) :
    ((r.removeEdge a b).Path a b ∧
      r.contractEdge a b = some (none, ((r.removeEdge a b).insertEdge a b).2)) ∨
    (¬(r.removeEdge a b).Path a b ∧ ∃ c d, ((c = a ∧ d = b) ∨ (c = b ∧ d = a)) ∧
      r.contractEdge a b = some (some c, ((r.removeEdge a b).mergeInto c d).2)) := by
  obtain ⟨hsame, hiff, -⟩ := contractTest_spec h hab
  rw [contractEdge, if_pos (hasEdge_iff.mpr hab)]
  by_cases hreach : ((r.removeEdge a b).isReachableNonConst a b).1 = true
  · exact .inl ⟨hiff.mp hreach, by simp only [if_pos hreach, hsame]⟩
  · refine .inr ⟨fun hp => hreach (hiff.mpr hp), ?_⟩
    simp only [if_neg hreach, hsame]
    rcases contractPair_eq (r.removeEdge a b) a b with hpair | hpair <;> rw [hpair]
    · exact ⟨a, b, .inl ⟨rfl, rfl⟩, rfl⟩
    · exact ⟨b, a, .inr ⟨rfl, rfl⟩, rfl⟩

end Rep
end TfReading.GraphCycles
