import TfReading.GraphCycles.State

/-!
# Searches and `InsertEdge`

`ForwardDFS` recognises a cycle by meeting a node of the rank it is bounded by.
The rank invariant makes that test exact, and when it finds no cycle the two
searches return the closed halves of the window that `Reorder` repairs.
-/

namespace TfReading.GraphCycles

open Relation List RankOrder
namespace Rep

/-! ## What the searches find -/

theorem reach_forwardSearch (r : Rep) (bound : Nat) :
    (r.forwardSearch bound).Reach =
      ReflTransGen (fun a b => r.Edge a b ∧ r.rank b < bound) := by
  funext x y
  simp only [Search.Bounded.Reach, forwardSearch, boundedSearch, mem_out, decide_eq_true_eq, rank]

theorem reach_backwardSearch (r : Rep) (bound : Nat) :
    (r.backwardSearch bound).Reach =
      ReflTransGen (fun b a => r.InEdge a b ∧ bound < r.rank a) := by
  funext x y
  simp only [Search.Bounded.Reach, backwardSearch, boundedSearch, mem_inSet, decide_eq_true_eq,
    rank]

theorem forwardSearch_meets (r : Rep) (bound v : Nat) :
    (∃ w ∈ (r.forwardSearch bound).succ v, (r.forwardSearch bound).stop w = true) ↔
      ∃ w, r.Edge v w ∧ r.rank w = bound := by
  simp only [forwardSearch, boundedSearch, mem_out, beq_iff_eq, rank]

variable {visited : Nat → Bool} {bound n x y : Nat} {r r' : Rep} {found : List Nat}

/-- Clearing the markers that a search left gives the state before the search. -/
theorem clearVisitedBits_withVisited (hvis : ∀ n, r.visited n = false)
    (hiff : ∀ v, visited v = true ↔ r.visited v = true ∨ v ∈ found) :
    (r.withVisited visited).clearVisitedBits found = r := by
  have hnodes : ((r.withVisited visited).clearVisitedBits found).nodes = r.nodes := by
    funext m
    have hm : (visited m && !decide (m ∈ found)) = (r.nodes m).visited := by
      have := hiff m
      rw [hvis] at this
      rw [show (r.nodes m).visited = false from hvis m]
      simpa using this.mp
    rw [nodes_clearVisitedBits]
    simp only [withVisited, hm]
  exact Rep.ext hnodes (size_clearVisitedBits _ _) (freeNodes_clearVisitedBits _ _)

theorem forwardSearch_spec (hlt : ∀ x y, r.Edge x y → x < r.size ∧ y < r.size)
    (hvis : ∀ n, r.visited n = false) (hn : n < r.size) (bound : Nat) :
    (r.forwardSearch bound).Spec r.visited n ((r.forwardSearch bound).run r.visited n) := by
  refine Search.Bounded.run_spec (fun v _ => hvis v) (fun v hv => ?_)
  show v ∈ Finset.range r.size
  rw [Finset.mem_range]
  rcases ReflTransGen.cases_tail hv with rfl | ⟨u, -, huv⟩
  · exact hn
  · exact (hlt u v huv.1).2

/-- Nothing stops a backward search. -/
theorem backwardSearch_stopped {marked : Nat → Bool}
    {o : Search.Outcome Nat} (ho : (r.backwardSearch bound).Spec marked n o) :
    o.stopped = false := by
  by_contra hne
  obtain ⟨v, -, w, -, hw⟩ := ho.stopped_iff.mp (by simpa using hne)
  exact absurd hw (by simp [backwardSearch, boundedSearch])

theorem isReachableNonConst_spec (h : r.Valid) (hx : x < r.size) (hy : y < r.size) :
    (r.isReachableNonConst x y).2 = r ∧ ((r.isReachableNonConst x y).1 = true ↔ r.Path x y) := by
  rw [isReachableNonConst]
  split
  next hxy =>
    rw [hxy]
    exact ⟨rfl, fun _ => .refl, fun _ => rfl⟩
  next hxy =>
    split
    next hrank =>
      refine ⟨rfl, fun hf => absurd hf (by simp), fun hp => ?_⟩
      exact absurd (h.rank_inj x hx y hy (le_antisymm (h.rank_le_of_path hp) hrank)) hxy
    · have hspec := forwardSearch_spec h.edge_lt h.unvisited hx (r.rank y)
      have hmeets := meets_iff_reach h.edge_rank hxy
        (fun v w hvw hw => h.rank_inj w (h.edge_lt v w hvw).2 y hy hw)
      refine ⟨clearVisitedBits_withVisited h.unvisited hspec.visited_iff, ?_⟩
      show (!!_) = true ↔ _
      rw [Bool.not_not]
      refine hspec.stopped_iff.trans (.trans ?_ hmeets)
      simp only [forwardSearch_meets, reach_forwardSearch]

/-! ## Reordering -/

theorem nodes_reorder (r : Rep) (deltab deltaf : List Nat) (m : Nat) :
    (r.reorder deltab deltaf).nodes m =
      { r.nodes m with
        visited := (r.nodes m).visited && !decide (m ∈ deltab) && !decide (m ∈ deltaf)
        rank := repair r.rank (r.sort deltab) (r.sort deltaf) m } := by
  have hmem : ∀ delta, m ∈ r.sort delta ↔ m ∈ delta := fun delta =>
    (perm_insertionSort _ delta).mem_iff
  have hrank1 : ∀ w, ((r.clearVisitedBits (r.sort deltab)).nodes w).rank = r.rank w :=
    fun w => by rw [nodes_clearVisitedBits]; rfl
  have hrank2 : ((r.clearVisitedBits (r.sort deltab)).clearVisitedBits (r.sort deltaf)).rank =
      r.rank := by
    funext w
    rw [rank, nodes_clearVisitedBits]
    exact hrank1 w
  simp only [reorder, moveToList, nodes_assignRanks, nodes_clearVisitedBits, hrank2, hmem,
    nil_append, repair, ranks]
  rfl

@[simp]
theorem size_reorder (r : Rep) (deltab deltaf : List Nat) :
    (r.reorder deltab deltaf).size = r.size := by
  simp only [reorder, moveToList, size_assignRanks, size_clearVisitedBits]

@[simp]
theorem freeNodes_reorder (r : Rep) (deltab deltaf : List Nat) :
    (r.reorder deltab deltaf).freeNodes = r.freeNodes := by
  simp only [reorder, moveToList, freeNodes_assignRanks, freeNodes_clearVisitedBits]

theorem sort_spec (r : Rep) (delta : List Nat) :
    (r.sort delta).Perm delta ∧ ((r.sort delta).map r.rank).Pairwise (· ≤ ·) := by
  refine ⟨perm_insertionSort _ delta, ?_⟩
  rw [pairwise_map]
  exact pairwise_insertionSort _ delta

/-! ## The window that a new edge opens -/

section Window

variable {r : Rep} {v x y : Nat}

/-- A search does not gain from edges that lead back to its start. -/
theorem reach_iff_of_back {R S : Nat → Nat → Prop} {start : Nat} (hR : ∀ a b, R a b → S a b)
    (hS : ∀ a b, S a b → R a b ∨ b = start) :
    ReflTransGen S start v ↔ ReflTransGen R start v := by
  constructor
  · intro hreach
    induction hreach with
    | refl => exact .refl
    | tail _ hbc ih =>
      rcases hS _ _ hbc with hbc | rfl
      · exact ih.tail hbc
      · exact .refl
  · exact .mono hR start v

theorem forward_reach_iff :
    ReflTransGen
        (fun a b => (r.addEdge x y).Edge a b ∧ (r.addEdge x y).rank b < bound) y v ↔
      ReflTransGen (fun a b => r.Edge a b ∧ r.rank b < bound) y v := by
  simp only [rank_addEdge, edge_addEdge]
  exact reach_iff_of_back (fun _ _ e => ⟨.inl e.1, e.2⟩)
    fun _ _ e => e.1.imp (⟨·, e.2⟩) And.right

theorem backward_reach_iff :
    ReflTransGen
        (fun b a => (r.addEdge x y).InEdge a b ∧ bound < (r.addEdge x y).rank a) x v ↔
      ReflTransGen (fun b a => r.InEdge a b ∧ bound < r.rank a) x v := by
  simp only [rank_addEdge, inEdge_addEdge]
  exact reach_iff_of_back (fun _ _ e => ⟨.inl e.1, e.2⟩)
    fun _ _ e => e.1.imp (⟨·, e.2⟩) And.left

theorem path_of_forward (hv : ReflTransGen (fun a b => r.Edge a b ∧ r.rank b < bound) y v) : r.Path
    y v :=
  .mono (fun _ _ e => e.1) y v hv

theorem path_of_backward (h : r.Valid)
    (hv : ReflTransGen (fun b a => r.InEdge a b ∧ bound < r.rank a) x v) :
    r.Path v x := by
  induction hv with
  | refl => exact .refl
  | tail _ hbc ih => exact .head ((h.inEdge_iff _ _).mp hbc.1) ih

/-- Without a path from `y` to `x` the two bounded searches return the two halves
of the window. -/
theorem window_of_searches (h : r.Valid) (hx : x < r.size) (hy : y < r.size)
    (hrank : r.rank y < r.rank x) (hno : ¬r.Path y x) {back fwd : List Nat}
    (hbnodup : back.Nodup) (hfnodup : fwd.Nodup)
    (hbsorted : (back.map r.rank).Pairwise (· ≤ ·))
    (hfsorted : (fwd.map r.rank).Pairwise (· ≤ ·))
    (hb : ∀ v, v ∈ back ↔
      ReflTransGen (fun b a => r.InEdge a b ∧ r.rank y < r.rank a) x v)
    (hf : ∀ v, v ∈ fwd ↔
      ReflTransGen (fun a b => r.Edge a b ∧ r.rank b < r.rank x) y v) :
    RankOrder.Window {n | n < r.size} r.Edge r.rank x y back fwd where
  inj m hm n hn e := h.rank_inj m hm n hn e
  edge_mem a b hab := h.edge_lt a b hab
  edge_rank := h.edge_rank
  back_mem b hbm := by
    rcases ReflTransGen.cases_tail ((hb b).mp hbm) with rfl | ⟨c, -, hc⟩
    · exact hx
    · exact (h.edge_lt b c ((h.inEdge_iff b c).mp hc.1)).1
  fwd_mem a ham := h.path_lt hy (path_of_forward ((hf a).mp ham))
  back_nodup := hbnodup
  fwd_nodup := hfnodup
  back_sorted := hbsorted
  fwd_sorted := hfsorted
  x_mem := (hb x).mpr .refl
  y_mem := (hf y).mpr .refl
  back_reach b hbm := path_of_backward h ((hb b).mp hbm)
  fwd_reach a ham := path_of_forward ((hf a).mp ham)
  back_above b hbm := by
    rcases ReflTransGen.cases_tail ((hb b).mp hbm) with rfl | ⟨c, -, hc⟩
    · exact hrank
    · exact hc.2
  fwd_below a ham := by
    rcases ReflTransGen.cases_tail ((hf a).mp ham) with rfl | ⟨c, -, hc⟩
    · exact hrank
    · exact hc.2
  back_closed b hbm a hab hya :=
    (hb a).mpr (((hb b).mp hbm).tail ⟨(h.inEdge_iff a b).mpr hab, hya⟩)
  fwd_closed a ham b hab := by
    refine ⟨fun e => hno ?_, fun hbx => (hf b).mpr (((hf a).mp ham).tail ⟨hab, hbx⟩)⟩
    have hbx : b = x := h.rank_inj b (h.edge_lt a b hab).2 x hx e
    exact (path_of_forward ((hf a).mp ham)).tail (hbx ▸ hab)

end Window

/-! ## `InsertEdge` -/

/-- What a caller of `InsertEdge` may rely on. -/
structure Inserted (r : Rep) (x y : Nat) (ok : Bool) (r' : Rep) : Prop where
  valid : r'.Valid
  size_eq : r'.size = r.size
  freeNodes_eq : r'.freeNodes = r.freeNodes
  rejected_iff : ok = false ↔ r.Path y x
  edge_of_rejected : ok = false → ∀ u v, r'.Edge u v ↔ r.Edge u v
  rank_of_rejected : ok = false → ∀ n, r'.rank n = r.rank n
  edge_of_accepted : ok = true → ∀ u v, r'.Edge u v ↔ r.Edge u v ∨ (u = x ∧ v = y)

theorem Inserted.accepted (hvalid : r'.Valid) (hsize : r'.size = r.size)
    (hfree : r'.freeNodes = r.freeNodes) (hno : ¬r.Path y x)
    (hedge : ∀ u v, r'.Edge u v ↔ r.Edge u v ∨ (u = x ∧ v = y)) : Inserted r x y true r' where
  valid := hvalid
  size_eq := hsize
  freeNodes_eq := hfree
  rejected_iff := iff_of_false (by simp) hno
  edge_of_rejected := nofun
  rank_of_rejected := nofun
  edge_of_accepted _ := hedge

section InsertEdge

variable {r : Rep} (h : r.Valid) {x y : Nat} (hx : r.Live x) (hy : r.Live y)

include h

theorem inserted_self : Inserted r x x false r where
  valid := h
  size_eq := rfl
  freeNodes_eq := rfl
  rejected_iff := ⟨fun _ => .refl, fun _ => rfl⟩
  edge_of_rejected _ _ _ := .rfl
  rank_of_rejected _ _ := rfl
  edge_of_accepted := nofun

theorem no_path_back (hrank : r.rank x < r.rank y) : ¬r.Path y x := fun hp =>
  absurd (h.rank_le_of_path hp) (Nat.not_le_of_lt hrank)

theorem inserted_present (hxy : r.Edge x y) : Inserted r x y true r := by
  refine .accepted h rfl rfl (no_path_back h (h.edge_rank x y hxy)) fun u v => ⟨.inl, ?_⟩
  rintro (huv | ⟨rfl, rfl⟩)
  · exact huv
  · exact hxy

include hx hy

/-- Adding an edge between live nodes, with ranks that are topological for it and
with the markers cleared, keeps the invariant. -/
theorem valid_of_added (hsize : r'.size = r.size) (hfree : r'.freeNodes = r.freeNodes)
    (hlt : ∀ n < r.size, r'.rank n < r.size)
    (hinj : ∀ m < r.size, ∀ n < r.size, r'.rank m = r'.rank n → m = n)
    (hedge : ∀ u v, r'.Edge u v ↔ r.Edge u v ∨ (u = x ∧ v = y))
    (hin : ∀ u v, r'.InEdge u v ↔ r.InEdge u v ∨ (u = x ∧ v = y))
    (hrank : ∀ u v, r'.Edge u v → r'.rank u < r'.rank v)
    (hvis : ∀ n, r'.visited n = false) : r'.Valid where
  rank_lt n hn := by rw [hsize] at hn ⊢; exact hlt n hn
  rank_inj m hm n hn := by rw [hsize] at hm hn; exact hinj m hm n hn
  edge_lt u v huv := by
    rw [hsize]
    rcases (hedge u v).mp huv with he | ⟨rfl, rfl⟩
    · exact h.edge_lt u v he
    · exact ⟨hx.1, hy.1⟩
  edge_rank := hrank
  inEdge_iff u v := by rw [hin, hedge, h.inEdge_iff]
  unvisited := hvis
  free_lt n hn := by rw [hfree] at hn; rw [hsize]; exact h.free_lt n hn
  free_nodup := by rw [hfree]; exact h.free_nodup
  free_isolated n hn m := by
    rw [hfree] at hn
    rw [hedge, hedge]
    refine ⟨?_, ?_⟩
    · rintro (he | ⟨rfl, rfl⟩)
      · exact (h.free_isolated n hn m).1 he
      · exact hx.2 hn
    · rintro (he | ⟨rfl, rfl⟩)
      · exact (h.free_isolated n hn m).2 he
      · exact hy.2 hn

theorem inserted_consistent (hrank : r.rank x < r.rank y) :
    Inserted r x y true (r.addEdge x y) := by
  refine .accepted (valid_of_added h hx hy rfl rfl ?_ ?_ (fun _ _ => edge_addEdge r x y)
    (fun _ _ => inEdge_addEdge r x y) ?_ ?_) rfl rfl (no_path_back h hrank)
    fun _ _ => edge_addEdge r x y
  · exact fun n hn => by rw [rank_addEdge]; exact h.rank_lt n hn
  · exact fun m hm n hn e => h.rank_inj m hm n hn (by simpa only [rank_addEdge] using e)
  · intro u v huv
    rw [rank_addEdge, rank_addEdge]
    rcases (edge_addEdge r x y).mp huv with he | ⟨rfl, rfl⟩
    · exact h.edge_rank u v he
    · exact hrank
  · exact fun n => by rw [visited_addEdge]; exact h.unvisited n

theorem search_after_add (hrank : r.rank y < r.rank x) :
    let search := (r.addEdge x y).forwardSearch (r.rank x)
    let result := search.run (r.addEdge x y).visited y
    search.Spec (r.addEdge x y).visited y result ∧ (result.stopped = true ↔ r.Path y x) := by
  have hlt : ∀ u v, (r.addEdge x y).Edge u v → u < r.size ∧ v < r.size := by
    intro u v huv
    rcases (edge_addEdge r x y).mp huv with he | ⟨rfl, rfl⟩
    · exact h.edge_lt u v he
    · exact ⟨hx.1, hy.1⟩
  have hvis : ∀ n, (r.addEdge x y).visited n = false := fun n => by
    rw [visited_addEdge]; exact h.unvisited n
  have hspec := forwardSearch_spec hlt hvis hy.1 (r.rank x)
  have hne : y ≠ x := fun e => absurd hrank (by rw [e]; exact lt_irrefl _)
  have hmeets := meets_iff_reach h.edge_rank hne
    (fun v w hvw hw => h.rank_inj w (h.edge_lt v w hvw).2 x hx.1 hw)
  refine ⟨hspec, hspec.stopped_iff.trans (.trans ?_ hmeets)⟩
  simp only [forwardSearch_meets, reach_forwardSearch, forward_reach_iff]
  refine exists_congr (fun v => and_congr_right (fun _ => exists_congr (fun w => ?_)))
  rw [edge_addEdge, rank_addEdge]
  -- the new edge ends in `y`, whose rank is below the bound
  refine ⟨?_, fun hw => ⟨.inl hw.1, hw.2⟩⟩
  rintro ⟨he | ⟨-, rfl⟩, hw⟩
  · exact ⟨he, hw⟩
  · exact absurd hw hrank.ne

/-- A cycle was found: the insertion is undone. -/
theorem inserted_cycle (hnew : ¬r.Edge x y) (hpath : r.Path y x)
    (hiff : ∀ v, visited v = true ↔ (r.addEdge x y).visited v = true ∨ v ∈ found) :
    Inserted r x y false
      ((((r.addEdge x y).withVisited visited).removeEdge x y).clearVisitedBits found) := by
  generalize hr' : (((r.addEdge x y).withVisited visited).removeEdge x y).clearVisitedBits found = r'
  have hback : ∀ u v, (r.Edge u v ∨ (u = x ∧ v = y)) ∧ ¬(u = x ∧ v = y) ↔ r.Edge u v := by
    intro u v
    refine ⟨fun huv => huv.1.resolve_right huv.2, fun he => ⟨.inl he, ?_⟩⟩
    rintro ⟨rfl, rfl⟩
    exact hnew he
  have hedge : ∀ u v, r'.Edge u v ↔ r.Edge u v := by
    intro u v
    rw [← hback, ← hr', edge_clearVisitedBits, edge_removeEdge]
    exact and_congr_left' (edge_addEdge r x y)
  have hin : ∀ u v, r'.InEdge u v ↔ r.Edge u v := by
    intro u v
    rw [← hback, ← h.inEdge_iff, ← hr', inEdge_clearVisitedBits, inEdge_removeEdge]
    exact and_congr_left' (inEdge_addEdge r x y)
  have hrank : ∀ n, r'.rank n = r.rank n := by
    intro n
    rw [← hr', rank_clearVisitedBits, rank_removeEdge]
    exact rank_addEdge r x y n
  have hvis : ∀ n, r'.visited n = r.visited n := by
    intro n
    rw [← hr', visited_clearVisitedBits, visited_removeEdge, h.unvisited]
    have hn := hiff n
    rw [visited_addEdge, h.unvisited] at hn
    show (visited n && !decide (n ∈ found)) = false
    simpa using hn.mp
  have hsize : r'.size = r.size := hr' ▸ size_clearVisitedBits _ _
  have hfree : r'.freeNodes = r.freeNodes := hr' ▸ freeNodes_clearVisitedBits _ _
  exact
    { valid := h.of_subset hsize hrank hvis (fun u v => (hedge u v).mp)
        (fun u v => (hin u v).trans (hedge u v).symm) (hfree ▸ h.free_nodup)
        fun n hn => .inl (hfree ▸ hn)
      size_eq := hsize
      freeNodes_eq := hfree
      rejected_iff := ⟨fun _ => hpath, fun _ => rfl⟩
      edge_of_rejected := fun _ => hedge
      rank_of_rejected := fun _ => hrank
      edge_of_accepted := nofun }

/-- No cycle was found: the window is reordered. -/
theorem inserted_reorder (hno : ¬r.Path y x) {deltab deltaf : List Nat}
    (hwin : RankOrder.Window {n | n < r.size} r.Edge r.rank x y
      (r.sort deltab) (r.sort deltaf))
    (hiff : ∀ v, visited v = true → v ∈ deltab ∨ v ∈ deltaf) :
    Inserted r x y true (((r.addEdge x y).withVisited visited).reorder deltab deltaf) := by
  let marked := (r.addEdge x y).withVisited visited
  have hsort : ∀ delta, marked.sort delta = r.sort delta := by
    intro delta
    have : ∀ n, (marked.nodes n).rank = (r.nodes n).rank := rank_addEdge r x y
    simp only [sort, this]
  have hrk : marked.rank = r.rank := funext (rank_addEdge r x y)
  have hnodes := nodes_reorder marked deltab deltaf
  have hsize := size_reorder marked deltab deltaf
  have hfree := freeNodes_reorder marked deltab deltaf
  change Inserted r x y true (marked.reorder deltab deltaf)
  generalize marked.reorder deltab deltaf = r' at hnodes hsize hfree ⊢
  have hrank : ∀ n, r'.rank n = repair r.rank (r.sort deltab) (r.sort deltaf) n := by
    intro n
    rw [rank, hnodes, hsort, hsort, hrk]
  have hedge : ∀ u v, r'.Edge u v ↔ r.Edge u v ∨ (u = x ∧ v = y) := by
    intro u v
    rw [Edge, hnodes]
    exact edge_addEdge r x y
  have hin : ∀ u v, r'.InEdge u v ↔ r.InEdge u v ∨ (u = x ∧ v = y) := by
    intro u v
    rw [InEdge, hnodes]
    exact inEdge_addEdge r x y
  refine .accepted (valid_of_added h hx hy hsize hfree ?_ ?_ hedge hin ?_ ?_) hsize hfree hno hedge
  · intro n hn
    rw [hrank]
    by_cases hmem : n ∈ r.sort deltab ++ r.sort deltaf
    · obtain ⟨w, hw, he⟩ := hwin.exists_repair_eq hmem
      rw [← he]
      exact h.rank_lt w (hwin.mem hw)
    · rw [repair_of_not_mem hmem]
      exact h.rank_lt n hn
  · intro m hm n hn e
    rw [hrank, hrank] at e
    exact hwin.repair_injOn hm hn e
  · intro u v huv
    rw [hrank, hrank]
    rcases (hedge u v).mp huv with he | ⟨rfl, rfl⟩
    · exact hwin.repair_edge he
    · exact hwin.repair_new_edge
  · intro n
    rw [Rep.visited, hnodes]
    show (visited n && _ && _) = false
    by_contra hne
    have hne' : visited n = true ∧ n ∉ deltab ∧ n ∉ deltaf := by simpa using hne
    rcases hiff n hne'.1 with hb | hf
    · exact hne'.2.1 hb
    · exact hne'.2.2 hf

/-- The two searches of an insertion that found no cycle, and the window they give. -/
theorem window_after_add (hrank : r.rank y < r.rank x) (hno : ¬r.Path y x)
    {f b : Search.Outcome Nat}
    (hf : ((r.addEdge x y).forwardSearch (r.rank x)).Spec (r.addEdge x y).visited y f)
    (hstop : f.stopped = false)
    (hb : ((r.addEdge x y).backwardSearch (r.rank y)).Spec f.visited x b)
    (hbstop : b.stopped = false) :
    RankOrder.Window {n | n < r.size} r.Edge r.rank x y (r.sort b.found) (r.sort f.found) := by
  have hsb := r.sort_spec b.found
  have hsf := r.sort_spec f.found
  refine window_of_searches h hx.1 hy.1 hrank hno (hsb.1.nodup_iff.mpr hb.nodup)
    (hsf.1.nodup_iff.mpr hf.nodup) hsb.2 hsf.2 (fun v => ?_) (fun v => ?_)
  · rw [hsb.1.mem_iff, ← backward_reach_iff, ← reach_backwardSearch]
    exact ⟨hb.reach v, hb.complete hbstop v⟩
  · rw [hsf.1.mem_iff, ← forward_reach_iff, ← reach_forwardSearch]
    exact ⟨hf.reach v, hf.complete hstop v⟩

omit hy in
/-- The backward search meets none of the markers of the forward one, since a
common node would close a cycle. -/
theorem backwardSearch_after_add (hno : ¬r.Path y x) {f : Search.Outcome Nat}
    (hf : ((r.addEdge x y).forwardSearch (r.rank x)).Spec (r.addEdge x y).visited y f) :
    ((r.addEdge x y).backwardSearch (r.rank y)).Spec f.visited x
      (((r.addEdge x y).backwardSearch (r.rank y)).run f.visited x) := by
  refine Search.Bounded.run_spec (fun v hv => ?_) (fun v hv => ?_) <;>
    rw [reach_backwardSearch, backward_reach_iff] at hv
  · by_contra hmark
    rcases (hf.visited_iff v).mp (by simpa using hmark) with hm | hm
    · rw [visited_addEdge, h.unvisited] at hm
      exact absurd hm (by simp)
    · have hreach := hf.reach v hm
      rw [reach_forwardSearch, forward_reach_iff] at hreach
      exact hno ((path_of_forward hreach).trans (path_of_backward h hv))
  · show v ∈ Finset.range r.size
    rw [Finset.mem_range]
    rcases ReflTransGen.cases_tail hv with rfl | ⟨c, -, hc⟩
    · exact hx.1
    · exact (h.edge_lt v c ((h.inEdge_iff v c).mp hc.1)).1

theorem insertEdge_spec : Inserted r x y (r.insertEdge x y).1 (r.insertEdge x y).2 := by
  rw [insertEdge]
  by_cases hxy : x = y
  · subst hxy
    rw [if_pos rfl]
    exact inserted_self h
  rw [if_neg hxy]
  by_cases hnew : ((r.nodes x).out.insert y).1 = true
  swap
  · rw [if_pos (by simpa using hnew)]
    exact inserted_present h (not_not.mp ((not_congr OrderedSet.insert_fst_iff).mp hnew))
  rw [if_neg (by simpa using hnew)]
  have hedge : ¬r.Edge x y := OrderedSet.insert_fst_iff.mp hnew
  by_cases hle : ((r.addEdge x y).nodes x).rank ≤ ((r.addEdge x y).nodes y).rank
  · simp only [if_pos hle]
    have hle' : r.rank x ≤ r.rank y := by
      rw [← rank_addEdge r x y x, ← rank_addEdge r x y y]
      exact hle
    exact inserted_consistent h hx hy (lt_of_le_of_ne hle'
      (fun e => hxy (h.rank_inj x hx.1 y hy.1 e)))
  simp only [if_neg hle]
  have hrank : r.rank y < r.rank x := by
    rw [← rank_addEdge r x y x, ← rank_addEdge r x y y]
    exact Nat.lt_of_not_le hle
  rw [show ((r.addEdge x y).nodes x).rank = r.rank x from rank_addEdge r x y x]
  obtain ⟨hspec, hstopped⟩ := search_after_add h hx hy hrank
  generalize hf : ((r.addEdge x y).forwardSearch (r.rank x)).run (r.addEdge x y).visited y = f
    at hspec hstopped
  have hforward : (r.addEdge x y).forwardDFS y (r.rank x) =
      (!f.stopped, (r.addEdge x y).withVisited f.visited, f.found) := by rw [← hf]; rfl
  rw [hforward]
  by_cases hcycle : f.stopped = true
  · rw [hcycle]
    exact inserted_cycle h hx hy hedge (hstopped.mp hcycle) hspec.visited_iff
  have hno : ¬r.Path y x := fun hp => hcycle (hstopped.mpr hp)
  have hstop := Bool.eq_false_iff.mpr hcycle
  have hback := backwardSearch_after_add h hx hno hspec
  generalize hb : ((r.addEdge x y).backwardSearch (r.rank y)).run f.visited x = b at hback
  have hbackward : ((r.addEdge x y).withVisited f.visited).backwardDFS x (r.rank y) =
      ((r.addEdge x y).withVisited b.visited, b.found) := by rw [← hb]; rfl
  have hlow : (((r.addEdge x y).withVisited f.visited).nodes y).rank = r.rank y :=
    rank_addEdge r x y y
  simp only [hstop, Bool.not_false, hlow, hbackward]
  refine inserted_reorder h hx hy hno (window_after_add h hx hy hrank hno hspec hstop hback
    (backwardSearch_stopped hback)) (fun v hv => ?_)
  rcases (hback.visited_iff v).mp hv with hm | hm
  · rcases (hspec.visited_iff v).mp hm with hm | hm
    · rw [visited_addEdge, h.unvisited] at hm
      exact absurd hm (by simp)
    · exact .inr hm
  · exact .inl hm

end InsertEdge

end Rep
end TfReading.GraphCycles
