import TfReading.GraphCycles.Basic

/-!
# The state of `GraphCycles` and what its primitive writes do to it

Proofs about the operations speak of the edge relation, the ranks and the
markers.  Each primitive write is described once in these terms.
-/

namespace TfReading.GraphCycles

open OrderedSet
namespace Rep

def rank (r : Rep) (n : Nat) : Nat := (r.nodes n).rank

def visited (r : Rep) (n : Nat) : Bool := (r.nodes n).visited

/-- The edge relation, as the successor sets record it. -/
def Edge (r : Rep) (x y : Nat) : Prop := y ∈ (r.nodes x).out

/-- The edge relation, as the predecessor sets record it. -/
def InEdge (r : Rep) (x y : Nat) : Prop := x ∈ (r.nodes y).inSet

def Live (r : Rep) (n : Nat) : Prop := n < r.size ∧ n ∉ r.freeNodes

def Path (r : Rep) : Nat → Nat → Prop := Relation.ReflTransGen r.Edge

variable {r r' : Rep} {x y : Nat} {β : Type}

theorem hasEdge_iff : r.hasEdge x y = true ↔ r.Edge x y :=
  contains_iff

theorem mem_out : y ∈ (r.nodes x).out.valueSequence ↔ r.Edge x y := Iff.rfl

theorem mem_inSet :
    x ∈ (r.nodes y).inSet.valueSequence ↔ r.InEdge x y := Iff.rfl

structure Valid (r : Rep) : Prop where
  rank_lt : ∀ n < r.size, r.rank n < r.size
  rank_inj : ∀ m < r.size, ∀ n < r.size, r.rank m = r.rank n → m = n
  edge_lt : ∀ x y, r.Edge x y → x < r.size ∧ y < r.size
  edge_rank : ∀ x y, r.Edge x y → r.rank x < r.rank y
  inEdge_iff : ∀ x y, r.InEdge x y ↔ r.Edge x y
  unvisited : ∀ n, r.visited n = false
  free_lt : ∀ n ∈ r.freeNodes, n < r.size
  free_nodup : r.freeNodes.Nodup
  free_isolated : ∀ n ∈ r.freeNodes, ∀ m, ¬r.Edge n m ∧ ¬r.Edge m n

theorem Valid.live_of_edge (h : r.Valid) (hxy : r.Edge x y) :
    r.Live x ∧ r.Live y :=
  ⟨⟨(h.edge_lt x y hxy).1, fun hx => (h.free_isolated x hx y).1 hxy⟩,
    ⟨(h.edge_lt x y hxy).2, fun hy => (h.free_isolated y hy x).2 hxy⟩⟩

theorem Valid.edge_ne (h : r.Valid) (hxy : r.Edge x y) : x ≠ y := by
  rintro rfl
  exact lt_irrefl _ (h.edge_rank x x hxy)

theorem Valid.rank_le_of_path (h : r.Valid) (hxy : r.Path x y) :
    r.rank x ≤ r.rank y :=
  RankOrder.rank_le_of_reach h.edge_rank hxy

theorem Valid.path_lt (h : r.Valid) (hx : x < r.size) (hxy : r.Path x y) : y < r.size := by
  rcases Relation.ReflTransGen.cases_tail hxy with rfl | ⟨z, -, hz⟩
  · exact hx
  · exact (h.edge_lt z y hz).2

theorem Valid.of_subset (h : r.Valid) (hsize : r'.size = r.size)
    (hrank : ∀ n, r'.rank n = r.rank n) (hvisited : ∀ n, r'.visited n = r.visited n)
    (hedge : ∀ x y, r'.Edge x y → r.Edge x y) (hin : ∀ x y, r'.InEdge x y ↔ r'.Edge x y)
    (hnodup : r'.freeNodes.Nodup)
    (hfree : ∀ n ∈ r'.freeNodes,
      n ∈ r.freeNodes ∨ (n < r.size ∧ ∀ m, ¬r'.Edge n m ∧ ¬r'.Edge m n)) : r'.Valid where
  rank_lt n hn := by rw [hsize] at hn ⊢; rw [hrank]; exact h.rank_lt n hn
  rank_inj m hm n hn := by
    rw [hsize] at hm hn
    rw [hrank, hrank]
    exact h.rank_inj m hm n hn
  edge_lt x y hxy := by rw [hsize]; exact h.edge_lt x y (hedge x y hxy)
  edge_rank x y hxy := by rw [hrank, hrank]; exact h.edge_rank x y (hedge x y hxy)
  inEdge_iff := hin
  unvisited n := by rw [hvisited]; exact h.unvisited n
  free_lt n hn := by rw [hsize]; exact (hfree n hn).elim (h.free_lt n) And.left
  free_nodup := hnodup
  free_isolated n hn m := by
    rcases hfree n hn with hn | hn
    · exact ⟨fun he => (h.free_isolated n hn m).1 (hedge n m he),
        fun he => (h.free_isolated n hn m).2 (hedge m n he)⟩
    · exact hn.2 m

def frame (r : Rep) : Nat × List Nat × (Nat → Nat) × (Nat → Bool) :=
  (r.size, r.freeNodes, r.rank, r.visited)

theorem frame_eq (h : r'.frame = r.frame) : r'.size = r.size ∧
    r'.freeNodes = r.freeNodes ∧ (∀ n, r'.rank n = r.rank n) ∧ ∀ n, r'.visited n = r.visited n := by
  simpa only [frame, Prod.mk.injEq, funext_iff] using h

/-! ## Writes through a node pointer -/

section Modify

variable (r : Rep) (n : Nat) (f : Node → Node)

theorem nodes_modify (m : Nat) :
    (r.modify n f).nodes m = if m = n then f (r.nodes n) else r.nodes m := by
  simp only [modify, Function.update_apply]

theorem modify_keeps (p : Node → β) (hp : ∀ x, p (f x) = p x) (m : Nat) :
    p ((r.modify n f).nodes m) = p (r.nodes m) := by
  rw [nodes_modify]
  split
  next hm => rw [hp, hm]
  · rfl

theorem frame_modify (hrank : ∀ x, (f x).rank = x.rank) (hvisited : ∀ x, (f x).visited = x.visited) :
    (r.modify n f).frame = r.frame := by
  have h1 : (r.modify n f).rank = r.rank := funext (modify_keeps r n f Node.rank hrank)
  have h2 : (r.modify n f).visited = r.visited :=
    funext (modify_keeps r n f Node.visited hvisited)
  rw [frame, h1, h2]
  rfl

theorem edge_modify (hout : ∀ x, (f x).out = x.out) : (r.modify n f).Edge x y ↔ r.Edge x y := by
  rw [Edge, modify_keeps r n f Node.out hout, Edge]

theorem inEdge_modify (hin : ∀ x, (f x).inSet = x.inSet) :
    (r.modify n f).InEdge x y ↔ r.InEdge x y := by
  rw [InEdge, modify_keeps r n f Node.inSet hin, InEdge]

end Modify

/-! A loop of writes. -/

theorem foldl_modify_keeps {α : Type} {k : α → Nat} {f : α → Node → Node} (p : Rep → β)
    (hp : ∀ r a, p (r.modify (k a) (f a)) = p r) (as : List α) (r : Rep) :
    p (as.foldl (fun r a => r.modify (k a) (f a)) r) = p r := by
  induction as generalizing r with
  | nil => rfl
  | cons a as ih => rw [List.foldl_cons, ih, hp]

/-- A condition that each write adds to what is there. -/
theorem foldl_modify_iff {f : Node → Node} {P : Node → Prop} {Q : Prop}
    (hf : ∀ x, P (f x) ↔ P x ∧ Q) (ys : List Nat) (m : Nat) (r : Rep) :
    P ((ys.foldl (fun r y => r.modify y f) r).nodes m) ↔ P (r.nodes m) ∧ (m ∈ ys → Q) := by
  induction ys generalizing r with
  | nil => simp
  | cons z ys ih =>
    rw [List.foldl_cons, ih, nodes_modify, List.mem_cons]
    split
    next hm =>
      rw [hf, hm]
      exact ⟨fun h => ⟨h.1.1, fun _ => h.1.2⟩, fun h => ⟨⟨h.1, h.2 (.inl rfl)⟩, fun _ => h.2 (.inl rfl)⟩⟩
    next hm => rw [or_iff_right hm]

/-! ## Loops that erase one node from its neighbours -/

section Erase

variable (r : Rep) (node : Nat) (ys : List Nat)

theorem frame_eraseFromIn : (r.eraseFromIn node ys).frame = r.frame :=
  foldl_modify_keeps frame (fun _ _ => frame_modify _ _ _ (by intro; rfl) (by intro; rfl)) ys r

theorem edge_eraseFromIn : (r.eraseFromIn node ys).Edge x y ↔ r.Edge x y :=
  iff_of_eq (foldl_modify_keeps (fun r => r.Edge x y)
    (fun _ _ => propext (edge_modify _ _ _ (by intro; rfl))) ys r)

theorem inEdge_eraseFromIn :
    (r.eraseFromIn node ys).InEdge x y ↔ r.InEdge x y ∧ (y ∈ ys → x ≠ node) :=
  foldl_modify_iff (P := fun n => x ∈ n.inSet) (fun _ => mem_erase) ys y r

theorem frame_eraseFromOut : (r.eraseFromOut node ys).frame = r.frame :=
  foldl_modify_keeps frame (fun _ _ => frame_modify _ _ _ (by intro; rfl) (by intro; rfl)) ys r

theorem inEdge_eraseFromOut : (r.eraseFromOut node ys).InEdge x y ↔ r.InEdge x y :=
  iff_of_eq (foldl_modify_keeps (fun r => r.InEdge x y)
    (fun _ _ => propext (inEdge_modify _ _ _ (by intro; rfl))) ys r)

theorem edge_eraseFromOut :
    (r.eraseFromOut node ys).Edge x y ↔ r.Edge x y ∧ (x ∈ ys → y ≠ node) :=
  foldl_modify_iff (P := fun n => y ∈ n.out) (fun _ => mem_erase) ys x r

end Erase

/-! ## One edge -/

section OneEdge

variable (r : Rep) (a b : Nat)

def relink (f g : OrderedSet Nat → OrderedSet Nat) : Rep :=
  (r.modify a fun n => { n with out := f n.out }).modify b fun n => { n with inSet := g n.inSet }

section

variable (f g : OrderedSet Nat → OrderedSet Nat)

theorem frame_relink : (r.relink a b f g).frame = r.frame :=
  (frame_modify _ _ _ (by intro; rfl) (by intro; rfl)).trans
    (frame_modify _ _ _ (by intro; rfl) (by intro; rfl))

theorem edge_relink : (r.relink a b f g).Edge x y ↔
    y ∈ if x = a then f (r.nodes x).out else (r.nodes x).out := by
  rw [relink, edge_modify _ _ _ (by intro; rfl), Edge, nodes_modify]
  by_cases hx : x = a
  · rw [if_pos hx, if_pos hx, hx]
  · rw [if_neg hx, if_neg hx]

theorem inEdge_relink : (r.relink a b f g).InEdge x y ↔
    x ∈ if y = b then g (r.nodes y).inSet else (r.nodes y).inSet := by
  have hkeep : ∀ n, ((r.modify a fun n => { n with out := f n.out }).nodes n).inSet =
      (r.nodes n).inSet := modify_keeps _ _ _ Node.inSet fun _ => rfl
  rw [relink, InEdge, nodes_modify]
  by_cases hy : y = b
  · rw [if_pos hy, if_pos hy, hy, hkeep]
  · rw [if_neg hy, if_neg hy, hkeep]

end

@[simp]
theorem rank_removeEdge (n : Nat) : (r.removeEdge a b).rank n = r.rank n :=
  (frame_eq (frame_relink r a b (·.erase b) (·.erase a))).2.2.1 n

@[simp]
theorem visited_removeEdge (n : Nat) : (r.removeEdge a b).visited n = r.visited n :=
  (frame_eq (frame_relink r a b (·.erase b) (·.erase a))).2.2.2 n

theorem edge_removeEdge :
    (r.removeEdge a b).Edge x y ↔ r.Edge x y ∧ ¬(x = a ∧ y = b) := by
  refine (edge_relink r a b (·.erase b) (·.erase a)).trans ?_
  split
  next hx => rw [mem_erase, and_iff_right hx, Edge]
  next hx => rw [Edge, and_iff_left fun h => hx h.1]

theorem inEdge_removeEdge :
    (r.removeEdge a b).InEdge x y ↔ r.InEdge x y ∧ ¬(x = a ∧ y = b) := by
  refine (inEdge_relink r a b (·.erase b) (·.erase a)).trans ?_
  split
  next hy => rw [mem_erase, and_iff_left hy, InEdge]
  next hy => rw [InEdge, and_iff_left fun h => hy h.2]

@[simp]
theorem rank_addEdge (n : Nat) : (r.addEdge a b).rank n = r.rank n :=
  (frame_eq (frame_relink r a b (·.insert b |>.2) (·.insert a |>.2))).2.2.1 n

@[simp]
theorem visited_addEdge (n : Nat) : (r.addEdge a b).visited n = r.visited n :=
  (frame_eq (frame_relink r a b (·.insert b |>.2) (·.insert a |>.2))).2.2.2 n

theorem edge_addEdge :
    (r.addEdge a b).Edge x y ↔ r.Edge x y ∨ (x = a ∧ y = b) := by
  refine (edge_relink r a b (·.insert b |>.2) (·.insert a |>.2)).trans ?_
  split
  next hx => rw [mem_insert, and_iff_right hx, Edge]
  next hx => rw [Edge, or_iff_left fun h => hx h.1]

theorem inEdge_addEdge :
    (r.addEdge a b).InEdge x y ↔ r.InEdge x y ∨ (x = a ∧ y = b) := by
  refine (inEdge_relink r a b (·.insert b |>.2) (·.insert a |>.2)).trans ?_
  split
  next hy => rw [mem_insert, and_iff_left hy, InEdge]
  next hy => rw [InEdge, or_iff_left fun h => hy h.2]

end OneEdge

/-! ## Markers and ranks -/

theorem nodes_clearVisitedBits (r : Rep) (l : List Nat) (m : Nat) :
    (r.clearVisitedBits l).nodes m =
      { r.nodes m with visited := (r.nodes m).visited && !decide (m ∈ l) } := by
  induction l generalizing r with
  | nil => simp [clearVisitedBits]
  | cons w l ih =>
    show ((clearVisitedBits (r.modify w _) l).nodes m) = _
    rw [ih, nodes_modify]
    by_cases hm : m = w
    · rw [if_pos hm, hm]; simp
    · rw [if_neg hm]; simp [hm]

@[simp]
theorem size_clearVisitedBits (r : Rep) (l : List Nat) : (r.clearVisitedBits l).size = r.size :=
  foldl_modify_keeps Rep.size (fun _ _ => rfl) l r

@[simp]
theorem freeNodes_clearVisitedBits (r : Rep) (l : List Nat) :
    (r.clearVisitedBits l).freeNodes = r.freeNodes :=
  foldl_modify_keeps Rep.freeNodes (fun _ _ => rfl) l r

theorem rank_clearVisitedBits (r : Rep) (l : List Nat) (m : Nat) :
    (r.clearVisitedBits l).rank m = r.rank m := by
  rw [rank, nodes_clearVisitedBits, rank]

theorem visited_clearVisitedBits (r : Rep) (l : List Nat) (m : Nat) :
    (r.clearVisitedBits l).visited m = (r.visited m && !decide (m ∈ l)) := by
  rw [visited, nodes_clearVisitedBits, visited]

theorem edge_clearVisitedBits (r : Rep) (l : List Nat) :
    (r.clearVisitedBits l).Edge x y ↔ r.Edge x y := by
  rw [Edge, nodes_clearVisitedBits, Edge]

theorem inEdge_clearVisitedBits (r : Rep) (l : List Nat) :
    (r.clearVisitedBits l).InEdge x y ↔ r.InEdge x y := by
  rw [InEdge, nodes_clearVisitedBits, InEdge]

theorem nodes_assignRanks (r : Rep) (list merged : List Nat) (m : Nat) :
    (r.assignRanks list merged).nodes m =
      { r.nodes m with rank := RankOrder.assign r.rank (list.zip merged) m } := by
  rw [assignRanks]
  generalize list.zip merged = ps
  induction ps generalizing r with
  | nil => rfl
  | cons p ps ih =>
    have hrank : (r.modify p.1 (fun n => { n with rank := p.2 })).rank =
        Function.update r.rank p.1 p.2 := by
      funext k
      rw [rank, nodes_modify, Function.update_apply]
      by_cases hk : k = p.1
      · rw [if_pos hk, if_pos hk]
      · rw [if_neg hk, if_neg hk, rank]
    rw [List.foldl_cons, ih, hrank, nodes_modify]
    by_cases hm : m = p.1
    · rw [if_pos hm, hm]; rfl
    · rw [if_neg hm]; rfl

@[simp]
theorem size_assignRanks (r : Rep) (list merged : List Nat) :
    (r.assignRanks list merged).size = r.size :=
  foldl_modify_keeps Rep.size (fun _ _ => rfl) _ r

@[simp]
theorem freeNodes_assignRanks (r : Rep) (list merged : List Nat) :
    (r.assignRanks list merged).freeNodes = r.freeNodes :=
  foldl_modify_keeps Rep.freeNodes (fun _ _ => rfl) _ r

end Rep
end TfReading.GraphCycles
