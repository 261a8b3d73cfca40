import TfReading.ResourceSafety.Analysis

/-!
# What the analysis reports

Along the order of the visits, the set of a node holds the operations that reach it.  A node that
meets an input before that has been visited freezes it, if its own set is still empty; the later
visit of the input then fails a check.
-/

namespace TfReading.ResourceSafety

open Outcome List Relation PostOrder

namespace Graph

variable {g : Graph} {a b x : Nat} {ops : List ResourceOp} {state : State} {kind : Kind}

/-! ## Invariant -/

theorem flows_mem {done rest : List Nat} (horder : g.reversePostOrder = done ++ rest) {n : Nat}
    (h : g.Flows a n) (hn : n ∈ done) : a ∈ done := by
  induction h with
  | refl => exact hn
  | tail _ hedge ih =>
    apply ih
    obtain ⟨l1, l2, rfl⟩ := append_of_mem hn
    rw [append_assoc, cons_append] at horder
    exact mem_append_left _ ((before_iff horder).mp hedge.2)

theorem flows_target (h : g.Flows a b) (hne : a ≠ b) : b ∈ g.reversePostOrder := by
  obtain ⟨u, -, -, l1, l2, hsplit, -⟩ :=
    (ReflTransGen.cases_tail h).resolve_left fun heq => hne heq.symm
  rw [hsplit]
  exact mem_append_right _ mem_cons_self

structure Inv (g : Graph) (done : List Nat) (state : State) : Prop where
  wellFormed : Sets.WellFormed state.sets
  fresh : ∀ k, k ∉ done → (state.sets k).impl = none ∧ (state.sets k).storage = none
  contents : ∀ n ∈ done, ∀ op, op ∈ state.sets.contents n ↔ g.Carries op n
  frozen : ∀ k, (state.sets k).frozen = true → ∃ y ∈ done, g.Edge k y
  result : ∀ a b, (a, b) ∈ state.result ↔ b ∈ done ∧ a ≠ b ∧ g.Unsafe a b ∧ g.Flows a b
  nodup : state.result.Nodup

theorem Inv.init (g : Graph) : Inv g [] ⟨.empty, []⟩ := by
  refine ⟨⟨nofun, nofun⟩, fun _ _ => ⟨rfl, rfl⟩, nofun, nofun, ?_, nodup_nil⟩
  simp

section Step

variable {done rest : List Nat} {x : Nat} {state : State} (h : Inv g done state)
    (horder : g.reversePostOrder = done ++ x :: rest) {op : ResourceOp}

include horder

theorem not_mem_done : x ∉ done := by
  have hnodup := g.reversePostOrder_nodup
  rw [horder, nodup_middle, nodup_cons, mem_append, not_or] at hnodup
  exact hnodup.1.1

/-- What reaches `x` comes through an input that has been visited. -/
theorem carries_incoming :
    (∃ src ∈ g.inputs x, src ∈ done ∧ g.Carries op src) ↔ op.node ≠ x ∧ g.Carries op x := by
  constructor
  · intro hex
    obtain ⟨src, hsrc, hdone, hkind, hread, hflows⟩ := hex
    have hmem := flows_mem horder hflows hdone
    refine ⟨fun heq => not_mem_done horder (heq ▸ hmem), hkind, hread, ?_⟩
    exact hflows.tail ⟨hsrc, (before_iff horder).mpr hdone⟩
  · intro hcarries
    obtain ⟨hne, hkind, hread, hflows⟩ := hcarries
    obtain ⟨src, hflows', hedge, hbefore⟩ :=
      (ReflTransGen.cases_tail hflows).resolve_left fun heq => hne heq.symm
    exact ⟨src, hedge, (before_iff horder).mp hbefore, hkind, hread, hflows'⟩

include h

omit horder in
theorem Inv.contents_input {src : Nat} :
    op ∈ state.sets.contents src ↔ src ∈ done ∧ g.Carries op src := by
  by_cases hdone : src ∈ done
  · rw [h.contents src hdone]
    simp [hdone]
  · have hnil : state.sets.contents src = [] :=
      (h.wellFormed.contents_eq_nil src).mpr (h.fresh src hdone).1
    simp [hnil, hdone]

theorem Inv.unshared : Sets.Unshared state.sets x := by
  intro m _ himpl
  obtain ⟨ops, hops⟩ := h.wellFormed.owned m x himpl
  rw [(h.fresh x (not_mem_done horder)).2] at hops
  cases hops

theorem Inv.mergeInputs (hloop : x ∉ g.inputs x) (hthawed : (state.sets x).frozen = false) :
    ∃ sets new, (g.inputs x).foldlM (fun sets src => sets.add x src) state.sets = .ok sets ∧
      Sets.Adds state.sets x new sets ∧
      (∀ op, op ∈ sets.contents x ↔ op.node ≠ x ∧ g.Carries op x) ∧
      ∀ k, (sets k).frozen = true → (state.sets k).frozen = true ∨ g.Edge k x := by
  obtain ⟨sets, hrun, hadds, hfrozen⟩ :=
    Sets.addAll_spec h.wellFormed (h.unshared horder) hthawed hloop
  have hnil : state.sets.contents x = [] :=
    (h.wellFormed.contents_eq_nil x).mpr (h.fresh x (not_mem_done horder)).1
  refine ⟨sets, _, hrun, hadds, fun op => ?_, hfrozen⟩
  rw [hadds.mem, hnil, ← carries_incoming horder]
  simp only [not_mem_nil, false_or, h.contents_input]

theorem Inv.extend {sets : Sets} {new : ResourceOp → Prop} {pairs : List (Nat × Nat)}
    (hadds : Sets.Adds state.sets x new sets) (hcontents : ∀ op, op ∈ sets.contents x ↔ g.Carries op x)
    (hfrozen : ∀ k, (sets k).frozen = true → (state.sets k).frozen = true ∨ g.Edge k x)
    (hpairs : ∀ a b, (a, b) ∈ pairs ↔ b = x ∧ a ≠ b ∧ g.Unsafe a b ∧ g.Flows a b)
    (hnodup : pairs.Nodup) : Inv g (done ++ [x]) ⟨sets, state.result ++ pairs⟩ := by
  have hx := not_mem_done horder
  refine ⟨hadds.wellFormed, fun k hk => ?_, fun n hn op => ?_, fun k hk => ?_, fun a b => ?_, ?_⟩
  · rw [mem_append, mem_singleton, not_or] at hk
    rw [hadds.impl k hk.2, hadds.storage k hk.2]
    exact h.fresh k hk.1
  · by_cases heq : n = x
    · rw [heq]
      exact hcontents op
    · rw [hadds.contents_of_ne (h.unshared horder) heq]
      refine h.contents n ?_ op
      simpa [heq] using hn
  · rcases hfrozen k hk with hk | hk
    · obtain ⟨y, hy, hedge⟩ := h.frozen k hk
      exact ⟨y, mem_append_left _ hy, hedge⟩
    · exact ⟨x, mem_append_right _ mem_cons_self, hk⟩
  · rw [mem_append, h.result, hpairs, mem_append, mem_singleton, or_and_right]
  · rw [nodup_append]
    refine ⟨h.nodup, hnodup, fun p hp q hq heq => hx ?_⟩
    have hdone := ((h.result p.1 p.2).mp hp).1
    have hqx := ((hpairs q.1 q.2).mp hq).1
    rw [heq, hqx] at hdone
    exact hdone

/-- A node that some earlier node has met too soon makes the analysis fail. -/
theorem Inv.process_frozen (hfrozen : (state.sets x).frozen = true) :
    g.processNode state x = .error .frozen := by
  have hdone : done ≠ [] := by
    intro hnil
    obtain ⟨y, hy, -⟩ := h.frozen x hfrozen
    rw [hnil] at hy
    exact absurd hy not_mem_nil
  rw [processNode, Sets.addAll_frozen hfrozen (inputs_ne_nil horder hdone)]
  rfl

end Step

/-- The pairs that a resource operation is reported in. -/
theorem mem_incompatible (hkind : g.opKind x = some kind)
    (hops : ∀ op, op ∈ ops ↔ op.node ≠ x ∧ g.Carries op x) (a b : Nat) :
    (a, b) ∈ (ops.filter (fun op => !isEdgeSafe op.kind kind)).map (fun op => (op.node, x)) ↔
      b = x ∧ a ≠ b ∧ g.Unsafe a b ∧ g.Flows a b := by
  simp only [mem_map, mem_filter, Prod.mk.injEq, hops, Bool.not_eq_eq_eq_not, Bool.not_true]
  constructor
  · intro hex
    obtain ⟨op, ⟨⟨hne, hop, -, hflows⟩, hunsafe⟩, rfl, rfl⟩ := hex
    exact ⟨rfl, hne, ⟨op.kind, kind, hop, hkind, hunsafe⟩, hflows⟩
  · intro hall
    obtain ⟨rfl, hne, ⟨k, k', hk, hk', hunsafe⟩, hflows⟩ := hall
    rw [hkind, Option.some.injEq] at hk'
    subst hk'
    have hread : k ≠ .read := by
      intro heq
      rw [heq] at hunsafe
      cases hunsafe
    exact ⟨⟨a, k⟩, ⟨⟨hne, hk, hread, hflows⟩, hunsafe⟩, rfl, rfl⟩

theorem incompatible_nodup (kind : Kind) (hnodup : ops.Nodup)
    (hops : ∀ op, op ∈ ops ↔ op.node ≠ x ∧ g.Carries op x) :
    ((ops.filter (fun op => !isEdgeSafe op.kind kind)).map (fun op => (op.node, x))).Nodup := by
  refine .map_on (fun op hop op' hop' heq => ?_) (hnodup.filter _)
  have hnode : op.node = op'.node := (Prod.mk.inj heq).1
  have hkind := ((hops op).mp (mem_of_mem_filter hop)).2.1
  have hkind' := ((hops op').mp (mem_of_mem_filter hop')).2.1
  rw [hnode, hkind'] at hkind
  cases op
  cases op'
  cases hkind
  cases hnode
  rfl

/-- A node that is no resource operation, or a read, does not reach itself. -/
theorem carries_of_read (hread : ∀ kind, g.opKind x = some kind → kind = .read)
    (op : ResourceOp) : op.node ≠ x ∧ g.Carries op x ↔ g.Carries op x := by
  refine ⟨fun h => h.2, fun h => ⟨fun heq => h.2.1 (hread op.kind ?_), h⟩⟩
  rw [← heq]
  exact h.1

theorem carries_of_write (hkind : g.opKind x = some kind) (hread : kind ≠ .read)
    (op : ResourceOp) : (op.node ≠ x ∧ g.Carries op x) ∨ op = ⟨x, kind⟩ ↔ g.Carries op x := by
  constructor
  · intro h
    rcases h with h | rfl
    · exact h.2
    · exact ⟨hkind, hread, .refl⟩
  · intro h
    by_cases heq : op.node = x
    · have hk := h.1
      rw [heq, hkind, Option.some.injEq] at hk
      right
      rw [hk, ← heq]
    · exact .inl ⟨heq, h⟩

/-- A visit of a node that has not been met too soon. -/
theorem Inv.process {done rest : List Nat} (h : Inv g done state)
    (horder : g.reversePostOrder = done ++ x :: rest) (hloop : x ∉ g.inputs x)
    (hthawed : (state.sets x).frozen = false) :
    ∃ state', g.processNode state x = .ok state' ∧ Inv g (done ++ [x]) state' := by
  obtain ⟨sets, new, hrun, hadds, hcontents, hfrozen⟩ := h.mergeInputs horder hloop hthawed
  rw [processNode, hrun]
  cases hkind : g.opKind x with
  | none =>
    have hself := carries_of_read (g := g) (x := x) (by simp [hkind])
    have hpairs : ∀ a b, (a, b) ∈ ([] : List (Nat × Nat)) ↔
        b = x ∧ a ≠ b ∧ g.Unsafe a b ∧ g.Flows a b := by
      refine fun a b => iff_of_false not_mem_nil fun hall => ?_
      obtain ⟨rfl, -, ⟨k, k', -, hk', -⟩, -⟩ := hall
      rw [hkind] at hk'
      cases hk'
    have hinv := h.extend horder hadds (fun op => (hcontents op).trans (hself op)) hfrozen hpairs
      nodup_nil
    rw [append_nil] at hinv
    exact ⟨_, rfl, hinv⟩
  | some kind =>
    have hpairs := mem_incompatible hkind hcontents
    have hnodup := incompatible_nodup kind (hadds.wellFormed.contents_nodup x) hcontents
    by_cases hread : kind = .read
    · have hself := carries_of_read (g := g) (x := x) (by simp [hkind, hread])
      refine ⟨_, if_pos hread, ?_⟩
      exact h.extend horder hadds (fun op => (hcontents op).trans (hself op)) hfrozen hpairs hnodup
    · obtain ⟨sets', hrun', hadds', hfrozen'⟩ := Sets.addOp_spec hadds.wellFormed hadds.unshared
        (hadds.thawed.trans hthawed) ⟨x, kind⟩
      have hself : ∀ op, op ∈ sets'.contents x ↔ g.Carries op x := fun op => by
        rw [hadds'.mem, hcontents, carries_of_write hkind hread]
      have hinv := h.extend horder (hadds.trans hadds') hself
        (fun k hk => hfrozen k (hfrozen' k ▸ hk)) hpairs hnodup
      refine ⟨_, ?_, hinv⟩
      show (if kind = .read then _ else _) = _
      rw [if_neg hread, hrun']
      rfl

/-! ## Runs -/

/-- The visits succeed unless some node is visited before one of its inputs. -/
theorem Inv.run {done rest : List Nat} (hacyclic : g.Acyclic)
    (h : Inv g done state) (horder : g.reversePostOrder = done ++ rest) :
    (∃ state', rest.foldlM g.processNode state = .ok state' ∧ Inv g g.reversePostOrder state') ∨
      rest.foldlM g.processNode state = .error .frozen ∧ ∃ x u, g.Edge u x ∧ g.Before x u := by
  induction rest generalizing done state with
  | nil =>
    left
    rw [append_nil] at horder
    exact ⟨state, rfl, horder ▸ h⟩
  | cons x rest ih =>
    rw [foldlM_cons]
    cases hfrozen : (state.sets x).frozen with
    | true =>
      right
      obtain ⟨y, hy, hedge⟩ := h.frozen x hfrozen
      rw [h.process_frozen horder hfrozen]
      exact ⟨rfl, y, x, hedge, (before_iff horder).mpr hy⟩
    | false =>
      have hloop : x ∉ g.inputs x := fun hx => hacyclic x (.single hx)
      obtain ⟨state1, hrun1, hinv1⟩ := h.process horder hloop hfrozen
      rw [hrun1]
      exact ih hinv1 (by rw [horder, append_assoc]; rfl)

/-- What the analysis reports, unless it fails. -/
theorem compute_cases (hacyclic : g.Acyclic) :
    (∃ result, g.computeIncompatiblePairs = .ok result ∧
        ∀ a b, (a, b) ∈ result ↔ a ≠ b ∧ g.Unsafe a b ∧ g.Flows a b) ∨
      g.computeIncompatiblePairs = .error .frozen ∧ ∃ x u, g.Edge u x ∧ g.Before x u := by
  have hrun := (Inv.init g).run hacyclic (nil_append _).symm
  rw [computeIncompatiblePairs]
  rcases hrun with ⟨state, hrun, hinv⟩ | ⟨hrun, hbefore⟩
  · left
    have hperm := perm_insertionSort
      (fun a b : Nat × Nat => a.1 < b.1 ∨ a.1 = b.1 ∧ a.2 ≤ b.2) state.result
    have hchain := (hperm.nodup_iff.mpr hinv.nodup).isChain
    rw [hrun]
    refine ⟨_, if_pos hchain, fun a b => ?_⟩
    rw [hperm.mem_iff, hinv.result]
    exact ⟨fun h => h.2, fun h => ⟨flows_target h.2.2 h.1, h⟩⟩
  · right
    rw [hrun]
    exact ⟨rfl, hbefore⟩

/-! ## Completeness -/

/-- The analysis returns and reports exactly the unsafe pairs that are connected. -/
def Exact (g : Graph) : Prop :=
  ∃ result, g.computeIncompatiblePairs = .ok result ∧
    ∀ a b, (a, b) ∈ result ↔ a ≠ b ∧ g.Unsafe a b ∧ g.Path a b

theorem Exact.flows (h : g.Exact) (hacyclic : g.Acyclic) (hne : a ≠ b) (hkinds : g.Unsafe a b)
    (hpath : g.Path a b) : g.Flows a b := by
  obtain ⟨result, hrun, hresult⟩ := h
  rcases compute_cases hacyclic with ⟨result', hrun', hresult'⟩ | ⟨hrun', -⟩
  · rw [hrun, Except.ok.injEq] at hrun'
    subst hrun'
    exact ((hresult' a b).mp ((hresult a b).mpr ⟨hne, hkinds, hpath⟩)).2.2
  · rw [hrun] at hrun'
    cases hrun'

theorem before_asymm {u : Nat} (h : g.Before u x) : ¬g.Before x u := by
  intro h'
  obtain ⟨l1, l2, hsplit, hu⟩ := h
  obtain ⟨m1, m2, rfl⟩ := append_of_mem hu
  have hsplit' : g.reversePostOrder = m1 ++ u :: (m2 ++ x :: l2) := by rw [hsplit]; simp
  have hx : x ∈ m1 := (before_iff hsplit').mp h'
  exact not_mem_done hsplit (mem_append_left _ hx)

theorem exact_of_forward (hacyclic : g.Acyclic) (hforward : ∀ x u, g.Edge u x → g.Before u x) :
    g.Exact := by
  rcases compute_cases hacyclic with ⟨result, hrun, hresult⟩ | ⟨-, x, u, hedge, hbefore⟩
  · refine ⟨result, hrun, fun a b => (hresult a b).trans ?_⟩
    have hpath : g.Flows a b ↔ g.Path a b :=
      ⟨.mono (fun _ _ h => h.1) _ _, .mono (fun u x h => ⟨h, hforward x u h⟩) _ _⟩
    rw [hpath]
  · exact absurd hbefore (before_asymm (hforward x u hedge))

theorem successors_acyclic (hacyclic : g.Acyclic) : PostOrder.Acyclic g.successors := by
  intro v hv
  exact hacyclic v (.mono (fun _ _ h => successors_edge h) _ _ hv)

theorem exact_of_successors (hacyclic : g.Acyclic)
    (hmerge : ∀ x u, g.Edge u x → g.isNextIteration u = false)
    (hreach : ∀ x u, g.Edge u x → x < g.numNodes ∧ Reaches g.successors 0 u) : g.Exact := by
  refine exact_of_forward hacyclic fun x u hedge => ?_
  obtain ⟨hx, hu⟩ := hreach x u hedge
  have hspec := run_spec (Nat.zero_lt_of_lt hx)
  obtain ⟨l1, l2, hsplit⟩ := append_of_mem (hspec.mem_of_reaches hu)
  have hsucc : x ∈ g.successors u :=
    mem_successors.mpr ⟨hmerge x u hedge, hx, mem_of_mem_filter hedge⟩
  have hfirst := hspec.finished (successors_acyclic hacyclic) l1 u l2 hsplit x hsucc
  obtain ⟨m1, m2, rfl⟩ := append_of_mem hfirst
  refine ⟨l2.reverse ++ u :: m2.reverse, m1.reverse, ?_, by simp⟩
  rw [reversePostOrder, hsplit]
  simp

/-- If `NextIteration` nodes feed merges only and every edge starts at a node that the source
reaches, then the order respects all edges that the sets go along. -/
theorem exact_of_merge_consumers (hacyclic : g.Acyclic)
    (hmerge : ∀ x u, g.Edge u x → g.isNextIteration u = false)
    (hreach : ∀ x u, g.Edge u x → x < g.numNodes ∧
      ReflTransGen (fun a b => b ∈ g.successors a) 0 u) : g.Exact :=
  exact_of_successors hacyclic hmerge hreach

/-! ## All names and resource operations -/

/-- The last successor has the largest name. -/
theorem exists_last {v y : Nat} (hy : y ∈ g.successors v) :
    ∃ outs w, g.successors v = outs ++ [w] ∧ g.name y ≤ g.name w := by
  obtain ⟨outs, w, hsplit⟩ := (eq_nil_or_concat' (g.successors v)).resolve_left (ne_nil_of_mem hy)
  have hsorted : (g.successors v).Pairwise fun a b => g.name a ≤ g.name b := by
    have htotal : Std.Total fun a b => g.name a ≤ g.name b := ⟨fun _ _ => Nat.le_total _ _⟩
    have htrans : IsTrans Nat fun a b => g.name a ≤ g.name b := ⟨fun _ _ _ => Nat.le_trans⟩
    rw [successors]
    split
    · exact .nil
    · exact pairwise_insertionSort _ _
  refine ⟨outs, w, hsplit, ?_⟩
  rw [hsplit] at hy hsorted
  rcases mem_append.mp hy with hy | hy
  · exact (pairwise_append.mp hsorted).2.2 y hy w mem_cons_self
  · rw [mem_singleton.mp hy]

/-- Names that put the nodes with a property behind the others. -/
theorem exists_names (numNodes : Nat) (p : Nat → Prop) : ∃ name : Nat → Nat,
    Function.Injective name ∧ ∀ n m, m < numNodes → p n → name n ≤ name m → p m := by
  classical
  refine ⟨fun n => if p n then 2 * (numNodes + n) + 1 else 2 * n, fun n m h => ?_,
    fun n m hm hn h => ?_⟩
  · dsimp only at h
    split at h <;> split at h <;> omega
  · by_contra hno
    simp only [if_pos hn, if_neg hno] at h
    omega

/-- With suitable names the search goes straight to a `NextIteration` node, which is then the last
one to be visited.  The write in it does not get to its consumer. -/
theorem exists_not_exact {u : Nat} (hacyclic : g.Acyclic) (hu : g.isNextIteration u = true)
    (hedge : g.Edge u x) (hpos : 0 < g.numNodes) (hreach : Reaches g.successors 0 u) :
    ∃ name opInfo shouldIgnore mayCallFunction, Function.Injective name ∧
      ¬Exact { g with name, opInfo, shouldIgnore, mayCallFunction } := by
  obtain ⟨name, hinj, hname⟩ := exists_names g.numNodes (Reaches g.successors · u)
  let g' : Graph := { g with
    name
    opInfo := fun n => some (if n = u then .write else .read)
    shouldIgnore := fun _ => false
    mayCallFunction := fun _ => false }
  refine ⟨g'.name, g'.opInfo, g'.shouldIgnore, g'.mayCallFunction, hinj, fun hexact => ?_⟩
  have hexact : g'.Exact := hexact
  have hsame : (fun a b => b ∈ g'.successors a) = fun a b => b ∈ g.successors a := by
    funext a b
    exact propext ((mem_successors (g := g')).trans (mem_successors (g := g)).symm)
  have hreaches (n : Nat) : Reaches g'.successors n u ↔ Reaches g.successors n u := by
    rw [Reaches, hsame]
  obtain ⟨rest, hrest⟩ : [u] <+: run (Finset.range g'.numNodes) g'.successors 0 := by
    refine run_first (fun _ _ hx => Finset.mem_range.mpr (mem_successors.mp hx).2.1)
      (successors_acyclic hacyclic) (if_pos hu) (fun v hv hne => ?_) (Finset.mem_range.mpr hpos)
      ((hreaches 0).mpr hreach)
    obtain ⟨y, hy, hyu⟩ := (ReflTransGen.cases_head hv).resolve_left hne
    obtain ⟨outs, w, hsplit, hle⟩ := exists_last hy
    have hw : w ∈ g'.successors v := by simp [hsplit]
    exact ⟨outs, w, hsplit, (hreaches w).mpr
      (hname y w (mem_successors.mp hw).2.1 ((hreaches y).mp hyu) hle)⟩
  have horder : g'.reversePostOrder = rest.reverse ++ u :: [] := by
    rw [reversePostOrder, ← hrest]
    simp
  have hne : u ≠ x := fun h => hacyclic u (.single (h ▸ hedge))
  have hkinds : g'.Unsafe u x :=
    ⟨.write, .read, by simp [opKind, g'], by simp [opKind, g', hne.symm], rfl⟩
  obtain ⟨y, ⟨-, hbefore⟩, -⟩ := (ReflTransGen.cases_head
    (hexact.flows hacyclic hne hkinds (.single hedge))).resolve_left hne
  have hy : y ∈ rest.reverse ++ [u] := by
    obtain ⟨l1, l2, hsplit, -⟩ := hbefore
    rw [← horder, hsplit]
    simp
  rcases mem_append.mp hy with hy | hy
  · exact before_asymm hbefore ((before_iff horder).mpr hy)
  · rw [mem_singleton.mp hy] at hbefore
    exact before_asymm hbefore hbefore

/-- The analysis is right whatever the names and the resource operations are, if and only if
`NextIteration` nodes feed merges only. -/
theorem exact_all_iff (g : Graph) (hacyclic : g.Acyclic)
    (hreach : ∀ x u, g.Edge u x → x < g.numNodes ∧ g.Path 0 u) :
    (∀ name opInfo shouldIgnore mayCallFunction, Function.Injective name →
      Exact { g with name, opInfo, shouldIgnore, mayCallFunction }) ↔
      ∀ x u, g.Edge u x → g.isNextIteration u = false := by
  constructor
  · intro h x u hedge
    -- either a path from the source has such a node before `u`, or the search follows it
    have hpath : (∃ x u, g.Edge u x ∧ g.isNextIteration u = true ∧ Reaches g.successors 0 u) ∨
        Reaches g.successors 0 u := by
      have hu := (hreach x u hedge).2
      clear hedge
      induction hu with
      | refl => exact .inr .refl
      | @tail v w _ hvw ih =>
        rcases ih with hfirst | hv
        · exact .inl hfirst
        · cases hnext : g.isNextIteration v with
          | true => exact .inl ⟨w, v, hvw, hnext, hv⟩
          | false => exact .inr (hv.tail
              (mem_successors.mpr ⟨hnext, (hreach w v hvw).1, mem_of_mem_filter hvw⟩))
    by_contra hu
    obtain ⟨x, u, hedge, hu, hsearch⟩ : ∃ x u, g.Edge u x ∧ g.isNextIteration u = true ∧
        Reaches g.successors 0 u :=
      hpath.elim id fun hsearch => ⟨x, u, hedge, Bool.eq_true_of_not_eq_false hu, hsearch⟩
    obtain ⟨name, opInfo, shouldIgnore, mayCallFunction, hinj, hno⟩ :=
      exists_not_exact hacyclic hu hedge (Nat.zero_lt_of_lt (hreach x u hedge).1) hsearch
    exact hno (h name opInfo shouldIgnore mayCallFunction hinj)
  · intro hmerge name opInfo shouldIgnore mayCallFunction _
    refine exact_of_successors hacyclic hmerge fun x u hedge => ⟨(hreach x u hedge).1, ?_⟩
    refine .mono (fun a b h => ?_) _ _ (hreach x u hedge).2
    exact mem_successors.mpr ⟨hmerge b a h, (hreach b a h).1, mem_of_mem_filter h⟩

/-! ## A consumer of a `NextIteration` -/

/-- A loop with a write, and a read with the given inputs that comes first by name. -/
def loopWithReader (readerInputs : List Nat) : Graph where
  numNodes := 5
  name n := if n = 4 then 0 else n + 1
  isMerge n := n = 1
  isNextIteration n := n = 3
  inEdges
    | 1 => [0, 3]
    | 2 => [1]
    | 3 => [2]
    | 4 => readerInputs
    | _ => []
  shouldIgnore _ := false
  opInfo
    | 2 => some .write
    | 4 => some .read
    | _ => none
  mayCallFunction _ := false

theorem acyclic_of_lt (h : ∀ x u, g.Edge u x → u < x) : g.Acyclic := by
  intro n hn
  have hlt : ∀ {u x}, TransGen g.Edge u x → u < x := by
    intro u x hpath
    induction hpath with
    | single hedge => exact h _ _ hedge
    | tail _ hedge ih => exact lt_trans ih (h _ _ hedge)
  exact lt_irrefl n (hlt hn)

theorem loopWithReader_acyclic {readerInputs : List Nat} (hlt : ∀ u ∈ readerInputs, u < 4) :
    (loopWithReader readerInputs).Acyclic := by
  refine acyclic_of_lt fun x u hedge => ?_
  have hin : u ∈ (loopWithReader readerInputs).inEdges x := mem_of_mem_filter hedge
  match x with
  | 0 => exact absurd hin not_mem_nil
  | 1 =>
    have hinputs : (loopWithReader readerInputs).inputs 1 = [0] := rfl
    rw [Edge, hinputs, mem_singleton] at hedge
    omega
  | 2 | 3 => exact mem_singleton.mp hin ▸ (by decide)
  | 4 => exact hlt u hin
  | x + 5 => exact absurd hin not_mem_nil

theorem readsNextIteration_order :
    (loopWithReader [0, 3]).reversePostOrder = [0, 4, 1, 2, 3] := by
  have h0 : (loopWithReader [0, 3]).successors 0 = [4, 1] := by decide
  have h1 : (loopWithReader [0, 3]).successors 1 = [2] := by decide
  have h2 : (loopWithReader [0, 3]).successors 2 = [3] := by decide
  have h3 : (loopWithReader [0, 3]).successors 3 = [] := by decide
  have h4 : (loopWithReader [0, 3]).successors 4 = [] := by decide
  have hn : (loopWithReader [0, 3]).numNodes = 5 := rfl
  simp [reversePostOrder, run, loop, push, hn, h0, h1, h2, h3, h4,
    Function.update_apply]

/-- A read that also has the `NextIteration` as its input is visited first and freezes its set. -/
theorem readsNextIteration_fails : (loopWithReader [0, 3]).Acyclic ∧
    (loopWithReader [0, 3]).computeIncompatiblePairs = .error .frozen := by
  refine ⟨loopWithReader_acyclic (by decide), ?_⟩
  rw [computeIncompatiblePairs, readsNextIteration_order]
  decide

theorem readsWrite_edges {x u : Nat} (h : (loopWithReader [2]).Edge u x) :
    x < 5 ∧ (u = 0 ∨ u = 1 ∨ u = 2) := by
  match x with
  | 0 | x + 5 => exact absurd h not_mem_nil
  | 1 | 2 | 3 | 4 => simp [mem_singleton.mp h]

theorem readsWrite_next {x u : Nat} (h : (loopWithReader [2]).Edge u x) :
    (loopWithReader [2]).isNextIteration u = false := by
  rcases (readsWrite_edges h).2 with rfl | rfl | rfl <;> rfl

theorem exact_all_readsWrite : (loopWithReader [2]).Acyclic ∧
    ∀ name opInfo, Function.Injective name →
      Exact { loopWithReader [2] with name, opInfo } := by
  have hacyclic : (loopWithReader [2]).Acyclic := loopWithReader_acyclic (by decide)
  refine ⟨hacyclic, fun name opInfo hname => (exact_all_iff _ hacyclic fun x u h => ?_).mpr
    (fun _ _ => readsWrite_next) name opInfo _ _ hname⟩
  have h1 : (loopWithReader [2]).Edge 0 1 := mem_cons_self
  have h2 : (loopWithReader [2]).Edge 1 2 := mem_cons_self
  refine ⟨(readsWrite_edges h).1, ?_⟩
  rcases (readsWrite_edges h).2 with rfl | rfl | rfl
  exacts [.refl, .single h1, .tail (.single h1) h2]

theorem exact_of_merge_consumers_readsWrite : (loopWithReader [2]).Exact := by
  have h1 : 1 ∈ (loopWithReader [2]).successors 0 := by decide
  have h2 : 2 ∈ (loopWithReader [2]).successors 1 := by decide
  refine exact_of_merge_consumers (loopWithReader_acyclic (by decide)) (fun _ _ => readsWrite_next)
    fun x u h => ⟨(readsWrite_edges h).1, ?_⟩
  rcases (readsWrite_edges h).2 with rfl | rfl | rfl
  exacts [.refl, .single h1, .tail (.single h1) h2]

end Graph
end TfReading.ResourceSafety
