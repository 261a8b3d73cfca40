import Mathlib.Algebra.BigOperators.Group.List.Basic
import Mathlib.Data.Fintype.EquivFin
import TfReading.Executor.Arrivals

/-!
# Deadness in an acyclic graph

For a graph without loops the rules for dead nodes have one solution.  The
arrivals at a node from the nodes that have completed, in whatever order, make it
ready exactly when the rule of its kind says so, and with the deadness of the
solution.
-/

namespace TfReading.Executor

open List Arrival TfReading.Executor.Graph

/-- Which output slots a node leaves without a value, given its deadness. -/
abbrev Kernels := Nat → Bool → Nat → Bool

namespace Graph

variable (g : Graph)

def Edge (m n : Nat) : Prop := m < g.numNodes ∧ n ∈ (g.node m).consumers

structure Dag : Prop where
  plain : ∀ n, (g.node n).kind = .ordinary ∨ (g.node n).kind = .merge ∨
    (g.node n).kind = .controlTrigger
  consumer_lt : ∀ m n, g.Edge m n → n < g.numNodes
  numInputs_eq : ∀ n < g.numNodes, (g.node n).numInputs = (g.dataIn n).length
  merge_pos : ∀ n < g.numNodes, (g.node n).isMerge = true → 0 < (g.node n).numInputs
  inEdges_lt : ∀ n < g.numNodes, g.numInEdges n < 2 ^ 31
  acyclic : ∀ n, ¬Relation.TransGen g.Edge n n

/-- An ordinary node is dead when some data input has no value or some predecessor
is dead, a control trigger never, and a merge when no data input has a value. -/
def deadRule (noValue : Kernels) (n : Nat) (dead : Nat → Bool) : Bool :=
  match (g.node n).kind with
  | .merge => (g.dataIn n).all fun p => noValue p.1 (dead p.1) p.2.outputSlot
  | .controlTrigger => false
  | _ => (g.dataIn n).any (fun p => dead p.1 || noValue p.1 (dead p.1) p.2.outputSlot) ||
      (g.controlIn n).any dead

variable {g}

variable {n : Nat} {p : Nat × EdgeInfo}

theorem mem_dataIn :
    p ∈ g.dataIn n ↔ p.1 < g.numNodes ∧ p.2 ∈ (g.node p.1).outputEdges ∧ p.2.dstId = n := by
  rw [dataIn, mem_flatMap]
  refine ⟨fun h => ?_, fun h => ⟨p.1, mem_range.mpr h.1, ?_⟩⟩
  · obtain ⟨m, hm, hp⟩ := h
    obtain ⟨e, he, rfl⟩ := mem_map.mp hp
    obtain ⟨hmem, hdst⟩ := mem_filter.mp he
    exact ⟨mem_range.mp hm, hmem, of_decide_eq_true hdst⟩
  · exact mem_map.mpr ⟨p.2, mem_filter.mpr ⟨h.2.1, decide_eq_true h.2.2⟩, rfl⟩

variable {m : Nat} {α : Type} {l : List α}

theorem mem_controlIn :
    m ∈ g.controlIn n ↔ m < g.numNodes ∧ n ∈ (g.node m).outputControlEdges := by
  rw [controlIn, mem_flatMap]
  refine ⟨fun h => ?_, fun h => ⟨m, mem_range.mpr h.1, ?_⟩⟩
  · obtain ⟨m', hm, hp⟩ := h
    obtain ⟨d, hd, rfl⟩ := mem_map.mp hp
    obtain ⟨hmem, hdst⟩ := mem_filter.mp hd
    exact ⟨mem_range.mp hm, of_decide_eq_true hdst ▸ hmem⟩
  · exact mem_map.mpr ⟨n, mem_filter.mpr ⟨h.2, decide_eq_true rfl⟩, rfl⟩

theorem edge_of_dataIn (h : p ∈ g.dataIn n) : g.Edge p.1 n := by
  obtain ⟨hlt, he, hdst⟩ := mem_dataIn.mp h
  exact ⟨hlt, mem_append_left _ (hdst ▸ mem_map_of_mem he)⟩

theorem edge_of_controlIn (h : m ∈ g.controlIn n) : g.Edge m n := by
  obtain ⟨hlt, hd⟩ := mem_controlIn.mp h
  exact ⟨hlt, mem_append_right _ hd⟩

theorem any_congr_mem {p q : α → Bool} (h : ∀ a ∈ l, p a = q a) :
    l.any p = l.any q := by
  rw [Bool.eq_iff_iff, any_eq_true, any_eq_true]
  exact exists_congr (fun a => and_congr_right (fun ha => by rw [h a ha]))

theorem all_congr_mem {p q : α → Bool} (h : ∀ a ∈ l, p a = q a) :
    l.all p = l.all q := by
  rw [Bool.eq_iff_iff, all_eq_true, all_eq_true]
  exact forall₂_congr (fun a ha => by rw [h a ha])

theorem deadRule_congr {noValue : Kernels} {dead dead' : Nat → Bool}
    (h : ∀ m, g.Edge m n → dead m = dead' m) :
    g.deadRule noValue n dead = g.deadRule noValue n dead' := by
  have hall : (g.dataIn n).all (fun p => noValue p.1 (dead p.1) p.2.outputSlot) =
      (g.dataIn n).all fun p => noValue p.1 (dead' p.1) p.2.outputSlot :=
    all_congr_mem (fun p hp => by rw [h p.1 (edge_of_dataIn hp)])
  have hany : (g.dataIn n).any
        (fun p => dead p.1 || noValue p.1 (dead p.1) p.2.outputSlot) =
      (g.dataIn n).any fun p => dead' p.1 || noValue p.1 (dead' p.1) p.2.outputSlot :=
    any_congr_mem (fun p hp => by rw [h p.1 (edge_of_dataIn hp)])
  have hcontrol : (g.controlIn n).any dead = (g.controlIn n).any dead' :=
    any_congr_mem (fun m hm => h m (edge_of_controlIn hm))
  rw [deadRule, deadRule, hall, hany, hcontrol]

theorem Dag.wellFounded (h : g.Dag) : WellFounded g.Edge := by
  -- nodes outside the graph have no predecessors, the others are finitely many
  let onFin : Fin g.numNodes → Fin g.numNodes → Prop := fun a b => Relation.TransGen g.Edge a b
  have hwf : WellFounded onFin := by
    have hirrefl : Std.Irrefl onFin := ⟨fun a => h.acyclic a⟩
    exact Finite.wellFounded_of_trans_of_irrefl onFin
  have hacc : ∀ a : Fin g.numNodes, Acc g.Edge a := by
    intro a
    induction a using hwf.induction with
    | _ a ih => exact ⟨_, fun m hm => ih ⟨m, hm.1⟩ (.single hm)⟩
  refine ⟨fun n => ⟨n, fun m hm => hacc ⟨m, hm.1⟩⟩⟩

theorem Dag.exists_deadness (h : g.Dag) (noValue : Kernels) :
    ∃ dead : Nat → Bool, ∀ n, dead n = g.deadRule noValue n dead := by
  classical
  let rule : ∀ n, (∀ m, g.Edge m n → Bool) → Bool := fun n ih =>
    g.deadRule noValue n (fun m => if hm : g.Edge m n then ih m hm else false)
  refine ⟨h.wellFounded.fix rule, fun n => ?_⟩
  rw [h.wellFounded.fix_eq]
  refine deadRule_congr (fun m hm => ?_)
  rw [dif_pos hm]

end Graph

/-! ## Arrivals from completed nodes -/

section Arrivals

variable (g : Graph) (noValue : Kernels) (dead : Nat → Bool)

def arrivalsFrom (n m : Nat) : List Arrival :=
  ((g.node m).outputEdges.filter (fun e => e.dstId = n)).map
      (fun e => .data false (noValue m (dead m) e.outputSlot) (dead m)) ++
    ((g.node m).outputControlEdges.filter (fun d => d = n)).map (fun _ => .control (dead m))

def arrivalsOf (n : Nat) (done : List Nat) : List Arrival :=
  done.flatMap (arrivalsFrom g noValue dead n)

def ReadyAfter (n : Nat) (done : List Nat) : Prop :=
  if (g.node n).isMerge = true then
    (∀ m ∈ g.controlIn n, m ∈ done) ∧
      ((∃ p ∈ g.dataIn n, p.1 ∈ done ∧ noValue p.1 (dead p.1) p.2.outputSlot = false) ∨
        ∀ p ∈ g.dataIn n, p.1 ∈ done ∧ noValue p.1 (dead p.1) p.2.outputSlot = true)
  else (∀ m ∈ g.controlIn n, m ∈ done) ∧ ∀ p ∈ g.dataIn n, p.1 ∈ done

instance (n : Nat) (done : List Nat) : Decidable (ReadyAfter g noValue dead n done) := by
  unfold ReadyAfter
  infer_instance

variable {g noValue dead} {done : List Nat} {P : Arrival → Prop}

theorem arrivalsOf_append (n : Nat) (xs ys : List Nat) :
    arrivalsOf g noValue dead n (xs ++ ys) =
      arrivalsOf g noValue dead n xs ++ arrivalsOf g noValue dead n ys :=
  flatMap_append

theorem forall_arrival (hlt : ∀ m ∈ done, m < g.numNodes) :
    (∀ a ∈ arrivalsOf g noValue dead n done, P a) ↔
      (∀ p ∈ g.dataIn n, p.1 ∈ done →
        P (.data false (noValue p.1 (dead p.1) p.2.outputSlot) (dead p.1))) ∧
      ∀ m ∈ g.controlIn n, m ∈ done → P (.control (dead m)) := by
  refine ⟨fun h => ⟨fun p hp hdone => h _ ?_, fun m hm hdone => h _ ?_⟩, fun h a ha => ?_⟩
  · obtain ⟨-, he, hdst⟩ := mem_dataIn.mp hp
    exact mem_flatMap.mpr ⟨p.1, hdone, mem_append_left _
      (mem_map.mpr ⟨p.2, mem_filter.mpr ⟨he, decide_eq_true hdst⟩, rfl⟩)⟩
  · obtain ⟨-, hd⟩ := mem_controlIn.mp hm
    exact mem_flatMap.mpr ⟨m, hdone, mem_append_right _
      (mem_map.mpr ⟨n, mem_filter.mpr ⟨hd, decide_eq_true rfl⟩, rfl⟩)⟩
  · obtain ⟨m, hm, ha⟩ := mem_flatMap.mp ha
    rcases mem_append.mp ha with ha | ha
    · obtain ⟨e, he, rfl⟩ := mem_map.mp ha
      obtain ⟨hmem, hdst⟩ := mem_filter.mp he
      exact h.1 (m, e) (mem_dataIn.mpr ⟨hlt m hm, hmem, of_decide_eq_true hdst⟩) hm
    · obtain ⟨d, hd, rfl⟩ := mem_map.mp ha
      obtain ⟨hmem, hdst⟩ := mem_filter.mp hd
      exact h.2 m (mem_controlIn.mpr ⟨hlt m hm, of_decide_eq_true hdst ▸ hmem⟩) hm

theorem exists_arrival (hlt : ∀ m ∈ done, m < g.numNodes) :
    (∃ a ∈ arrivalsOf g noValue dead n done, P a) ↔
      (∃ p ∈ g.dataIn n, p.1 ∈ done ∧
        P (.data false (noValue p.1 (dead p.1) p.2.outputSlot) (dead p.1))) ∨
      ∃ m ∈ g.controlIn n, m ∈ done ∧ P (.control (dead m)) := by
  rw [← not_iff_not]
  push Not
  exact forall_arrival hlt

theorem countP_allArrivals (n : Nat) :
    (arrivalsOf g noValue dead n (List.range g.numNodes)).countP isControl =
        (g.controlIn n).length ∧
      (arrivalsOf g noValue dead n (List.range g.numNodes)).length = g.numInEdges n := by
  have hcontrol : ∀ m, (arrivalsFrom g noValue dead n m).countP isControl =
      ((g.node m).outputControlEdges.filter (fun d => d = n)).length := by
    intro m
    rw [arrivalsFrom, countP_append, countP_map, countP_map]
    rw [countP_eq_zero.mpr (by simp [isControl]), Nat.zero_add,
      countP_eq_length.mpr (by simp [isControl])]
  refine ⟨?_, ?_⟩
  · rw [arrivalsOf, countP_flatMap, controlIn, length_flatMap]
    refine congrArg sum (map_congr_left (fun m _ => ?_))
    rw [Function.comp_apply, hcontrol, length_map]
  · rw [arrivalsOf, length_flatMap, numInEdges, dataIn, controlIn,
      length_flatMap, length_flatMap, ← sum_map_add]
    refine congrArg sum (map_congr_left (fun m _ => ?_))
    rw [arrivalsFrom, length_append, length_map, length_map, length_map,
      length_map]

def remaining (g : Graph) (done : List Nat) : List Nat :=
  (List.range g.numNodes).filter (fun m => m ∉ done)

theorem mem_remaining :
    m ∈ remaining g done ↔ m < g.numNodes ∧ m ∉ done := by
  rw [remaining, mem_filter, mem_range, decide_eq_true_eq]

theorem arrivals_perm (n : Nat) (hnodup : done.Nodup) (hlt : ∀ m ∈ done, m < g.numNodes) :
    (arrivalsOf g noValue dead n done ++ arrivalsOf g noValue dead n (remaining g done)).Perm
      (arrivalsOf g noValue dead n (List.range g.numNodes)) := by
  rw [← arrivalsOf_append]
  refine .flatMap_right _ ((perm_ext_iff_of_nodup ?_ nodup_range).mpr ?_)
  · refine hnodup.append (nodup_range.filter _) (fun m hm hr => ?_)
    exact (mem_remaining.mp hr).2 hm
  · intro m
    rw [mem_append, mem_remaining, mem_range]
    by_cases hm : m ∈ done
    · simp [hm, hlt m hm]
    · simp [hm]

variable {n : Nat} {done : List Nat} (hnodup : done.Nodup) (hlt : ∀ m ∈ done, m < g.numNodes)

include hnodup hlt in
include hnodup hlt in
theorem length_arrivals :
    (arrivalsOf g noValue dead n done).length +
        (arrivalsOf g noValue dead n (remaining g done)).length = g.numInEdges n := by
  rw [← length_append, (arrivals_perm n hnodup hlt).length_eq, (countP_allArrivals n).2]

theorem remaining_lt (hm : m ∈ remaining g done) : m < g.numNodes :=
  (mem_remaining.mp hm).1

section Remaining

variable (noValue dead)

theorem countP_control_remaining :
    (arrivalsOf g noValue dead n (remaining g done)).countP isControl = 0 ↔
      ∀ m ∈ g.controlIn n, m ∈ done := by
  rw [countP_eq_zero, forall_arrival fun _ => remaining_lt]
  refine ⟨fun h m hm => ?_, fun h => ⟨fun _ _ _ => nofun, fun m hm hrem => ?_⟩⟩
  · by_contra hnot
    exact h.2 m hm (mem_remaining.mpr ⟨(mem_controlIn.mp hm).1, hnot⟩) rfl
  · exact absurd (h m hm) (mem_remaining.mp hrem).2

theorem countP_data_remaining :
    (arrivalsOf g noValue dead n (remaining g done)).countP isLive +
        (arrivalsOf g noValue dead n (remaining g done)).countP isDeadData = 0 ↔
      ∀ p ∈ g.dataIn n, p.1 ∈ done := by
  rw [Nat.add_eq_zero_iff, countP_eq_zero, countP_eq_zero, forall_arrival fun _ => remaining_lt,
    forall_arrival fun _ => remaining_lt]
  constructor
  · rintro ⟨⟨hlive, -⟩, hdd, -⟩ p hp
    by_contra hnot
    have hrem := mem_remaining.mpr ⟨(mem_dataIn.mp hp).1, hnot⟩
    have hvalue := hlive p hp hrem
    have hnone := hdd p hp hrem
    simp [isLive, isDeadData] at hvalue hnone
    exact absurd hvalue (by simp [hnone])
  · intro h
    have hno : ∀ p ∈ g.dataIn n, p.1 ∉ remaining g done := fun p hp hrem =>
      (mem_remaining.mp hrem).2 (h p hp)
    exact ⟨⟨fun p hp hrem => absurd hrem (hno p hp), fun _ _ _ => Bool.false_ne_true⟩,
      fun p hp hrem => absurd hrem (hno p hp), fun _ _ _ => Bool.false_ne_true⟩

end Remaining

/-! ## When a node becomes ready -/

variable (hg : g.Dag) (hdead : dead n = g.deadRule noValue n dead) (hn : n < g.numNodes)

theorem any_marksDead (hplain : (g.node n).kind ≠ .merge ∧ (g.node n).kind ≠ .controlTrigger) :
    (arrivalsOf g noValue dead n (List.range g.numNodes)).any marksDead =
      g.deadRule noValue n dead := by
  have hrule : g.deadRule noValue n dead = ((g.dataIn n).any
      (fun p => dead p.1 || noValue p.1 (dead p.1) p.2.outputSlot) || (g.controlIn n).any dead) := by
    rw [deadRule]
    split
    next h => exact absurd h hplain.1
    next h => exact absurd h hplain.2
    next => rfl
  rw [hrule, Bool.eq_iff_iff, any_eq_true, Bool.or_eq_true, any_eq_true, any_eq_true,
    exists_arrival fun _ => mem_range.mp]
  refine or_congr (exists_congr fun p => and_congr_right fun hp => ?_)
    (exists_congr fun m => and_congr_right fun hm => ?_)
  · exact and_iff_right (mem_range.mpr (mem_dataIn.mp hp).1)
  · exact and_iff_right (mem_range.mpr (mem_controlIn.mp hm).1)

theorem countP_isLive_pos (hlt : ∀ m ∈ done, m < g.numNodes) :
    0 < (arrivalsOf g noValue dead n done).countP isLive ↔
      ∃ p ∈ g.dataIn n, p.1 ∈ done ∧ noValue p.1 (dead p.1) p.2.outputSlot = false := by
  have hcontrol : ¬∃ m ∈ g.controlIn n, m ∈ done ∧ isLive (.control (dead m)) = true := by
    rintro ⟨m, -, -, hlive⟩
    cases hlive
  rw [countP_pos_iff, exists_arrival hlt, or_iff_left hcontrol]
  refine exists_congr fun p => and_congr_right fun _ => and_congr_right fun _ => ?_
  simp [isLive]

include hnodup hlt hg hdead hn

theorem flags_nonMerge (hmerge : (g.node n).isMerge = false) :
    (arriveAll (g.node n) (g.initialCounts n, []) (arrivalsOf g noValue dead n done)).2 =
      if ReadyAfter g noValue dead n done ∧ g.numInEdges n ≠ 0 then [dead n] else [] := by
  set now := arrivalsOf g noValue dead n done
  have hmax : g.maxPending n = g.numInEdges n := if_neg (by rw [hmerge]; simp)
  have hin := hg.inEdges_lt n hn
  have hfits := createHandle_fits (show g.numInEdges n < 2 ^ 32 by omega) hin
  have hlen : now.length + (arrivalsOf g noValue dead n (remaining g done)).length =
      g.numInEdges n := length_arrivals hnodup hlt
  have hready : now.length = g.numInEdges n ↔ ReadyAfter g noValue dead n done := by
    rw [ReadyAfter, if_neg (by rw [hmerge]; simp), ← countP_control_remaining noValue dead,
      ← countP_data_remaining noValue dead]
    have := length_eq_countP (arrivalsOf g noValue dead n (remaining g done))
    omega
  rw [initialCounts, hmax, nonMerge_arrivals hmerge hfits.1 hfits.2 _ (by omega)]
  simp only [← hready]
  by_cases hall : now.length = g.numInEdges n
  · have hnil : arrivalsOf g noValue dead n (remaining g done) = [] :=
      eq_nil_of_length_eq_zero (by omega)
    have hperm : (now ++ []).Perm (arrivalsOf g noValue dead n (range g.numNodes)) :=
      hnil ▸ arrivals_perm n hnodup hlt
    rw [append_nil] at hperm
    have hflag : (!(g.node n).isControlTrigger && now.any marksDead) = dead n := by
      rw [hperm.any_eq, hdead]
      rcases hg.plain n with hkind | hkind | hkind
      · rw [any_marksDead (by simp [hkind]), NodeItem.isControlTrigger, hkind]
        simp
      · exact absurd hmerge (by simp [NodeItem.isMerge, hkind])
      · rw [deadRule, NodeItem.isControlTrigger, hkind]
        simp
    by_cases hz : g.numInEdges n = 0
    · rw [if_neg (fun h => h.2 (eq_nil_of_length_eq_zero (by omega))),
        if_neg (fun h => h.2 hz)]
    · rw [if_pos ⟨hall, fun h => hz (by rw [← hall, h]; rfl)⟩, if_pos ⟨hall, hz⟩, hflag]
  · rw [if_neg (fun h => hall h.1), if_neg (fun h => hall h.1)]

theorem flags_merge (hmerge : (g.node n).isMerge = true) :
    (arriveAll (g.node n) (g.initialCounts n, []) (arrivalsOf g noValue dead n done)).2 =
      if ReadyAfter g noValue dead n done then [dead n] else [] := by
  set now := arrivalsOf g noValue dead n done
  set later := arrivalsOf g noValue dead n (remaining g done) with hlater
  have hmax : g.maxPending n = 1 + 2 * (g.controlIn n).length := if_pos hmerge
  have hin := hg.inEdges_lt n hn
  have hinputs := hg.numInputs_eq n hn
  have hsum : g.numInEdges n = (g.dataIn n).length + (g.controlIn n).length := rfl
  have hfits := createHandle_fits
    (show 1 + 2 * (g.controlIn n).length < 2 ^ 32 by omega) hin
  -- how the arrivals split by kind, now and later
  have hcontrol : now.countP isControl + later.countP isControl = (g.controlIn n).length := by
    rw [← countP_append, (arrivals_perm n hnodup hlt).countP_eq, (countP_allArrivals n).1]
  have hlen : now.length + later.length = g.numInEdges n := length_arrivals hnodup hlt
  have hsplit := length_eq_countP now
  have hsplit' := length_eq_countP later
  have hpre : MergePrefix (g.node n) (g.controlIn n).length now := ⟨by omega, by omega⟩
  have henter : ∀ srcDead, data true true srcDead ∉ now := by
    intro srcDead hmem
    exact (forall_arrival hlt (P := (· ≠ data true true srcDead))).mpr
      ⟨fun _ _ _ => nofun, fun _ _ _ => nofun⟩ _ hmem rfl
  rw [initialCounts, hmax, merge_arrivals hmerge hfits.1 (by omega)
    (hg.merge_pos n hn hmerge) _ hpre henter]
  have hcontrols : now.countP isControl = (g.controlIn n).length ↔
      ∀ m ∈ g.controlIn n, m ∈ done := by
    rw [← countP_control_remaining noValue dead, ← hlater]
    omega
  have hlive : 0 < now.countP isLive ↔
      ∃ p ∈ g.dataIn n, p.1 ∈ done ∧ noValue p.1 (dead p.1) p.2.outputSlot = false :=
    countP_isLive_pos hlt
  have hall : now.countP isDeadData = (g.node n).numInputs ↔
      ∀ p ∈ g.dataIn n, p.1 ∈ done ∧ noValue p.1 (dead p.1) p.2.outputSlot = true := by
    rw [show now.countP isDeadData = (g.node n).numInputs ↔ ¬0 < now.countP isLive ∧
      later.countP isLive + later.countP isDeadData = 0 by omega, hlater,
      countP_data_remaining noValue dead, hlive]
    refine ⟨fun h p hp => ⟨h.2 p hp, ?_⟩, fun h => ⟨fun hex => ?_, fun p hp => (h p hp).1⟩⟩
    · by_contra hvalue
      exact h.1 ⟨p, hp, h.2 p hp, by simpa using hvalue⟩
    · obtain ⟨p, hp, -, hvalue⟩ := hex
      exact absurd ((h p hp).2.symm.trans hvalue) (by simp)
  have hrule : dead n = (g.dataIn n).all fun p => noValue p.1 (dead p.1) p.2.outputSlot := by
    rw [hdead, deadRule, show (g.node n).kind = .merge from of_decide_eq_true hmerge]
  have hready : (now.countP isControl = (g.controlIn n).length ∧
      (0 < now.countP isLive ∨ now.countP isDeadData = (g.node n).numInputs)) ↔
        ReadyAfter g noValue dead n done := by
    rw [ReadyAfter, if_pos hmerge, hcontrols, hlive, hall]
  by_cases h : ReadyAfter g noValue dead n done
  · rw [if_pos (hready.mpr h), if_pos h]
    rcases (hready.mpr h).2 with hpos | hdd
    · obtain ⟨p, hp, -, hvalue⟩ := hlive.mp hpos
      rw [hrule, all_eq_false.mpr ⟨p, hp, by simp [hvalue]⟩,
        decide_eq_false hpos.ne']
    · rw [hrule, all_eq_true.mpr (fun p hp => (hall.mp hdd p hp).2),
        decide_eq_true (by omega)]
  · rw [if_neg (fun h' => h (hready.mp h')), if_neg h]

/-- The arrivals from completed nodes put `n` into the ready queue once if its rule
is met and never otherwise. -/
theorem flags_of_done :
    (arriveAll (g.node n) (g.initialCounts n, []) (arrivalsOf g noValue dead n done)).2 =
      if ReadyAfter g noValue dead n done ∧ g.numInEdges n ≠ 0 then [dead n] else [] := by
  cases hmerge : (g.node n).isMerge with
  | false => exact flags_nonMerge hnodup hlt hg hdead hn hmerge
  | true =>
    have hpos := hg.merge_pos n hn hmerge
    have hinputs := hg.numInputs_eq n hn
    have hne : g.numInEdges n ≠ 0 := by
      rw [numInEdges]
      omega
    simp only [flags_merge hnodup hlt hg hdead hn hmerge, hne, ne_eq, not_false_eq_true, and_true]

omit hnodup hlt hg hdead hn in
theorem readyAfter_nil_iff : ReadyAfter g noValue dead n [] ↔ g.numInEdges n = 0 := by
  have hnil : ∀ {α : Type} {l : List α}, (∀ a ∈ l, False) ↔ l.length = 0 := by
    intro α l
    rw [← eq_nil_iff_forall_not_mem, length_eq_zero_iff]
  rw [ReadyAfter, numInEdges, Nat.add_eq_zero_iff]
  simp only [not_mem_nil, false_and, and_false, exists_false, false_or, hnil]
  split
  · exact and_comm
  · exact and_comm

omit hnodup hlt hg hdead hn in
theorem readyAfter_of_numInEdges (h : g.numInEdges n = 0) (done : List Nat) :
    ReadyAfter g noValue dead n done := by
  rw [numInEdges, Nat.add_eq_zero_iff, length_eq_zero_iff,
    length_eq_zero_iff] at h
  rw [ReadyAfter, h.1, h.2]
  simp

omit hnodup hlt hg hdead hn in
theorem readyAfter_of_edges (h : ∀ m, g.Edge m n → m ∈ done) :
    ReadyAfter g noValue dead n done := by
  have hcontrol : ∀ m ∈ g.controlIn n, m ∈ done := fun m hm => h m (edge_of_controlIn hm)
  have hdata : ∀ p ∈ g.dataIn n, p.1 ∈ done := fun p hp => h p.1 (edge_of_dataIn hp)
  rw [ReadyAfter]
  split
  · refine ⟨hcontrol, ?_⟩
    by_cases hlive : ∃ p ∈ g.dataIn n, p.1 ∈ done ∧
        noValue p.1 (dead p.1) p.2.outputSlot = false
    · exact .inl hlive
    · refine .inr (fun p hp => ⟨hdata p hp, ?_⟩)
      by_contra hvalue
      exact hlive ⟨p, hp, hdata p hp, by simpa using hvalue⟩
  · exact ⟨hcontrol, hdata⟩

end Arrivals
end TfReading.Executor
