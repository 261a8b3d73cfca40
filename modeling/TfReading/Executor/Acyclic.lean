import TfReading.Executor.Dataflow
import TfReading.Executor.Runs

/-!
# Runs on acyclic graphs

Without `Enter`, `Exit` and `NextIteration` nodes everything happens in iteration 0
of the root frame.  Whatever the order in which nodes complete, every node enters
the ready queue once, with a deadness that does not depend on the order.
-/

namespace TfReading.Executor

open Outcome FrameState TaggedNode IterReady
open List hiding beq_eq_decide

/-! ## The root frame -/

def rootFrame (g : Graph) (it : IterationState) : FrameState :=
  (FrameState.new g 1 0).setIteration 0 (some it)

theorem rootFrame_setIteration (g : Graph) (it it' : IterationState) :
    (rootFrame g it).setIteration 0 (some it') = rootFrame g it' := by
  simp only [rootFrame, setIteration, slot, new, Nat.zero_mod,
    Function.update_idem]

variable {g : Graph} {it : IterationState} {ts : List TaggedNode} {t : TaggedNode} {n : Nat}

theorem rootFrame_deref (hnum : it.iterNum = 0) :
    (rootFrame g it).deref 0 = .ok it := by
  rw [deref, show (rootFrame g it).getIteration 0 = some it from
    getIteration_setIteration_self ..]
  exact if_pos hnum

theorem rootFrame_cleanup (hnum : it.iterNum = 0)
    (hops : it.outstandingOps = 0) (hframes : it.outstandingFrameCount = 0) (fuel : Nat) :
    cleanupIterations g (fuel + 2) (rootFrame g it) 0 =
      .ok (true, (rootFrame g it).deleteIteration 0, []) := by
  have hdone : (rootFrame g it).isIterationDone it = true := by
    rw [isIterationDone, hops, hframes, hnum]
    rfl
  rw [cleanupIterations, if_pos (Nat.zero_le _),
    show (rootFrame g it).getIteration 0 = some it from
      getIteration_setIteration_self ..]
  simp only [hdone, if_true]
  rw [if_pos (show ((rootFrame g it).deleteIteration 0).nextIterRoots.isEmpty = true from rfl)]
  show (cleanupIterations g (fuel + 1) ((rootFrame g it).deleteIteration 0) 1 >>=
    fun r => .ok (r.1, r.2.1, [] ++ r.2.2)) = _
  rw [cleanupIterations, if_neg (show ¬1 ≤
    ((rootFrame g it).deleteIteration 0).iterationCount from Nat.not_succ_le_zero 0)]
  rfl

theorem rootFrame_adjust (hnum : it.iterNum = 0)
    (hframes : it.outstandingFrameCount = 0) (delta : Int) :
    ∃ f, adjustOutstandingOpsLocked g (rootFrame g it).fuel (rootFrame g it) 0 delta =
        .ok (decide (it.outstandingOps + delta = 0), f, []) ∧
      (rootFrame g it).adjustOutstandingOpsShared g 0 delta =
        .ok (decide (it.outstandingOps + delta = 0), f, []) ∧
      (it.outstandingOps + delta ≠ 0 →
        f = rootFrame g { it with outstandingOps := it.outstandingOps + delta }) := by
  have hderef : (rootFrame g it).deref 0 = .ok it := rootFrame_deref hnum
  rw [show (rootFrame g it).fuel = 11 + 1 from rfl, adjustOutstandingOpsLocked,
    adjustOutstandingOpsShared, adjustOutstandingOpsFastPath, hderef]
  simp only [bind, Except.bind, pure, Except.pure, rootFrame_setIteration]
  let it' : IterationState := { it with outstandingOps := it.outstandingOps + delta }
  by_cases hz : it.outstandingOps + delta = 0
  · have hdone : (rootFrame g it').isIterationDone it' = true := by
      rw [isIterationDone, show it'.outstandingOps = 0 from hz, hframes, hnum]
      rfl
    have hcleanup : ∀ fuel, cleanupIterations g (fuel + 2) (rootFrame g it') 0 =
        .ok (true, (rootFrame g it').deleteIteration 0, []) :=
      fun fuel => @rootFrame_cleanup g it' hnum hz hframes fuel
    refine ⟨(rootFrame g it').deleteIteration 0, ?_, ?_, fun h => absurd hz h⟩
    · rw [if_neg (by simpa using hz), decide_eq_true hz]
      exact hcleanup 9
    · rw [hdone, decide_eq_true hz, Bool.and_self, if_pos rfl]
      exact hcleanup 10
  · refine ⟨rootFrame g it', ?_, ?_, fun _ => rfl⟩
    · rw [if_pos hz, decide_eq_false hz]
    · rw [decide_eq_false hz, Bool.false_and]
      rfl

theorem rootFrame_complete (hnum : it.iterNum = 0)
    (hframes : it.outstandingFrameCount = 0) (item : NodeItem) (isDead : Bool)
    (outputs : List Entry) :
    let activated := it.activateNodes g item isDead outputs
    ∃ f, (rootFrame g it).activateNodesAndAdjustOutstanding g item isDead 0 outputs =
        .ok (decide (it.outstandingOps + (activated.2.length - 1) = 0), f,
          activated.2.map (mk 0)) ∧
      (it.outstandingOps + (activated.2.length - 1 : Int) ≠ 0 → f = rootFrame g
        { activated.1 with outstandingOps := it.outstandingOps + (activated.2.length - 1) }) := by
  dsimp only
  obtain ⟨hnum', hops', hframes'⟩ := it.activateNodes_keeps g item isDead outputs
  rw [activateNodesAndAdjustOutstanding,
    activateNodesLocked_eq (rootFrame_deref hnum), rootFrame_setIteration]
  generalize it.activateNodes g item isDead outputs = activated at *
  obtain ⟨f, hlocked, hshared, hf⟩ := rootFrame_adjust (hnum'.trans hnum)
    (hframes'.trans hframes) (activated.2.length - 1)
  rw [hops'] at hlocked hshared hf
  refine ⟨f, ?_, hf⟩
  simp only [bind, Except.bind, length_map]
  split
  · rw [hlocked]
    simp only [append_nil]
    rfl
  · rw [hshared]
    simp only [append_nil]
    rfl

theorem complete_eq (hg : g.Dag) {s : ExecState}
    (hframe : s.propagator.frames [] = some (rootFrame g it)) (hnum : it.iterNum = 0)
    (hframes : it.outstandingFrameCount = 0) (hroot : t.frame = [])
    (hiter : t.iterNum = 0) (outputs : List Entry) :
    let activated := it.activateNodes g (g.node t.nodeId) t.isDead outputs
    ∃ p, s.complete g t outputs = .ok ⟨p, s.running.erase t ++
        activated.2.map (fun r => (mk 0 r).tag [])⟩ ∧
      (it.outstandingOps + (activated.2.length - 1 : Int) ≠ 0 → p.frames [] = some (rootFrame g
        { activated.1 with
          outstandingOps := it.outstandingOps + (activated.2.length - 1) })) := by
  dsimp only
  obtain ⟨f, heq, hf⟩ := rootFrame_complete hnum hframes (g.node t.nodeId) t.isDead outputs
  generalize it.activateNodes g (g.node t.nodeId) t.isDead outputs = activated at *
  have hget : s.propagator.getFrame [] = .ok (rootFrame g it) := by
    rw [PropagatorState.getFrame, hframe]
  have hplain : s.propagator.propagateItem g t outputs = s.propagator.onFrame [] (fun f =>
      f.activateNodesAndAdjustOutstanding g (g.node t.nodeId) t.isDead 0 outputs) := by
    rw [PropagatorState.propagateItem, hroot, hiter]
    rcases hg.plain t.nodeId with hkind | hkind | hkind <;> simp only [hkind]
  have hdelete : ((s.propagator.setFrame [] (some f)).frameDone g []) =
      .ok ((s.propagator.setFrame [] (some f)).setFrame [] none, []) := by
    rw [PropagatorState.frameDone, PropagatorState.deleteFrame, PropagatorState.getFrame,
      PropagatorState.setFrame_self]
    rfl
  rw [ExecState.complete, PropagatorState.propagateOutputs, hplain, PropagatorState.onFrame, hget]
  simp only [bind, Except.bind, pure, Except.pure, heq, hroot]
  by_cases hz : it.outstandingOps + (activated.2.length - 1 : Int) = 0
  · refine ⟨(s.propagator.setFrame [] (some f)).setFrame [] none, ?_, fun h => absurd hz h⟩
    simp only [hz, decide_true, if_true, hdelete, append_nil, map_map]
    rfl
  · refine ⟨s.propagator.setFrame [] (some f), ?_, fun _ => ?_⟩
    · simp only [hz, decide_false, Bool.false_eq_true, if_false, map_map]
      rfl
    · rw [PropagatorState.setFrame_self, hf hz]

/-! ## Histories -/

structure History where
  exec : ExecState
  completed : List TaggedNode

namespace History

def entered (h : History) : List TaggedNode := h.completed ++ h.exec.running

def done (h : History) : List Nat := h.completed.map TaggedNode.nodeId

end History

def Follows (g : Graph) (noValue : Kernels) (t : TaggedNode) (outputs : List Entry) : Prop :=
  ∀ e ∈ (g.node t.nodeId).outputEdges,
    (IterationState.output outputs e).isNoValue = noValue t.nodeId t.isDead e.outputSlot

def historySystem (g : Graph) (noValue : Kernels) : System History (TaggedNode × List Entry) where
  init h := ExecState.init g = .ok h.exec ∧ h.completed = []
  step h a h' := a.1 ∈ h.exec.running ∧ Follows g noValue a.1 a.2 ∧
    h.exec.complete g a.1 a.2 = .ok h'.exec ∧ h'.completed = h.completed ++ [a.1]

def flagsIn (n : Nat) (ts : List TaggedNode) : List Bool :=
  (ts.filter (fun t => t.nodeId = n)).map TaggedNode.isDead

theorem flagsIn_append (n : Nat) (xs ys : List TaggedNode) :
    flagsIn n (xs ++ ys) = flagsIn n xs ++ flagsIn n ys := by
  rw [flagsIn, filter_append, map_append, flagsIn, flagsIn]

theorem flagsIn_tag (n : Nat) (ready : List ReadyNode) :
    flagsIn n (ready.map (fun r => (mk 0 r).tag [])) =
      IterationState.flagsOf n ready := by
  rw [flagsIn, filter_map, map_map]
  rfl

theorem length_flagsIn (n : Nat) (ts : List TaggedNode) :
    (flagsIn n ts).length = (ts.map nodeId).count n := by
  rw [flagsIn, length_map, count, countP_map, countP_eq_length_filter]
  refine congrArg length (filter_congr (fun t _ => ?_))
  simp only [Function.comp_apply, beq_eq_decide]

theorem mem_flagsIn (h : t ∈ ts) :
    t.isDead ∈ flagsIn t.nodeId ts :=
  mem_map_of_mem (mem_filter.mpr ⟨h, decide_eq_true rfl⟩)

theorem flagsIn_ne_nil :
    flagsIn n ts ≠ [] ↔ n ∈ ts.map nodeId := by
  rw [← length_pos_iff, length_flagsIn, count_pos_iff]

theorem perm_ite {c : Prop} [Decidable c] {a : Bool} {xs : List Bool}
    (h : xs.Perm (if c then [a] else [])) : xs = if c then [a] else [] := by
  split at h
  next hc => rw [if_pos hc, perm_singleton.mp h]
  next hc => rw [if_neg hc, perm_nil.mp h]

/-! ## The invariant of a run -/

/-- Exactly the nodes whose rule is met have entered the ready queue, and the counts
of the root frame are those of the arrivals so far. -/
structure RunInv (g : Graph) (noValue : Kernels) (dead : Nat → Bool) (h : History) : Prop where
  flags : ∀ n, flagsIn n h.entered =
    if n < g.numNodes ∧ ReadyAfter g noValue dead n h.done then [dead n] else []
  root : ∀ t ∈ h.exec.running, t.frame = [] ∧ t.iterNum = 0
  frame : h.exec.running ≠ [] → ∃ it, h.exec.propagator.frames [] = some (rootFrame g it) ∧
    it.iterNum = 0 ∧ it.outstandingFrameCount = 0 ∧
    it.outstandingOps = h.exec.running.length ∧
    ∀ n < g.numNodes, it.counts n = (arriveAll (g.node n) (g.initialCounts n, [])
      (arrivalsOf g noValue dead n h.done)).1

namespace RunInv

variable {g : Graph} {noValue : Kernels} {dead : Nat → Bool} {h : History}
  (hinv : RunInv g noValue dead h)

include hinv

theorem length_flags_le (n : Nat) :
    (flagsIn n h.entered).length ≤ 1 := by
  rw [hinv.flags n]
  split
  · exact le_rfl
  · exact Nat.zero_le 1

theorem nodup : h.done.Nodup := by
  rw [nodup_iff_count_le_one]
  intro n
  have hle := hinv.length_flags_le n
  rw [History.entered, flagsIn_append, length_append] at hle
  rw [History.done, ← length_flagsIn]
  omega

variable {t : TaggedNode}

theorem of_entered (ht : t ∈ h.entered) :
    t.nodeId < g.numNodes ∧ t.isDead = dead t.nodeId := by
  have hmem := mem_flagsIn ht
  rw [hinv.flags] at hmem
  split at hmem
  next hready => exact ⟨hready.1, mem_singleton.mp hmem⟩
  next => exact absurd hmem not_mem_nil

theorem done_lt : ∀ m ∈ h.done, m < g.numNodes := by
  intro m hm
  obtain ⟨t, ht, rfl⟩ := mem_map.mp hm
  exact (hinv.of_entered (mem_append_left _ ht)).1

theorem not_done_of_running (ht : t ∈ h.exec.running) : t.nodeId ∉ h.done := by
  intro hdone
  have hle := hinv.length_flags_le t.nodeId
  have h₁ := length_pos_iff.mpr (flagsIn_ne_nil.mpr hdone)
  have h₂ := length_pos_of_mem (mem_flagsIn ht)
  rw [History.entered, flagsIn_append, length_append] at hle
  omega

variable {outputs : List Entry} (hg : g.Dag) (ht : t ∈ h.exec.running)
  (hfollows : Follows g noValue t outputs)

include hg ht hfollows

theorem arrivals_of_complete (n : Nat) :
    IterationState.arrivalsTo n (messages (g.node t.nodeId) t.isDead outputs) =
      arrivalsFrom g noValue dead n t.nodeId := by
  have henter : (g.node t.nodeId).isEnter = false := by
    rcases hg.plain t.nodeId with hkind | hkind | hkind <;> rw [NodeItem.isEnter, hkind]
  have hdead := (hinv.of_entered (mem_append_right _ ht)).2
  rw [IterationState.arrivalsTo_messages, arrivalsFrom, ← hdead, henter]
  refine congrArg (· ++ _) (map_congr_left (fun e he => ?_))
  rw [hfollows e (mem_filter.mp he).1]

theorem flags_step (hdead : ∀ n, dead n = g.deadRule noValue n dead)
    (hcounts : ∀ n < g.numNodes, it.counts n = (arriveAll (g.node n) (g.initialCounts n, [])
      (arrivalsOf g noValue dead n h.done)).1) (n : Nat) :
    flagsIn n h.entered ++ IterationState.flagsOf n
        (it.activateNodes g (g.node t.nodeId) t.isDead outputs).2 =
      if n < g.numNodes ∧ ReadyAfter g noValue dead n (h.done ++ [t.nodeId]) then
        [dead n] else [] := by
  have htlt := (hinv.of_entered (mem_append_right _ ht)).1
  rw [hinv.flags, (IterationState.activateNodes_node g n _ _ _ it).2,
    hinv.arrivals_of_complete hg ht hfollows]
  by_cases hn : n < g.numNodes
  · have hnodup : (h.done ++ [t.nodeId]).Nodup :=
      hinv.nodup.append (nodup_singleton _) (by
        simpa using hinv.not_done_of_running ht)
    have hlt : ∀ m ∈ h.done ++ [t.nodeId], m < g.numNodes := by
      intro m hm
      rcases mem_append.mp hm with hm | hm
      · exact hinv.done_lt m hm
      · exact mem_singleton.mp hm ▸ htlt
    have hbefore := flags_of_done hinv.nodup hinv.done_lt hg (hdead n) hn
    have hafter := flags_of_done hnodup hlt hg (hdead n) hn
    rw [arrivalsOf_append, arriveAll_append, arriveAll_flags, hbefore, ← hcounts n hn,
      show arrivalsOf g noValue dead n [t.nodeId] = arrivalsFrom g noValue dead n t.nodeId from
        flatMap_singleton _ _] at hafter
    generalize (arriveAll (g.node n) (it.counts n, [])
      (arrivalsFrom g noValue dead n t.nodeId)).2 = new at *
    by_cases hz : g.numInEdges n = 0
    · rw [if_neg (fun h => h.2 hz), if_neg (fun h => h.2 hz), nil_append] at hafter
      have hnew : new = [] := hafter
      rw [if_pos ⟨hn, readyAfter_of_numInEdges hz _⟩, if_pos ⟨hn, readyAfter_of_numInEdges hz _⟩,
        hnew]
      rfl
    · simp only [hz, ne_eq, not_false_eq_true, and_true] at hafter
      simp only [hn, true_and, hafter]
  · have hnone : arrivalsFrom g noValue dead n t.nodeId = [] := by
      have hno : ∀ m, ¬g.Edge m n := fun m hm => hn (hg.consumer_lt m n hm)
      rw [← flatMap_singleton (arrivalsFrom g noValue dead n), eq_nil_iff_forall_not_mem]
      exact (forall_arrival (by simpa using htlt)).mpr
        ⟨fun p hp _ => hno p.1 (Graph.edge_of_dataIn hp), fun m hm _ => hno m (Graph.edge_of_controlIn hm)⟩
    rw [hnone, if_neg (fun h => hn h.1), if_neg (fun h => hn h.1)]
    rfl

theorem step (hdead : ∀ n, dead n = g.deadRule noValue n dead) :
    ∃ s, h.exec.complete g t outputs = .ok s ∧
      RunInv g noValue dead ⟨s, h.completed ++ [t]⟩ := by
  obtain ⟨it, hframe, hnum, hframes, hops, hcounts⟩ := hinv.frame (ne_nil_of_mem ht)
  obtain ⟨hroot, hiter⟩ := hinv.root t ht
  obtain ⟨p, hcomplete, hp⟩ := complete_eq hg hframe hnum hframes hroot hiter outputs
  have hflags := hinv.flags_step hg ht hfollows hdead hcounts
  have hnode := fun n => IterationState.activateNodes_node g n (g.node t.nodeId) t.isDead outputs it
  have hkeeps := it.activateNodes_keeps g (g.node t.nodeId) t.isDead outputs
  have harrivals := hinv.arrivals_of_complete hg ht hfollows
  generalize it.activateNodes g (g.node t.nodeId) t.isDead outputs = activated at *
  set ready := activated.2.map (fun r => (IterReady.mk 0 r).tag [])
  have hlength : ((h.exec.running.erase t ++ ready).length : Int) =
      it.outstandingOps + ((activated.2.length : Int) - 1) := by
    have hpos := length_pos_of_mem ht
    have hready : ready.length = activated.2.length := length_map _
    rw [length_append, hready, length_erase_of_mem ht, hops]
    omega
  have hdone : History.done ⟨⟨p, h.exec.running.erase t ++ ready⟩, h.completed ++ [t]⟩ =
      h.done ++ [t.nodeId] := map_append
  refine ⟨_, hcomplete, ⟨fun n => ?_, fun t' ht' => ?_, fun hne => ?_⟩⟩
  · have hperm : (h.completed ++ [t] ++ (h.exec.running.erase t ++ ready)).Perm
        (h.entered ++ ready) := by
      rw [History.entered, append_assoc, append_assoc]
      exact ((perm_cons_erase ht).symm.append_right _).append_left _
    have hflagsPerm : (flagsIn n _).Perm (flagsIn n _) := (hperm.filter _).map _
    rw [flagsIn_append n h.entered, flagsIn_tag, hflags n] at hflagsPerm
    rw [hdone]
    exact perm_ite hflagsPerm
  · rcases mem_append.mp ht' with ht' | ht'
    · exact hinv.root t' (mem_of_mem_erase ht')
    · obtain ⟨r, -, rfl⟩ := mem_map.mp ht'
      exact ⟨rfl, rfl⟩
  · have hpos : 0 < (h.exec.running.erase t ++ ready).length := length_pos_iff.mpr hne
    refine ⟨_, hp (by omega), hkeeps.1.trans hnum, hkeeps.2.2.trans hframes, hlength.symm,
      fun n hn => ?_⟩
    rw [hdone, arrivalsOf_append, arriveAll_append, arriveAll_flags, ← hcounts n hn,
      show arrivalsOf g noValue dead n [t.nodeId] = arrivalsFrom g noValue dead n t.nodeId from
        flatMap_singleton _ _, ← harrivals n]
    exact (hnode n).1

end RunInv

theorem flagsIn_roots (ns : List Nat) (n : Nat) :
    flagsIn n (ns.map (fun n => mk [] 0 n false)) =
      replicate (ns.count n) false := by
  rw [eq_replicate_iff]
  refine ⟨?_, fun b hb => ?_⟩
  · rw [length_flagsIn, map_map]
    exact congrArg (count n) (map_id ns)
  · obtain ⟨t, ht, rfl⟩ := mem_map.mp hb
    obtain ⟨m, -, rfl⟩ := mem_map.mp (mem_filter.mp ht).1
    rfl

variable {dead : Nat → Bool} {noValue : Kernels} {h : History}

theorem dead_eq_false_of_root (hg : g.Dag)
    (hdead : ∀ n, dead n = g.deadRule noValue n dead) (hn : n < g.numNodes)
    (hz : g.numInEdges n = 0) : dead n = false := by
  rw [Graph.numInEdges, Nat.add_eq_zero_iff, length_eq_zero_iff,
    length_eq_zero_iff] at hz
  rw [hdead, Graph.deadRule, hz.1, hz.2]
  split
  next hkind =>
    have hpos := hg.merge_pos n hn (decide_eq_true hkind)
    rw [hg.numInputs_eq n hn, hz.1] at hpos
    exact absurd hpos (lt_irrefl 0)
  next => rfl
  next => rfl

theorem runInv_init (hg : g.Dag) (hdead : ∀ n, dead n = g.deadRule noValue n dead)
    (hinit : (historySystem g noValue).init h) : RunInv g noValue dead h := by
  obtain ⟨hexec, hcompleted⟩ := hinit
  have hrun : h.exec.running = g.rootNodes.map (fun n => .mk [] 0 n false) := by
    rw [← Except.ok.inj hexec]
  have hdone : h.done = [] := by rw [History.done, hcompleted]; rfl
  refine ⟨fun n => ?_, fun t ht => ?_, fun _ => ?_⟩
  · have hcount : g.rootNodes.count n =
        if n < g.numNodes ∧ g.numInEdges n = 0 then 1 else 0 := by
      rw [Graph.rootNodes, (nodup_range.filter _).count]
      simp only [mem_filter, mem_range, decide_eq_true_eq]
    rw [History.entered, hcompleted, nil_append, hrun, flagsIn_roots, hcount, hdone]
    by_cases hn : n < g.numNodes ∧ g.numInEdges n = 0
    · rw [if_pos hn, if_pos ⟨hn.1, readyAfter_nil_iff.mpr hn.2⟩,
        dead_eq_false_of_root hg hdead hn.1 hn.2]
      rfl
    · rw [if_neg hn, if_neg (fun h => hn ⟨h.1, readyAfter_nil_iff.mp h.2⟩)]
      rfl
  · rw [hrun] at ht
    obtain ⟨n, -, rfl⟩ := mem_map.mp ht
    exact ⟨rfl, rfl⟩
  · refine ⟨{ IterationState.new g 0 with outstandingOps := (g.rootNodes.map
      (fun n => mk [] 0 n false)).length }, ?_, rfl, rfl, ?_, fun n _ => ?_⟩
    · rw [← Except.ok.inj hexec, PropagatorState.setFrame_self]
      rfl
    · rw [hrun]
    · rw [hdone]
      rfl

theorem runInv_of_reachable (hg : g.Dag)
    (hdead : ∀ n, dead n = g.deadRule noValue n dead)
    (hreach : (historySystem g noValue).Reachable h) : RunInv g noValue dead h := by
  refine hreach.invariant (fun h hinit => runInv_init hg hdead hinit)
    (fun h a h' hinv hstep => ?_)
  obtain ⟨ht, hfollows, hcomplete, hcompleted⟩ := hstep
  obtain ⟨s, hs, hinv'⟩ := hinv.step hg ht hfollows hdead
  have hexec : h'.exec = s := Except.ok.inj (hcomplete.symm.trans hs)
  rw [← hexec, ← hcompleted] at hinv'
  exact hinv'

/-- When nothing is ready or running every node has completed.  The induction is along
the edges of the graph. -/
theorem RunInv.all_done (hg : g.Dag)
    (hinv : RunInv g noValue dead h) (hquiet : h.exec.running = []) (n : Nat) :
    n < g.numNodes → n ∈ h.done := by
  induction n using hg.wellFounded.induction with
  | _ n ih =>
    intro hn
    have hready : ReadyAfter g noValue dead n h.done :=
      readyAfter_of_edges (fun m hm => ih m hm hm.1)
    have hflags := hinv.flags n
    rw [if_pos ⟨hn, hready⟩, History.entered, hquiet, append_nil] at hflags
    exact flagsIn_ne_nil.mp (by rw [hflags]; simp)

/-! ## Order independence -/

/-- In every run on an acyclic graph a node enters the ready queue at most once, with a
deadness given by the rules alone.  No completion faults, and when nothing is left to
complete every node has entered.  A merge enters only after all its control inputs and
a live data input, or all data inputs dead. -/
theorem readiness_order_independent (g : Graph) (hg : g.Dag) (noValue : Kernels) :
    ∃ dead : Nat → Bool, (∀ n, dead n = g.deadRule noValue n dead) ∧
      ∀ h, (historySystem g noValue).Reachable h →
        (∀ n, flagsIn n h.entered = [] ∨ flagsIn n h.entered = [dead n]) ∧
        (∀ t ∈ h.exec.running, ∀ outputs, Follows g noValue t outputs →
          ∃ s, h.exec.complete g t outputs = .ok s) ∧
        h.completed.length ≤ g.numNodes ∧
        (h.exec.running = [] → ∀ n < g.numNodes, flagsIn n h.entered = [dead n]) ∧
        (∀ n, (g.node n).isMerge = true → flagsIn n h.entered ≠ [] →
          (∀ m ∈ g.controlIn n, m ∈ h.done) ∧
          ((∃ p ∈ g.dataIn n, p.1 ∈ h.done ∧ noValue p.1 (dead p.1) p.2.outputSlot = false) ∨
            ∀ p ∈ g.dataIn n, p.1 ∈ h.done ∧
              noValue p.1 (dead p.1) p.2.outputSlot = true)) := by
  obtain ⟨dead, hdead⟩ := hg.exists_deadness noValue
  refine ⟨dead, hdead, fun h hreach => ?_⟩
  have hinv := runInv_of_reachable hg hdead hreach
  refine ⟨fun n => ?_, fun t ht outputs hfollows => ?_, ?_, fun hquiet n hn => ?_,
    fun n hmerge hne => ?_⟩
  · rw [hinv.flags n]
    split
    · exact .inr rfl
    · exact .inl rfl
  · obtain ⟨s, hs, -⟩ := hinv.step hg ht hfollows hdead
    exact ⟨s, hs⟩
  · have hsub : h.done ⊆ range g.numNodes :=
      fun m hm => mem_range.mpr (hinv.done_lt m hm)
    have hle := (subperm_of_subset hinv.nodup hsub).length_le
    rw [length_range, History.done, length_map] at hle
    exact hle
  · have hready : ReadyAfter g noValue dead n h.done :=
      readyAfter_of_edges (fun m hm => hinv.all_done hg hquiet m hm.1)
    rw [hinv.flags n, if_pos ⟨hn, hready⟩]
  · rw [hinv.flags n] at hne
    split at hne
    next hready =>
      have hafter := hready.2
      rw [ReadyAfter, if_pos hmerge] at hafter
      exact hafter
    next => exact absurd rfl hne

/-- The switch 1 feeds the nodes 2 and 3, which the merge 4 joins.  The control trigger
5 waits for node 2. -/
def switchMerge : Graph where
  numNodes := 6
  node
    | 0 => ⟨.ordinary, 0, [⟨1, 0, 0⟩], []⟩
    | 1 => ⟨.ordinary, 1, [⟨2, 0, 1⟩, ⟨3, 1, 2⟩], []⟩
    | 2 => ⟨.ordinary, 1, [⟨4, 0, 3⟩], [5]⟩
    | 3 => ⟨.ordinary, 1, [⟨4, 0, 4⟩], []⟩
    | 4 => ⟨.merge, 2, [], []⟩
    | 5 => ⟨.controlTrigger, 0, [], []⟩
    | _ => ⟨.ordinary, 0, [], []⟩

/-- A dead node has no values, and the switch leaves its output 0 without one. -/
def takesOutput1 : Kernels := fun n isDead slot => isDead || (n == 1 && slot == 0)

theorem switchMerge_dag : switchMerge.Dag := by
  have hlt : ∀ m < 6, ∀ n ∈ (switchMerge.node m).consumers, m < n ∧ n < 6 := by decide
  refine ⟨fun n => ?_, fun m n hmn => (hlt m hmn.1 n hmn.2).2, by decide, by decide, by decide,
    fun n hcycle => ?_⟩
  · match n with
    | 0 | 1 | 2 | 3 | _ + 6 => exact .inl rfl
    | 4 => exact .inr (.inl rfl)
    | 5 => exact .inr (.inr rfl)
  · have hless : ∀ m, Relation.TransGen switchMerge.Edge n m → n < m := by
      intro m hm
      induction hm with
      | single h => exact (hlt _ h.1 _ h.2).1
      | tail _ h ih => exact lt_trans ih (hlt _ h.1 _ h.2).1
    exact lt_irrefl n (hless n hcycle)

/-- Only the branch that is not taken is dead, in every order. -/
theorem readiness_order_independent_switchMerge :
    ∃ dead : Nat → Bool, (dead 2 = true ∧ dead 3 = false ∧ dead 4 = false ∧ dead 5 = false) ∧
      ∀ h, (historySystem switchMerge takesOutput1).Reachable h → h.exec.running = [] →
        ∀ n < 6, flagsIn n h.entered = [dead n] := by
  obtain ⟨dead, hdead, hruns⟩ :=
    readiness_order_independent switchMerge switchMerge_dag takesOutput1
  have h0 : dead 0 = false := hdead 0
  have h1 : dead 1 = false := by
    rw [hdead 1]
    show ((dead 0 || takesOutput1 0 (dead 0) 0) || false || false) = false
    rw [h0]
    rfl
  have h2 : dead 2 = true := by
    rw [hdead 2]
    show ((dead 1 || takesOutput1 1 (dead 1) 0) || false || false) = true
    rw [h1]
    rfl
  have h3 : dead 3 = false := by
    rw [hdead 3]
    show ((dead 1 || takesOutput1 1 (dead 1) 1) || false || false) = false
    rw [h1]
    rfl
  have h4 : dead 4 = false := by
    rw [hdead 4]
    show (takesOutput1 2 (dead 2) 0 && (takesOutput1 3 (dead 3) 0 && true)) = false
    rw [h2, h3]
    rfl
  have h5 : dead 5 = false := hdead 5
  exact ⟨dead, ⟨h2, h3, h4, h5⟩, fun h hreach => (hruns h hreach).2.2.2.1⟩

end TfReading.Executor
