import TfReading.Executor.Iterations
import TfReading.Executor.Propagator

/-!
# A loop on an untaken branch

A dead `Enter` makes a merge of the loop dead although the `NextIteration` input
of the merge never arrives in iteration 0.  The rule is applied where a data edge
arrives.  The control-edge branch tests the dead count alone, so the order of the
arrivals decides whether the merge becomes ready.
-/

namespace TfReading.Executor

open List IterationState Arrival

structure Activation where
  item : NodeItem
  isDead : Bool
  outputs : List Entry

def activateAll (g : Graph) (it : IterationState) (calls : List Activation) :
    IterationState × List ReadyNode :=
  calls.foldl (fun s c =>
    ((s.1.activateNodes g c.item c.isDead c.outputs).1,
      s.2 ++ (s.1.activateNodes g c.item c.isDead c.outputs).2)) (it, [])

def arrivalsAt (n : Nat) (calls : List Activation) : List Arrival :=
  calls.flatMap (fun c => IterationState.arrivalsTo n (messages c.item c.isDead c.outputs))

theorem activateAll_eq (g : Graph) (n : Nat) (it : IterationState) (calls : List Activation) :
    ((activateAll g it calls).1.counts n, flagsOf n (activateAll g it calls).2) =
      arriveAll (g.node n) (it.counts n, []) (arrivalsAt n calls) := by
  induction calls using reverseRecOn with
  | nil => rfl
  | append_singleton calls c ih =>
    obtain ⟨hcounts, hflags⟩ := Prod.ext_iff.mp ih
    have hnode := activateNodes_node g n c.item c.isDead c.outputs
      (activateAll g it calls).1
    have harr : arrivalsAt n (calls ++ [c]) = arrivalsAt n calls ++
        arrivalsTo n (messages c.item c.isDead c.outputs) := by
      rw [arrivalsAt, flatMap_append, flatMap_singleton, arrivalsAt]
    rw [activateAll, foldl_append, harr, arriveAll_append, arriveAll_flags, ← hcounts, ← hflags]
    exact Prod.ext hnode.1 ((flagsOf_append ..).trans (congrArg _ hnode.2))

/-! ## The calls of the propagator -/

/-- A frame that waits for inputs keeps iteration 0. -/
theorem adjust_waiting (g : Graph) {f : FrameState} {it : IterationState} (hd : f.deref 0 = .ok it)
    (hnum : it.iterNum = 0) (hpending : f.numPendingInputs ≠ 0) (delta : Int) :
    ∃ done it', FrameState.adjustOutstandingOpsLocked g f.fuel f 0 delta =
      .ok (done, f.setIteration 0 (some it'), []) ∧ it'.counts = it.counts := by
  rw [FrameState.fuel, FrameState.adjustOutstandingOpsLocked_succ hd]
  split
  · exact ⟨_, _, rfl, rfl⟩
  · rw [FrameState.cleanupIterations, if_pos (Nat.zero_le _),
      FrameState.getIteration_setIteration_self]
    refine ⟨_, _, if_neg (ne_true_of_eq_false ?_), rfl⟩
    simp [FrameState.isIterationDone, hnum, FrameState.setIteration, hpending]

/-- An `Enter` that is not constant is an activation in iteration 0 of its frame. -/
theorem enter_eq (g : Graph) {f : FrameState} {it : IterationState} (hd : f.deref 0 = .ok it)
    (hnum : it.iterNum = 0) (hpending : f.numPendingInputs ≠ 0) (c : Activation) :
    ∃ f' it', FrameState.enter g c.item false c.isDead c.outputs f =
        .ok ((), f', (it.activateNodes g c.item c.isDead c.outputs).2.map (IterReady.mk 0)) ∧
      f'.getIteration 0 = some it' ∧
      it'.counts = (it.activateNodes g c.item c.isDead c.outputs).1.counts := by
  have hsame := (it.activateNodes_keeps g c.item c.isDead c.outputs).1.trans hnum
  rw [FrameState.enter, if_neg Bool.false_ne_true, FrameState.activateAndAdjust,
    FrameState.activateNodesLocked_eq hd]
  generalize it.activateNodes g c.item c.isDead c.outputs = r at hsame ⊢
  have hd1 : (f.setIteration 0 (some r.1)).deref 0 = .ok r.1 := by
    rw [FrameState.deref, FrameState.getIteration_setIteration_self]
    exact if_pos hsame
  obtain ⟨done, it', hadjust, hcounts⟩ :=
    adjust_waiting g hd1 hsame hpending (r.2.map (IterReady.mk 0)).length
  dsimp only [Bind.bind, Except.bind]
  rw [hadjust]
  dsimp only [pure, Except.pure]
  rw [append_nil]
  refine ⟨_, it', rfl, ?_, hcounts⟩
  simp [FrameState.getIteration, FrameState.setIteration, FrameState.slot]

theorem deadExitStep_node {g : Graph} {n : Nat} {deliver : NodeItem → Counts → Delivery}
    {a : Arrival} (ha : deliver (g.node n) = (arrive (g.node n) · a)) (ds : List Nat)
    (s : IterationState × List ReadyNode) :
    ((ds.foldl (deadExitStep g deliver) s).1.counts n,
        flagsOf n (ds.foldl (deadExitStep g deliver) s).2) =
      arriveAll (g.node n) (s.1.counts n, flagsOf n s.2)
        ((ds.filter (fun d => d = n)).map (fun _ => a)) := by
  induction ds generalizing s with
  | nil => rfl
  | cons d ds ih =>
    rw [foldl_cons, ih]
    by_cases hd : d = n
    · subst hd
      rw [filter_cons_of_pos (by simp), map_cons]
      refine congrArg (arriveAll (g.node d) · _) ?_
      rw [deadExitStep, arriveOne, ha]
      dsimp only
      split
      · simp [flagsOf, receive, readyFlag]
      · simp [receive]
    · rw [filter_cons_of_neg (by simpa using hd), deadExitStep]
      dsimp only
      split
      · simp [flagsOf, receive, hd, Ne.symm hd]
      · simp [receive, Ne.symm hd]

/-- At a merge the dead exits of a deleted child frame arrive as activations do. -/
theorem deadExits_eq (g : Graph) (n : Nat) (hmerge : (g.node n).isMerge = true)
    (exits : List NodeItem) (hexits : ∀ item ∈ exits, item.isEnter = false)
    (s : IterationState × List ReadyNode) :
    let r := exits.foldl (propagateDeadExit g) s
    (r.1.counts n, flagsOf n r.2) = arriveAll (g.node n) (s.1.counts n, flagsOf n s.2)
      (arrivalsAt n (exits.map fun item => ⟨item, true, []⟩)) := by
  induction exits generalizing s with
  | nil => rfl
  | cons item exits ih =>
    obtain ⟨hitem, hrest⟩ := forall_mem_cons.mp hexits
    have hdata : deadExitData (g.node n) = (arrive (g.node n) · (.data false true true)) := by
      funext c
      simp [deadExitData, arrive, mergeData, hmerge]
    have hcontrol : deadExitControl (g.node n) = (arrive (g.node n) · (.control true)) := by
      funext c
      simp [deadExitControl, arrive, hmerge]
    have hfirst : ((propagateDeadExit g s item).1.counts n, flagsOf n (propagateDeadExit g s item).2) =
        arriveAll (g.node n) (s.1.counts n, flagsOf n s.2)
          (arrivalsTo n (messages item true [])) := by
      rw [propagateDeadExit, deadExitStep_node hcontrol, deadExitStep_node hdata,
        ← arriveAll_append, arrivalsTo_messages, hitem, filter_map, map_map]
      rfl
    rw [foldl_cons]
    refine (ih hrest _).trans ?_
    rw [hfirst, ← arriveAll_append]
    rfl

/-! ## Arrival orders -/

def Arrival.isFromEnter : Arrival → Bool
  | .data fromEnter _ _ => fromEnter
  | .control _ => false

/-- The number of `Enter` edges that arrive when none of the `missing` control
edges is missing any more. -/
def lateEnters (missing : Nat) : List Arrival → Nat
  | [] => 0
  | .control _ :: as => lateEnters (missing - 1) as
  | .data fromEnter _ _ :: as =>
    (if missing = 0 ∧ fromEnter = true then 1 else 0) + lateEnters missing as

theorem lateEnters_snoc (missing : Nat) (as : List Arrival) (a : Arrival) :
    lateEnters missing (as ++ [a]) = lateEnters missing as +
      if missing - as.countP isControl = 0 ∧ a.isFromEnter = true then 1 else 0 := by
  induction as generalizing missing with
  | nil =>
    cases a with
    | control => simp [lateEnters, isFromEnter]
    | data fromEnter =>
      by_cases h : missing = 0 ∧ fromEnter = true <;> simp [lateEnters, isFromEnter, h]
  | cons b as ih =>
    cases b with
    | control =>
      rw [cons_append, lateEnters, lateEnters, ih, countP_cons_of_pos rfl]
      rw [show missing - 1 - as.countP isControl =
        missing - (as.countP isControl + 1) by omega]
    | data =>
      rw [cons_append, lateEnters, lateEnters, ih,
        countP_cons_of_neg (by simp [isControl]), Nat.add_assoc]

def endsOutsideEnter (as : List Arrival) : Bool :=
  match as.getLast? with
  | some a => !a.isFromEnter
  | none => false

/-- How often arrivals none of which is live put a merge into the ready queue:
once for each dead `Enter` after the last control edge, and once more if all inputs
are dead and the last arrival is not an `Enter`. -/
def deadMergeEvents (controls numInputs : Nat) (as : List Arrival) : Nat :=
  lateEnters controls as +
    if as.length = controls + numInputs ∧ endsOutsideEnter as = true then 1 else 0

theorem endsOutsideEnter_snoc (as : List Arrival) (a : Arrival) :
    endsOutsideEnter (as ++ [a]) = !a.isFromEnter := by
  rw [endsOutsideEnter, getLast?_concat]

theorem lateEnters_pos {controls : Nat} {as : List Arrival} (hne : as ≠ [])
    (hctl : as.countP isControl = controls) (hlast : endsOutsideEnter as = false) :
    0 < lateEnters controls as := by
  obtain ⟨bs, a, rfl⟩ := (eq_nil_or_concat' as).resolve_left hne
  rw [endsOutsideEnter_snoc, Bool.not_eq_false'] at hlast
  have hcontrol : a.isControl = false := by
    cases a with
    | data => rfl
    | control => exact absurd hlast (by simp [isFromEnter])
  rw [countP_append, countP_singleton, hcontrol] at hctl
  rw [lateEnters_snoc, if_pos ⟨by simp at hctl; omega, hlast⟩]
  exact Nat.succ_pos _

theorem replicate_event {k k' : Nat} {ready dead : Bool} {p : Prop} [Decidable p]
    (hready : ready = true ↔ p) (hdead : p → dead = true) (hk : k' = k + if p then 1 else 0) :
    (if ready = true then List.replicate k true ++ [dead] else List.replicate k true) =
      List.replicate k' true := by
  rw [hk, if_congr hready rfl rfl]
  split
  next h => rw [hdead h, replicate_succ']
  · rfl

section DeadMerge

variable {dst : NodeItem} (hdst : dst.isMerge = true) {controls : Nat} {big : Bool}
  (hp : 1 + 2 * controls < Counts.pendingModulus big)
  (hd : dst.numInputs < Counts.deadModulus big)

include hdst hp hd

/-- Every event of a merge that no live input reaches is dead. -/
theorem deadMerge_arrivals (hpos : 0 < dst.numInputs) (as : List Arrival)
    (hpre : MergePrefix dst controls as) (hlive : as.countP isLive = 0) :
    (arriveAll dst (.setInitialCount big (1 + 2 * controls), []) as).2 =
      List.replicate (deadMergeEvents controls dst.numInputs as) true := by
  have htrigger := not_trigger_of_merge hdst
  induction as using reverseRecOn with
  | nil =>
    rw [deadMergeEvents, if_neg (by simp; omega)]
    rfl
  | append_singleton as a ih =>
    have hcounts := merge_counts hdst hp hd as hpre.of_snoc []
    have hlive' : as.countP isLive = 0 := by
      rw [countP_append] at hlive; omega
    have hlen := length_eq_countP as
    have hc := hpre.control_le
    have hdata := hpre.data_le
    have hold : ¬(as.length = controls + dst.numInputs ∧ endsOutsideEnter as = true) := by
      have := length_eq_countP (as ++ [a])
      rw [length_append, length_singleton] at this
      omega
    rw [arriveAll_snoc, arriveOne, ih hpre.of_snoc hlive', readyFlag_eq, htrigger,
      Bool.not_false, Bool.true_and, deadMergeEvents, deadMergeEvents, if_neg hold,
      lateEnters_snoc, endsOutsideEnter_snoc, length_append, length_singleton]
    cases a with
    | data fromEnter noValue srcDead =>
      obtain rfl : noValue = true := by
        by_contra hne
        simp [isLive, Bool.eq_false_iff.mpr hne] at hlive
      obtain ⟨hready, hdead⟩ := hcounts.dead_ready hdst hp hd fromEnter srcDead hpre
      simp only [countP_snoc_dead] at hc hdata
      refine replicate_event hready (fun hr => hdead (hready.mpr hr)) ?_
      rw [Nat.add_assoc, show (data fromEnter true srcDead).isFromEnter = fromEnter from rfl]
      congr 1
      cases fromEnter with
      | false =>
        rw [if_neg (by simp), Nat.zero_add]
        simp only [hlive', Bool.false_eq_true, or_false, Bool.not_false, and_true, true_and]
        split_ifs <;> omega
      | true =>
        rw [if_neg (show ¬(_ ∧ (!true) = true) by simp), Nat.add_zero]
        simp only [hlive', or_true, and_true, true_and]
        split_ifs <;> omega
    | control srcDead =>
      obtain ⟨hready, hdead⟩ := hcounts.control_ready hdst hp srcDead hpre
      simp only [countP_snoc_control] at hc hdata
      refine replicate_event hready (fun hr => ?_) ?_
      · rw [hdead, decide_eq_true_eq]
        exact hr.2.resolve_left (by omega)
      · rw [Nat.add_assoc, show (control srcDead).isFromEnter = false from rfl, if_neg (by simp),
          Nat.zero_add]
        simp only [Bool.not_false, and_true]
        split_ifs <;> omega

end DeadMerge

/-! ## The merge of an untaken loop -/

/-- In iteration 0 a merge that a dead `Enter` and no live input reaches becomes
ready exactly once, and dead, in exactly the following orders: one `Enter` arrives
after the last control edge, unless a last arrival from elsewhere completes the
dead inputs; or none does and all inputs arrive dead. -/
theorem untaken_merge_ready_once_iff (g : Graph) (n : Nat) (hmerge : (g.node n).isMerge = true)
    (hinputs : (g.node n).numInputs = (g.dataIn n).length) (hin : g.numInEdges n < 2 ^ 31)
    (calls : List Activation)
    (hcontrol : (arrivalsAt n calls).countP Arrival.isControl = (g.controlIn n).length)
    (hdata : (arrivalsAt n calls).countP Arrival.isDeadData ≤ (g.node n).numInputs)
    (hlive : (arrivalsAt n calls).countP Arrival.isLive = 0)
    (henter : ∃ srcDead, Arrival.data true true srcDead ∈ arrivalsAt n calls) :
    IterationState.flagsOf n (activateAll g (IterationState.new g 0) calls).2 = [true] ↔
      (lateEnters (g.controlIn n).length (arrivalsAt n calls) = 1 ∧
        ¬((arrivalsAt n calls).length = g.numInEdges n ∧
          endsOutsideEnter (arrivalsAt n calls) = true)) ∨
      (lateEnters (g.controlIn n).length (arrivalsAt n calls) = 0 ∧
        (arrivalsAt n calls).length = g.numInEdges n) := by
  obtain ⟨srcDead, hmem⟩ := henter
  have hpos : 0 < (g.node n).numInputs := by
    refine Nat.lt_of_lt_of_le (countP_pos_iff.mpr ⟨_, hmem, rfl⟩) hdata
  have hmax : g.maxPending n = 1 + 2 * (g.controlIn n).length := if_pos hmerge
  have hsum : g.numInEdges n = (g.controlIn n).length + (g.node n).numInputs := by
    rw [hinputs]; exact Nat.add_comm _ _
  have hpending : g.maxPending n < 2 ^ 32 := by omega
  have hfits := createHandle_fits hpending hin
  rw [hmax] at hfits
  have hflags := (Prod.ext_iff.mp (activateAll_eq g n (.new g 0) calls)).2
  have harr := deadMerge_arrivals hmerge hfits.1 (by omega) hpos (arrivalsAt n calls)
    ⟨Nat.le_of_eq hcontrol, by omega⟩ hlive
  have hinit : (IterationState.new g 0).counts n = .setInitialCount
      (createHandle (1 + 2 * (g.controlIn n).length) (g.numInEdges n))
      (1 + 2 * (g.controlIn n).length) := by rw [← hmax]; rfl
  simp only at hflags
  rw [hflags, hinit, harr, show ([true] : List Bool) = replicate 1 true from rfl,
    replicate_inj]
  have hlast : endsOutsideEnter (arrivalsAt n calls) = false →
      0 < lateEnters (g.controlIn n).length (arrivalsAt n calls) :=
    lateEnters_pos (ne_nil_of_mem hmem) hcontrol
  simp only [deadMergeEvents, hsum, or_true, and_true]
  by_cases hends : endsOutsideEnter (arrivalsAt n calls) = true
  · simp only [hends, and_true]
    split <;> omega
  · have := hlast (by simpa using hends)
    simp only [hends, Bool.false_eq_true, and_false, if_false, not_false_eq_true, and_true]
    omega

/-- Node 2 merges the `Enter` node 0 and the `NextIteration` node 3, and has a
control input from the `Enter` node 1 of the same loop. -/
def loopWithControl : Graph where
  numNodes := 4
  node
    | 0 => ⟨.enter false 1 1, 1, [⟨2, 0, 0⟩], []⟩
    | 1 => ⟨.enter false 1 1, 1, [], [2]⟩
    | 2 => ⟨.merge, 2, [], []⟩
    | 3 => ⟨.nextIteration, 1, [⟨2, 0, 1⟩], []⟩
    | _ => ⟨.ordinary, 0, [], []⟩

def deadEnter : Activation := ⟨loopWithControl.node 0, true, [.noValue]⟩

/-- The dead `Enter` that the control edge comes from. -/
def deadControl : Activation := ⟨loopWithControl.node 1, true, [.noValue]⟩

theorem untaken_merge_ready_once_enter_last :
    IterationState.flagsOf 2
      (activateAll loopWithControl (IterationState.new loopWithControl 0)
        [deadControl, deadEnter]).2 = [true] :=
  (untaken_merge_ready_once_iff loopWithControl 2 (by decide) (by decide) (by decide)
    [deadControl, deadEnter] (by decide) (by decide) (by decide) ⟨true, by decide⟩).mpr
      (.inl (by decide))

/-- When the dead `Enter` arrives before the control edge the merge is never put
into the ready queue. -/
theorem untaken_merge_never_ready :
    (loopWithControl.node 2).isMerge = true ∧
      arrivalsAt 2 [deadEnter, deadControl] = [.data true true true, .control true] ∧
      IterationState.flagsOf 2
        (activateAll loopWithControl (IterationState.new loopWithControl 0)
          [deadEnter, deadControl]).2 = [] := by
  decide

end TfReading.Executor
