import TfReading.Executor.Frames
import TfReading.Library.Runs

/-!
# Runs of the executor

A state is the propagator state with the nodes that are ready or running.  A step
completes any one of them with any outputs that its kernel may produce.
-/

namespace TfReading.Executor

open Outcome List Function PropagatorState

namespace PropagatorState

/-- A live `NextIteration` node in a frame with a single parallel iteration starts
a consumer. -/
def StartsNext (g : Graph) (s : PropagatorState) (t : TaggedNode) : Prop :=
  (g.node t.nodeId).isNextIteration = true → t.isDead = false →
    ∀ f, s.frames t.frame = some f → f.maxParallelIterations = 1 →
      g.startsConsumer (g.node t.nodeId) = true

end PropagatorState

/-- A live `NextIteration` node forwards its input. -/
def Admissible (g : Graph) (t : TaggedNode) (outputs : List Entry) : Prop :=
  (g.node t.nodeId).isNextIteration = true → t.isDead = false →
    (outputs.getD 0 .noValue).isNoValue = false

structure Graph.LoopsValid (g : Graph) : Prop where
  limit_pos : ∀ n isConstant frameName p, (g.node n).kind = .enter isConstant frameName p →
    1 ≤ g.parallelIterations frameName
  single_output : ∀ n, (g.node n).isNextIteration = true →
    ∀ e ∈ (g.node n).outputEdges, e.outputSlot = 0

variable {t : TaggedNode} {outputs : List Entry} {g : Graph}

theorem PropagatorState.serves_of_startsNext (hg : g.LoopsValid) {s : PropagatorState}
    (hadm : Admissible g t outputs)
    (hstarts : s.StartsNext g t) : s.Serves g False True t outputs where
  limit_pos _ _ _ hkind _ := hg.limit_pos _ _ _ _ hkind
  busy := False.elim
  starts _ hkind hdead f hf hone := by
    have hnext : (g.node t.nodeId).isNextIteration = true := decide_eq_true hkind
    exact ⟨hstarts hnext hdead f hf hone, hg.single_output _ hnext, hadm hnext hdead⟩

structure ExecState where
  propagator : PropagatorState
  running : List TaggedNode

namespace ExecState

def init (g : Graph) : Except Fault ExecState := do
  let (p, ready) ← (PropagatorState.new g).activateRoots g
  return ⟨p, ready⟩

def complete (g : Graph) (s : ExecState) (t : TaggedNode) (outputs : List Entry) :
    Except Fault ExecState := do
  let (p, ready) ← s.propagator.propagateOutputs g t outputs
  return ⟨p, s.running.erase t ++ ready⟩

def completeAll (g : Graph) (s : ExecState) : List (TaggedNode × List Entry) → Option ExecState
  | [] => some s
  | (t, outputs) :: rest =>
    if t ∈ s.running then
      match s.complete g t outputs with
      | .ok s' => s'.completeAll g rest
      | .error _ => none
    else none

def reached (g : Graph) (calls : List (TaggedNode × List Entry)) : Option ExecState :=
  match init g with
  | .ok s => s.completeAll g calls
  | .error _ => none

end ExecState

def system (g : Graph) (allowed : PropagatorState → TaggedNode → Prop) :
    System ExecState (TaggedNode × List Entry) where
  init s := ExecState.init g = .ok s
  step s a s' := a.1 ∈ s.running ∧ Admissible g a.1 a.2 ∧ allowed s.propagator a.1 ∧
    s.complete g a.1 a.2 = .ok s'

variable {allowed : PropagatorState → TaggedNode → Prop} {calls : List (TaggedNode × List Entry)}

theorem reachable_completeAll (hallowed : ∀ p t, allowed p t) {s s' : ExecState}
    (hs : (system g allowed).Reachable s)
    (hadm : ∀ c ∈ calls, Admissible g c.1 c.2) (h : s.completeAll g calls = some s') :
    (system g allowed).Reachable s' := by
  induction calls generalizing s with
  | nil =>
    obtain rfl := Option.some.inj h
    exact hs
  | cons c calls ih =>
    rw [ExecState.completeAll] at h
    split at h
    next hmem =>
      cases hc : s.complete g c.1 c.2 with
      | error => simp [hc] at h
      | ok =>
        simp only [hc] at h
        exact ih (.step hs ⟨hmem, hadm c mem_cons_self, hallowed _ _, hc⟩)
          (fun c' hc' => hadm c' (mem_cons_of_mem _ hc')) h
    next => cases h

theorem reachable_of_reached (hallowed : ∀ p t, allowed p t) {s : ExecState}
    (hadm : ∀ c ∈ calls, Admissible g c.1 c.2) (h : ExecState.reached g calls = some s) :
    (system g allowed).Reachable s := by
  rw [ExecState.reached] at h
  split at h
  next s0 hinit => exact reachable_completeAll hallowed (.init hinit) hadm h
  next => cases h

/-! ## The invariant of a run -/

theorem tallyIn_erase {running : List TaggedNode} (ht : t ∈ running) (id : FrameId) (k : Nat) :
    tallyIn running id k = tallyIn (running.erase t) id k +
      if id = t.frame ∧ k = t.iterNum then 1 else 0 := by
  rw [tallyIn, (perm_cons_erase ht).countP_eq, countP_cons, tallyIn]
  refine congrArg _ (if_congr ?_ rfl rfl)
  rw [decide_eq_true_eq]
  exact and_congr eq_comm eq_comm

theorem tallyIn_roots (ns : List Nat) (id : FrameId) (k : Nat) :
    tallyIn (ns.map (fun n => TaggedNode.mk [] 0 n false)) id k =
      if id = [] ∧ k = 0 then ns.length else 0 := by
  rw [tallyIn, countP_map]
  by_cases h : id = [] ∧ k = 0
  · obtain ⟨rfl, rfl⟩ := h
    simp
  · rw [if_neg h, countP_eq_zero]
    intro n _
    simp only [comp_apply, decide_eq_true_eq]
    exact fun hn => h ⟨hn.1.symm, hn.2.symm⟩

variable {g : Graph} {A S : Prop} {s : ExecState}

def activatedRoot (g : Graph) : FrameState :=
  (FrameState.new g 1 0).setIteration 0
    (some { IterationState.new g 0 with outstandingOps := g.rootNodes.length })

theorem init_frames (h : ExecState.init g = .ok s) :
    s.propagator.frames = update (fun _ => none) [] (some (activatedRoot g)) ∧
      s.running = g.rootNodes.map (fun n => TaggedNode.mk [] 0 n false) := by
  have hinit : ExecState.init g = .ok ⟨(new g).setFrame [] (some (activatedRoot g)),
      g.rootNodes.map (fun n => .mk [] 0 n false)⟩ := by
    simp only [activatedRoot]
    rw [← length_map]
    rfl
  obtain rfl := Except.ok.inj (hinit.symm.trans h)
  exact ⟨update_idem .., rfl⟩

/-- The propagator state agrees with the nodes that run and with the frames that are entered. -/
def ExecState.Accounted (g : Graph) (A S : Prop) (s : ExecState) (ids : Finset FrameId) : Prop :=
  s.propagator.Outstanding g A S ids (fun _ => false) (tallyIn s.running) (childCount ids)

theorem activatedRoot_window (g : Graph) :
    (activatedRoot g).Window 0 (fun k => if k = 0 then g.rootNodes.length else 0) (fun _ => 0) :=
  (FrameState.new_window g le_rfl 0).set le_rfl le_rfl rfl rfl
    (fun _ hj => if_neg hj) rfl (fun _ _ => rfl)

theorem init_accounted (h : ExecState.init g = .ok s) (hbusy : A → s.running ≠ []) :
    s.Accounted g A S {[]} := by
  obtain ⟨hframes, hrunning⟩ := init_frames h
  have hcnt : tallyIn s.running = fun id k => if id = [] ∧ k = 0 then g.rootNodes.length else 0 := by
    funext id k
    rw [hrunning, tallyIn_roots]
  rw [ExecState.Accounted, hcnt]
  refine ⟨fun id => ?_, fun id f hf => ?_, fun id hnone => ?_⟩
  · rw [hframes, Finset.mem_singleton]
    by_cases hid : id = []
    · simp [hid]
    · simp [hid]
  · rw [hframes] at hf
    by_cases hid : id = []
    · subst hid
      rw [update_self, Option.some.injEq] at hf
      subst hf
      simp only [true_and]
      refine ⟨⟨0, activatedRoot_window g, fun hne => absurd rfl hne, nofun,
        fun hA _ _ => ⟨le_rfl, .inl ?_⟩⟩, nofun, fun _ => Int.le_refl 0⟩
      have hne := hbusy hA
      rw [hrunning, Ne, map_eq_nil_iff] at hne
      exact fun hzero => hne (eq_nil_of_length_eq_zero hzero)
    · rw [update_of_ne hid] at hf
      cases hf
  · intro k
    refine ⟨if_neg (fun hk => ?_), rfl⟩
    rw [hframes, hk.1, update_self] at hnone
    cases hnone

theorem complete_accounted {ids : Finset FrameId} (h : s.Accounted g A S ids)
    (ht : t ∈ s.running) (hserves : s.propagator.Serves g A S t outputs) :
    Sat (Fault.Allowed S) (fun s' => ∃ ids', s'.Accounted g A S ids') (s.complete g t outputs) := by
  refine (propagateOutputs_outstanding (tallyIn_erase ht) h hserves).bind
    (fun r hr => ?_)
  obtain ⟨ids', hr⟩ := hr
  refine ⟨ids', ?_⟩
  show r.1.Outstanding g A S ids' _ (tallyIn (s.running.erase t ++ r.2)) _
  have heq : tallyIn (s.running.erase t ++ r.2) =
      fun id k => tallyIn (s.running.erase t) id k + tallyIn r.2 id k :=
    funext (fun id => funext (fun k => tallyIn_append _ _ id k))
  rw [heq]
  exact hr

/-! ## New iterations -/

theorem accounted_of_startsNext (hg : g.LoopsValid)
    (hs : (system g (PropagatorState.StartsNext g)).Reachable s) :
    ∃ ids, s.Accounted g False True ids := by
  induction hs with
  | init hs => exact ⟨_, init_accounted hs False.elim⟩
  | step _ hstep ih =>
    obtain ⟨ids, h⟩ := ih
    obtain ⟨hmem, hadm, hstarts, hc⟩ := hstep
    exact (complete_accounted h hmem (PropagatorState.serves_of_startsNext hg hadm hstarts)).of_ok hc

/-- In a run in which every `NextIteration` node of a frame with a single parallel
iteration starts a consumer, `IncrementIteration` never loses its iteration. -/
theorem new_iteration_stays_installed (g : Graph) (hg : g.LoopsValid) (s : ExecState)
    (hs : (system g (PropagatorState.StartsNext g)).Reachable s) (t : TaggedNode)
    (ht : t ∈ s.running) (outputs : List Entry) (hadm : Admissible g t outputs)
    (hstarts : s.propagator.StartsNext g t) :
    s.complete g t outputs ≠ .error .lostIteration ∧
      s.complete g t outputs ≠ .error .outOfFuel := by
  obtain ⟨ids, hvalid⟩ := accounted_of_startsNext hg hs
  have hsat := complete_accounted hvalid ht (PropagatorState.serves_of_startsNext hg hadm hstarts)
  refine ⟨fun he => ?_, fun he => ?_⟩
  · rw [he] at hsat
    exact hsat trivial
  · rw [he] at hsat
    exact hsat

/-- A loop with one variable and one parallel iteration.  The source 0 feeds the
`Enter` node 1; the merge 2 feeds the `NextIteration` node 3. -/
def plainLoop : Graph where
  numNodes := 4
  node
    | 0 => ⟨.ordinary, 0, [⟨1, 0, 0⟩], []⟩
    | 1 => ⟨.enter false 1 1, 1, [⟨2, 0, 0⟩], []⟩
    | 2 => ⟨.merge, 2, [⟨3, 0, 2⟩], []⟩
    | 3 => ⟨.nextIteration, 1, [⟨2, 0, 1⟩], []⟩
    | _ => ⟨.ordinary, 0, [], []⟩

theorem plainLoop_valid : plainLoop.LoopsValid := by
  refine ⟨fun n isConstant frameName p hkind => ?_, fun n hnext e he => ?_⟩
  · match n with
    | 0 | 2 | 3 | _ + 4 => cases hkind
    | 1 =>
      cases hkind
      decide
  · match n with
    | 0 | 1 | 2 | _ + 4 => cases hnext
    | 3 => rw [mem_singleton.mp he]

theorem plainLoop_startsNext (p : PropagatorState) (t : TaggedNode) : p.StartsNext plainLoop t := by
  intro hnext _ _ _ _
  match hn : t.nodeId with
  | 0 | 1 | 2 | _ + 4 =>
    rw [hn] at hnext
    cases hnext
  | 3 => rfl

/-- The same loop, where the merge 2 also has a control input from the loop invariant 4. -/
def guardedLoop : Graph where
  numNodes := 5
  node
    | 0 => ⟨.ordinary, 0, [⟨1, 0, 0⟩, ⟨4, 0, 1⟩], []⟩
    | 1 => ⟨.enter false 1 1, 1, [⟨2, 0, 0⟩], []⟩
    | 2 => ⟨.merge, 2, [⟨3, 0, 2⟩], []⟩
    | 3 => ⟨.nextIteration, 1, [⟨2, 0, 1⟩], []⟩
    | 4 => ⟨.enter true 1 1, 1, [], [2]⟩
    | _ => ⟨.ordinary, 0, [], []⟩

theorem guardedLoop_valid : guardedLoop.LoopsValid := by
  refine ⟨fun n isConstant frameName p hkind => ?_, fun n hnext e he => ?_⟩
  · match n with
    | 0 | 2 | 3 | _ + 5 => cases hkind
    | 1 | 4 =>
      cases hkind
      decide
  · match n with
    | 0 | 1 | 2 | 4 | _ + 5 => cases hnext
    | 3 => rw [mem_singleton.mp he]

def rootCall (n : Nat) : TaggedNode × List Entry := (⟨[], 0, n, false⟩, [.hasValue n])

def loopCall (iter n : Nat) : TaggedNode × List Entry :=
  (⟨[(1, 0)], iter, n, false⟩, [.hasValue n])

def faultOf {α : Type} : Except Fault α → Option Fault
  | .ok _ => none
  | .error e => some e

theorem faultOf_eq_some {α : Type} {x : Except Fault α} {e : Fault} (h : faultOf x = some e) :
    x = .error e := by
  cases x with
  | ok => cases h
  | error => rw [Option.some.inj h]

theorem admissible_rootCall (g : Graph) (n : Nat) : Admissible g (rootCall n).1 (rootCall n).2 :=
  fun _ _ => rfl

theorem admissible_loopCall (g : Graph) (iter n : Nat) :
    Admissible g (loopCall iter n).1 (loopCall iter n).2 :=
  fun _ _ => rfl

/-- The merge of `plainLoop` keeps the iteration that the deferred root starts. -/
theorem new_iteration_stays_installed_plainLoop :
    ∃ s, (system plainLoop (PropagatorState.StartsNext plainLoop)).Reachable s ∧
      (loopCall 0 3).1 ∈ s.running ∧
      s.complete plainLoop (loopCall 0 3).1 (loopCall 0 3).2 ≠ .error .lostIteration ∧
      s.complete plainLoop (loopCall 0 3).1 (loopCall 0 3).2 ≠ .error .outOfFuel := by
  have hrun : (ExecState.reached plainLoop [rootCall 0, rootCall 1, loopCall 0 2]).map
      ExecState.running = some [(loopCall 0 3).1] := by decide +kernel
  obtain ⟨s, hs, hrunning⟩ := Option.map_eq_some_iff.mp hrun
  have hmem : (loopCall 0 3).1 ∈ s.running := by
    rw [hrunning]
    exact mem_singleton.mpr rfl
  have hreach : (system plainLoop (PropagatorState.StartsNext plainLoop)).Reachable s := by
    refine reachable_of_reached plainLoop_startsNext ?_ hs
    simp [admissible_rootCall, admissible_loopCall]
  exact ⟨s, hreach, hmem, new_iteration_stays_installed plainLoop plainLoop_valid s hreach _ hmem
    _ (admissible_loopCall _ _ _) (plainLoop_startsNext _ _)⟩

/-- In `guardedLoop` the deferred root finds the merge waiting for its control input,
so the new iteration has no ops and is cleaned up at once. -/
theorem new_iteration_lost :
    guardedLoop.LoopsValid ∧ ∃ s, (system guardedLoop (fun _ _ => True)).Reachable s ∧
      (loopCall 0 3).1 ∈ s.running ∧
      Admissible guardedLoop (loopCall 0 3).1 (loopCall 0 3).2 ∧
      s.complete guardedLoop (loopCall 0 3).1 (loopCall 0 3).2 = .error .lostIteration := by
  have hrun : (ExecState.reached guardedLoop
      [rootCall 0, rootCall 1, rootCall 4, loopCall 0 2]).map (fun s => (s.running,
        faultOf (s.complete guardedLoop (loopCall 0 3).1 (loopCall 0 3).2))) =
      some ([(loopCall 0 3).1], some .lostIteration) := by decide +kernel
  obtain ⟨s, hs, heq⟩ := Option.map_eq_some_iff.mp hrun
  obtain ⟨hrunning, hfault⟩ := Prod.mk.inj heq
  refine ⟨guardedLoop_valid, s, reachable_of_reached (fun _ _ => trivial) ?_ hs, ?_,
    admissible_loopCall _ _ _, faultOf_eq_some hfault⟩
  · simp [admissible_rootCall, admissible_loopCall]
  · rw [hrunning]
    exact mem_singleton.mpr rfl

/-- In such a run whatever is ready or running has its frame and its iteration, a frame has at most
its limit of iterations outstanding, and an iteration counts its nodes that are ready or running. -/
theorem running_installed (hg : g.LoopsValid)
    (hs : (system g (PropagatorState.StartsNext g)).Reachable s) :
    (∀ t ∈ s.running, ∃ f it, s.propagator.frames t.frame = some f ∧
      f.getIteration t.iterNum = some it ∧ it.iterNum = t.iterNum) ∧
    ∀ id f, s.propagator.frames id = some f →
      f.numOutstandingIterations ≤ f.maxParallelIterations ∧
      ∀ k it, f.getIteration k = some it → it.outstandingOps = tallyIn s.running id it.iterNum := by
  obtain ⟨ids, h⟩ := accounted_of_startsNext hg hs
  refine ⟨fun t ht => ?_, fun id f hf => ?_⟩
  · have hpos : tallyIn s.running t.frame t.iterNum ≠ 0 :=
      (countP_pos_iff.mpr ⟨t, ht, by simp⟩).ne'
    cases hf : s.propagator.frames t.frame with
    | none => exact absurd (h.absent _ hf t.iterNum).1 hpos
    | some f =>
      obtain ⟨lo, hwin, -⟩ := (h.frame _ f hf).held
      obtain ⟨hlo, hle⟩ := hwin.counted _ (.inl hpos)
      obtain ⟨it, hget, hnum, -⟩ := hwin.live _ hlo hle
      exact ⟨f, it, rfl, hget, hnum⟩
  · obtain ⟨lo, hwin, -⟩ := (h.frame id f hf).held
    have hcount := hwin.outstanding
    have hfits := hwin.fits
    exact ⟨by omega, fun k it hget => (hwin.of_get hget).1⟩

theorem running_installed_plainLoop :
    ∃ s, (system plainLoop (PropagatorState.StartsNext plainLoop)).Reachable s ∧
      (loopCall 0 2).1 ∈ s.running ∧ ∃ f, s.propagator.frames [(1, 0)] = some f := by
  have hrun : (ExecState.reached plainLoop [rootCall 0, rootCall 1]).map
      ExecState.running = some [(loopCall 0 2).1] := by decide +kernel
  obtain ⟨s, hs, hrunning⟩ := Option.map_eq_some_iff.mp hrun
  have hmem : (loopCall 0 2).1 ∈ s.running := by simp [hrunning]
  have hreach : (system plainLoop (PropagatorState.StartsNext plainLoop)).Reachable s :=
    reachable_of_reached plainLoop_startsNext (by simp [admissible_rootCall]) hs
  have hinstalled := (running_installed plainLoop_valid hreach).1 _ hmem
  exact ⟨s, hreach, hmem, hinstalled.imp fun _ h => h.elim fun _ h' => h'.1⟩

end TfReading.Executor
