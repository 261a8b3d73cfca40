import Mathlib.Data.Nat.ModEq
import TfReading.Executor.Arrivals
import TfReading.Executor.Frame
import TfReading.Library.Outcome

/-!
# The live iterations of a frame

The live iterations of a frame are the numbers from some `lo` to the iteration
count, each in its slot of the ring, and the outstanding ops of each are the nodes
that run in it.  All operations of a frame keep this, and they neither fault nor
run out of fuel.  The exception is a frame with a single parallel iteration: there
the successor of a completed iteration survives only if the deferred roots start
some consumer in it.
-/

namespace TfReading.Executor

open Outcome List Bool Function IterationState

def tally (ready : List IterReady) (k : Nat) : Nat := ready.countP (fun r => r.iterNum = k)

@[simp]
theorem tally_append (xs ys : List IterReady) (k : Nat) :
    tally (xs ++ ys) k = tally xs k + tally ys k :=
  countP_append

variable {ready : List IterReady} {it : IterationState} {as : List Arrival} {g : Graph}
    {a : Arrival} {n : Nat}

theorem tally_same {iter : Nat} (h : ∀ r ∈ ready, r.iterNum = iter)
    (k : Nat) : tally ready k = if k = iter then ready.length else 0 := by
  split
  next hk =>
    rw [tally, countP_eq_length]
    intro r hr
    rw [h r hr, hk, decide_eq_true_eq]
  next hk =>
    rw [tally, countP_eq_zero]
    intro r hr
    rw [h r hr, decide_eq_true_eq]
    exact Ne.symm hk

/-! ## Nodes that start a consumer at once -/

/-- Some consumer of the node waits for nothing else: a merge without control
inputs, or a node with one in-edge. -/
def Graph.startsConsumer (g : Graph) (item : NodeItem) : Bool :=
  item.outputEdges.any (fun e => g.maxPending e.dstId = 1) ||
    item.outputControlEdges.any (fun d => !(g.node d).isMerge && g.maxPending d = 1)

/-- A deferred root that starts a consumer.  A `NextIteration` node has one output. -/
structure StartingRoot (g : Graph) (r : NodeItem × Entry) : Prop where
  starts : g.startsConsumer r.1 = true
  slot : ∀ e ∈ r.1.outputEdges, e.outputSlot = 0
  live : r.2.isNoValue = false

theorem arriveAll_flags_ne_nil {dst : NodeItem} {c : Counts}
    (ha : (arrive dst c a).dstReady = true) : (arriveAll dst (c, []) (a :: as)).2 ≠ [] := by
  have hcons : arriveAll dst (c, []) (a :: as) = arriveAll dst (arriveOne dst (c, []) a) as := rfl
  rw [hcons, arriveAll_flags, arriveOne, if_pos ha]
  simp

theorem initialCounts_of_one (h : g.maxPending n = 1) :
    g.initialCounts n = ⟨createHandle 1 (g.numInEdges n), 1, 0, false⟩ := by
  rw [Graph.initialCounts, h, Counts.setInitialCount]
  cases createHandle 1 (g.numInEdges n) <;> rfl

theorem activateNodes_ne_nil {item : NodeItem} {isDead : Bool} {outputs : List Entry}
    (hit : it.counts = g.initialCounts)
    (hn : g.maxPending n = 1) (has : arrivalsTo n (messages item isDead outputs) = a :: as)
    (ha : (g.node n).isMerge = true → ∃ fromEnter srcDead, a = .data fromEnter false srcDead) :
    (it.activateNodes g item isDead outputs).2 ≠ [] := by
  intro hnil
  have hflags := (activateNodes_node g n item isDead outputs it).2
  rw [hnil, has, hit, initialCounts_of_one hn] at hflags
  refine arriveAll_flags_ne_nil ?_ hflags.symm
  by_cases hm : (g.node n).isMerge = true
  · obtain ⟨fromEnter, srcDead, rfl⟩ := ha hm
    rw [arrive, if_pos hm]
    cases createHandle 1 (g.numInEdges n) <;> rfl
  · rw [arrive_nonMerge (by simpa using hm)]
    cases createHandle 1 (g.numInEdges n) <;> cases a.marksDead <;> rfl

theorem StartingRoot.activates {r : NodeItem × Entry} (h : StartingRoot g r)
    (hit : it.counts = g.initialCounts) :
    (it.activateNodes g r.1 r.2.isNoValue [r.2]).2 ≠ [] := by
  have hstarts := h.starts
  rw [Graph.startsConsumer, or_eq_true, any_eq_true, any_eq_true] at hstarts
  rcases hstarts with ⟨e, he, hone⟩ | ⟨d, hd, hone⟩
  · have hmem : e ∈ r.1.outputEdges.filter (fun e' => e'.dstId = e.dstId) :=
      mem_filter.mpr ⟨he, decide_eq_true rfl⟩
    obtain ⟨e1, es, hes⟩ := exists_cons_of_ne_nil (ne_nil_of_mem hmem)
    have he1 : e1 ∈ r.1.outputEdges :=
      (mem_filter.mp (hes ▸ mem_cons_self)).1
    have hlive : (output [r.2] e1).isNoValue = false := by
      rw [output, h.slot e1 he1]
      exact h.live
    refine activateNodes_ne_nil hit (of_decide_eq_true hone)
      (by rw [arrivalsTo_messages, hes, map_cons, hlive, cons_append])
      (fun _ => ⟨_, _, rfl⟩)
  · rw [and_eq_true, not_eq_true', decide_eq_true_eq] at hone
    have hne : arrivalsTo d (messages r.1 r.2.isNoValue [r.2]) ≠ [] := by
      rw [arrivalsTo_messages]
      refine append_ne_nil_of_right_ne_nil _ (ne_nil_of_mem
        (mem_map_of_mem (mem_filter.mpr ⟨hd, decide_eq_true rfl⟩)))
    obtain ⟨a, as, has⟩ := exists_cons_of_ne_nil hne
    exact activateNodes_ne_nil hit hone.2 has (fun hm => absurd hm (by simp [hone.1]))

namespace FrameState

/-! ## The ring -/

theorem getIteration_setIteration_self (f : FrameState) (k : Nat) (st : Option IterationState) :
    (f.setIteration k st).getIteration k = st :=
  update_self ..

variable {j k : Nat} {f : FrameState}

theorem getIteration_setIteration_of_ne (h : f.slot j ≠ f.slot k)
    (st : Option IterationState) : (f.setIteration k st).getIteration j = f.getIteration j :=
  update_of_ne h ..

theorem slot_ne {lo : Nat} (hj : lo ≤ j) (hk : lo ≤ k)
    (hj' : j ≤ lo + f.maxParallelIterations) (hk' : k ≤ lo + f.maxParallelIterations)
    (hne : j ≠ k) : f.slot j ≠ f.slot k := by
  intro heq
  have hdvd : ∀ {a b : Nat}, a ≤ b → b < a + (f.maxParallelIterations + 1) →
      f.slot a = f.slot b → a = b := by
    intro a b hab hlt hslot
    have hz := Nat.eq_zero_of_dvd_of_lt ((Nat.modEq_iff_dvd' hab).mp hslot) (by omega)
    omega
  rcases le_total j k with h | h
  · exact hne (hdvd h (by omega) heq)
  · exact hne (hdvd h (by omega) heq.symm).symm

/-! ## Windows of live iterations -/

/-- The live iterations of the frame are `lo` to the iteration count.  `ops` and `kids` count the
outstanding ops and the outstanding frames of each. -/
structure Window (f : FrameState) (lo : Nat) (ops kids : Nat → Nat) : Prop where
  limit_pos : 1 ≤ f.maxParallelIterations
  lo_le : lo ≤ f.iterationCount + 1
  outstanding : f.numOutstandingIterations = f.iterationCount + 1 - lo
  fits : f.iterationCount + 1 ≤ lo + f.maxParallelIterations
  live : ∀ k, lo ≤ k → k ≤ f.iterationCount → ∃ it, f.getIteration k = some it ∧ it.iterNum = k ∧
    it.outstandingOps = ops k ∧ it.outstandingFrameCount = kids k
  inside : ∀ k it, f.getIteration k = some it →
    lo ≤ it.iterNum ∧ it.iterNum ≤ f.iterationCount ∧ f.slot it.iterNum = f.slot k
  counted : ∀ k, ops k ≠ 0 ∨ kids k ≠ 0 → lo ≤ k ∧ k ≤ f.iterationCount
  /-- Iteration 0 goes only when all inputs are there. -/
  entered : 0 < lo → f.numPendingInputs ≤ 0

/-- Iterations are deferred only while the frame is full. -/
def Deferred (f : FrameState) (lo : Nat) : Prop :=
  f.nextIterRoots ≠ [] → f.iterationCount + 1 = lo + f.maxParallelIterations

def Starts (g : Graph) (f : FrameState) : Prop :=
  f.maxParallelIterations = 1 → ∀ r ∈ f.nextIterRoots, StartingRoot g r

/-- With all inputs there, something is outstanding in the oldest iteration. -/
def Awake (f : FrameState) (lo : Nat) (ops kids : Nat → Nat) : Prop :=
  f.numPendingInputs = 0 → lo ≤ f.iterationCount ∧ (ops lo ≠ 0 ∨ kids lo ≠ 0)

/-- The last iteration that is reached without another `NextIteration` node. -/
def horizon (f : FrameState) : Nat :=
  f.iterationCount + if f.nextIterRoots = [] then 0 else 1

namespace Window

variable {f : FrameState} {lo : Nat} {ops kids : Nat → Nat} {it : IterationState}
  (h : Window f lo ops kids)

include h

theorem deref_eq (hlo : lo ≤ k) (hk : k ≤ f.iterationCount) :
    ∃ it, f.deref k = .ok it := by
  obtain ⟨it, hget, hnum, -⟩ := h.live k hlo hk
  exact ⟨it, by simp [deref, hget, hnum]⟩

theorem of_get (hget : f.getIteration k = some it) :
    it.outstandingOps = ops it.iterNum ∧ it.outstandingFrameCount = kids it.iterNum := by
  obtain ⟨hlo, hk, hslot⟩ := h.inside k it hget
  obtain ⟨it', hget', -, hit⟩ := h.live _ hlo hk
  rw [getIteration, hslot] at hget'
  obtain rfl : it' = it := Option.some.inj (hget'.symm.trans hget)
  exact hit

theorem of_deref (hd : f.deref k = .ok it) :
    lo ≤ k ∧ k ≤ f.iterationCount ∧ it.iterNum = k ∧ it.outstandingOps = ops k ∧
      it.outstandingFrameCount = kids k := by
  rw [deref] at hd
  split at hd
  next it' hget =>
    split at hd
    next hnum =>
      obtain rfl : it' = it := Except.ok.inj hd
      obtain ⟨hlo, hk, -⟩ := h.inside k it' hget
      obtain ⟨hops, hkids⟩ := h.of_get hget
      rw [hnum] at hlo hk hops hkids
      exact ⟨hlo, hk, hnum, hops, hkids⟩
    next => cases hd
  next => cases hd

theorem congr {f' : FrameState}
    (hmax : f'.maxParallelIterations = f.maxParallelIterations)
    (hcount : f'.iterationCount = f.iterationCount)
    (hnum : f'.numOutstandingIterations = f.numOutstandingIterations)
    (hiter : f'.iterations = f.iterations) (hin : f'.numPendingInputs ≤ f.numPendingInputs) :
    Window f' lo ops kids := by
  have hslot : ∀ k, f'.slot k = f.slot k := fun k => by rw [slot, hmax, slot]
  have hget : ∀ k, f'.getIteration k = f.getIteration k := fun k => by
    rw [getIteration, hiter, hslot, getIteration]
  refine ⟨hmax ▸ h.limit_pos, hcount ▸ h.lo_le, ?_, ?_, ?_, ?_, ?_, ?_⟩
  · rw [hnum, hcount]; exact h.outstanding
  · rw [hcount, hmax]; exact h.fits
  · intro k; rw [hcount, hget]; exact h.live k
  · intro k it; rw [hcount, hget, hslot, hslot]; exact h.inside k it
  · intro k; rw [hcount]; exact h.counted k
  · exact fun hlo => Int.le_trans hin (h.entered hlo)

theorem slot_ne (hj : lo ≤ j) (hj' : j ≤ f.iterationCount)
    (hk : lo ≤ k) (hk' : k ≤ f.iterationCount) (hne : j ≠ k) : f.slot j ≠ f.slot k := by
  have := h.fits
  exact FrameState.slot_ne hj hk (by omega) (by omega) hne

theorem set (hlo : lo ≤ k) (hk : k ≤ f.iterationCount) (hnum : it.iterNum = k)
    {ops' kids' : Nat → Nat} (hops : it.outstandingOps = ops' k)
    (hops' : ∀ j, j ≠ k → ops' j = ops j) (hkids : it.outstandingFrameCount = kids' k)
    (hkids' : ∀ j, j ≠ k → kids' j = kids j) :
    Window (f.setIteration k (some it)) lo ops' kids' := by
  refine ⟨h.limit_pos, h.lo_le, h.outstanding, h.fits, ?_, ?_, ?_, h.entered⟩
  · intro j hj hj'
    by_cases hjk : j = k
    · subst hjk
      exact ⟨it, getIteration_setIteration_self f j _, hnum, hops, hkids⟩
    · rw [getIteration_setIteration_of_ne (h.slot_ne hj hj' hlo hk hjk), hops' j hjk, hkids' j hjk]
      exact h.live j hj hj'
  · intro j it' hget
    by_cases hslot : f.slot j = f.slot k
    · rw [getIteration, show (f.setIteration k (some it)).slot j = f.slot k from hslot] at hget
      rw [show (f.setIteration k (some it)).iterations (f.slot k) = some it from
        update_self .., Option.some.injEq] at hget
      subst hget
      exact ⟨by omega, by rw [hnum]; exact hk, by rw [hnum]; exact hslot.symm⟩
    · rw [getIteration_setIteration_of_ne hslot] at hget
      exact h.inside j it' hget
  · intro j hj
    by_cases hjk : j = k
    · rw [hjk]
      exact ⟨hlo, hk⟩
    · rw [hops' j hjk, hkids' j hjk] at hj
      exact h.counted j hj

theorem delete (hlo : lo ≤ f.iterationCount) (hops : ops lo = 0) (hkids : kids lo = 0)
    (hin : lo = 0 → f.numPendingInputs = 0) : Window (f.deleteIteration lo) (lo + 1) ops kids := by
  have hfits := h.fits
  have hout := h.outstanding
  refine ⟨h.limit_pos, Nat.succ_le_succ hlo, ?_, ?_, ?_, ?_, ?_, fun _ => ?_⟩
  · show f.numOutstandingIterations - 1 = f.iterationCount + 1 - (lo + 1 : Nat)
    omega
  · show f.iterationCount + 1 ≤ lo + 1 + f.maxParallelIterations
    omega
  · intro k hk hk'
    obtain ⟨it, hget, hit⟩ := h.live k (by omega) hk'
    refine ⟨it, ?_, hit⟩
    exact (getIteration_setIteration_of_ne
      (h.slot_ne (by omega) hk' le_rfl hlo (by omega)) none).trans hget
  · intro k it hget
    have hslot : f.slot k ≠ f.slot lo := by
      intro heq
      have hnone : (f.setIteration lo none).iterations (f.slot lo) = none :=
        update_self ..
      rw [← heq] at hnone
      exact absurd (hnone.symm.trans hget) (by simp)
    have hget' : f.getIteration k = some it :=
      (getIteration_setIteration_of_ne hslot none).symm.trans hget
    obtain ⟨hge, hle, hs⟩ := h.inside k it hget'
    refine ⟨lt_of_le_of_ne hge (fun heq => hslot ?_), hle, hs⟩
    rw [← hs, ← heq]
  · intro k hk
    obtain ⟨hge, hle⟩ := h.counted k hk
    refine ⟨lt_of_le_of_ne hge (fun heq => ?_), hle⟩
    subst heq
    omega
  · show f.numPendingInputs ≤ 0
    by_cases hzero : lo = 0
    · rw [hin hzero]
    · exact h.entered (by omega)

theorem allocate (g : Graph) (hroom : f.iterationCount + 2 ≤ lo + f.maxParallelIterations) :
    Window (f.allocateIteration g) lo ops kids := by
  have hout := h.outstanding
  have hlo := h.lo_le
  set n := f.iterationCount + 1 with hn
  have hslot : ∀ k, lo ≤ k → k ≤ f.iterationCount → f.slot k ≠ f.slot n := fun k hk hk' =>
    FrameState.slot_ne hk hlo (by omega) (by omega) (by omega)
  have hself : (f.allocateIteration g).iterations (f.slot n) = some (.new g n) := update_self ..
  have hother : ∀ k, f.slot k ≠ f.slot n →
      (f.allocateIteration g).getIteration k = f.getIteration k := fun k hk =>
    update_of_ne hk ..
  have hzero : ops n = 0 ∧ kids n = 0 := by
    by_contra hne
    have := h.counted n (by omega)
    omega
  refine ⟨h.limit_pos, ?_, ?_, ?_, ?_, ?_, ?_, h.entered⟩
  · exact Nat.le_succ_of_le hlo
  · show f.numOutstandingIterations + 1 = (n : Int) + 1 - lo
    omega
  · show n + 1 ≤ lo + f.maxParallelIterations
    omega
  · intro k hk hk'
    by_cases hkn : k = n
    · rw [hkn, hzero.1, hzero.2]
      exact ⟨_, hself, rfl, rfl, rfl⟩
    · have hle : k ≤ f.iterationCount := Nat.le_of_lt_succ (lt_of_le_of_ne hk' hkn)
      obtain ⟨it, hget, hit⟩ := h.live k hk hle
      exact ⟨it, (hother k (hslot k hk hle)).trans hget, hit⟩
  · intro k it hget
    by_cases hk : f.slot k = f.slot n
    · have hit : some (.new g n) = some it := by
        rw [← hself, ← hk]
        exact hget
      obtain rfl := Option.some.inj hit
      exact ⟨hlo, le_rfl, hk.symm⟩
    · obtain ⟨hge, hle, hs⟩ := h.inside k it ((hother k hk).symm.trans hget)
      exact ⟨hge, Nat.le_succ_of_le hle, hs⟩
  · intro k hk
    obtain ⟨hge, hle⟩ := h.counted k hk
    exact ⟨hge, Nat.le_succ_of_le hle⟩

theorem done_elim (hlo : lo ≤ k) (hk : k ≤ f.iterationCount)
    (hget : f.getIteration k = some it) (hdone : f.isIterationDone it = true) :
    k = lo ∧ ops lo = 0 ∧ kids lo = 0 ∧ (lo = 0 → f.numPendingInputs = 0) := by
  obtain ⟨it', hget', hnum, hops, hkids⟩ := h.live k hlo hk
  obtain rfl : it = it' := Option.some.inj (hget.symm.trans hget')
  simp only [isIterationDone, and_eq_true, decide_eq_true_eq] at hdone
  obtain ⟨hzero, hprior⟩ := hdone
  have heq : k = lo := by
    by_contra hne
    obtain ⟨prev, hprev, -⟩ := h.live (k - 1) (by omega) (by omega)
    rw [if_neg (by omega), hnum, hprev] at hprior
    cases hprior
  subst heq
  refine ⟨rfl, by omega, by omega, fun hfirst => ?_⟩
  rw [if_pos (by omega), decide_eq_true_eq] at hprior
  exact hprior

theorem done_intro (hin : f.numPendingInputs = 0) (hk : lo ≤ f.iterationCount)
    (hget : f.getIteration lo = some it) (hops : ops lo = 0) (hkids : kids lo = 0) :
    f.isIterationDone it = true := by
  obtain ⟨it', hget', hnum, hops', hkids'⟩ := h.live lo le_rfl hk
  obtain rfl : it = it' := Option.some.inj (hget.symm.trans hget')
  simp only [isIterationDone, and_eq_true, decide_eq_true_eq]
  refine ⟨⟨by omega, by omega⟩, ?_⟩
  by_cases hzero : lo = 0
  · rw [if_pos (by omega), decide_eq_true_eq]
    exact hin
  · rw [if_neg (by omega), hnum]
    -- the iteration before the oldest one has been deleted
    cases hprev : f.getIteration (lo - 1) with
    | none => rfl
    | some prev =>
      have hfits := h.fits
      obtain ⟨hge, hle, hslot⟩ := h.inside (lo - 1) prev hprev
      exact absurd hslot (FrameState.slot_ne (show lo - 1 ≤ prev.iterNum by omega) le_rfl
        (by omega) (by omega) (by omega))

theorem isFrameDone_iff :
    f.isFrameDone = true ↔ f.numPendingInputs = 0 ∧ lo = f.iterationCount + 1 := by
  have hout := h.outstanding
  rw [isFrameDone, and_eq_true, decide_eq_true_eq, decide_eq_true_eq]
  apply and_congr_right
  intro _
  omega

end Window

/-! ## New iterations -/

section Operations

variable {g : Graph} {f : FrameState} {lo k : Nat} {ops kids ops' : Nat → Nat} {it : IterationState}

theorem activateNodesLocked_eq (hd : f.deref k = .ok it)
    (item : NodeItem) (isDead : Bool) (outputs : List Entry) :
    activateNodesLocked g f item isDead k outputs =
      .ok (f.setIteration k (some (it.activateNodes g item isDead outputs).1),
        (it.activateNodes g item isDead outputs).2.map (IterReady.mk k)) := by
  rw [activateNodesLocked, hd]
  rfl

structure Activated (f : FrameState) (lo : Nat) (ops kids : Nat → Nat) (k : Nat)
    (r : FrameState × List IterReady) : Prop where
  window : Window r.1 lo ops kids
  rest : r.1 = { f with iterations := r.1.iterations }
  same : ∀ x ∈ r.2, x.iterNum = k

theorem activateNodesLocked_spec (h : Window f lo ops kids)
    (hd : f.deref k = .ok it) (item : NodeItem) (isDead : Bool) (outputs : List Entry) :
    Activated f lo ops kids k (f.setIteration k (some (it.activateNodes g item isDead outputs).1),
        (it.activateNodes g item isDead outputs).2.map (IterReady.mk k)) := by
  obtain ⟨hlo, hk, hnum, hops, hkids⟩ := h.of_deref hd
  have hkeeps := it.activateNodes_keeps g item isDead outputs
  refine ⟨h.set hlo hk (hkeeps.1.trans hnum) (hkeeps.2.1.trans hops) (fun _ _ => rfl)
    (hkeeps.2.2.trans hkids) (fun _ _ => rfl), rfl, ?_⟩
  intro x hx
  obtain ⟨r, -, rfl⟩ := mem_map.mp hx
  rfl

theorem activateEach_cons (hd : f.deref k = .ok it)
    (item : NodeItem) (entry : Entry) (values : List (NodeItem × Entry)) :
    activateEach g k f ((item, entry) :: values) =
      (activateEach g k (f.setIteration k
        (some (it.activateNodes g item entry.isNoValue [entry]).1)) values >>= fun r =>
          .ok (r.1, (it.activateNodes g item entry.isNoValue [entry]).2.map (IterReady.mk k) ++
            r.2)) := by
  rw [activateEach, activateNodesLocked_eq hd]
  rfl

theorem activateEach_spec (h : Window f lo ops kids) (hlo : lo ≤ k)
    (hk : k ≤ f.iterationCount) (values : List (NodeItem × Entry)) :
    Sat (fun _ => False) (Activated f lo ops kids k) (activateEach g k f values) := by
  induction values generalizing f with
  | nil => exact ⟨h, rfl, nofun⟩
  | cons value values ih =>
    obtain ⟨item, entry⟩ := value
    obtain ⟨it, hd⟩ := h.deref_eq hlo hk
    have hfirst := activateNodesLocked_spec (g := g) h hd item entry.isNoValue [entry]
    rw [activateEach_cons hd]
    refine .bind (ih hfirst.window hk) (fun r hr => ⟨hr.window, ?_, ?_⟩)
    · rw [hr.rest]
      rfl
    · intro x hx
      rcases mem_append.mp hx with hx | hx
      · exact hfirst.same x hx
      · exact hr.same x hx

theorem activateEach_ne_nil (hd : f.deref k = .ok it)
    (hit : it.counts = g.initialCounts) {value : NodeItem × Entry}
    {values : List (NodeItem × Entry)} (hroot : StartingRoot g value)
    {r : FrameState × List IterReady} (hr : activateEach g k f (value :: values) = .ok r) :
    r.2 ≠ [] := by
  rw [activateEach_cons hd] at hr
  have hne := hroot.activates hit
  obtain ⟨r', -, hr⟩ := exists_of_bind_eq_ok hr
  obtain rfl := Except.ok.inj hr
  exact append_ne_nil_of_left_ne_nil (by simpa using hne) _

theorem Window.adjust (h : Window f lo ops kids) (hd : f.deref k = .ok it) {delta : Int}
    (hk : (ops' k : Int) = ops k + delta) (hops : ∀ j, j ≠ k → ops' j = ops j) :
    Window (f.setIteration k
      (some { it with outstandingOps := it.outstandingOps + delta })) lo ops' kids := by
  obtain ⟨hlo, hle, hnum, hcount, hkids⟩ := h.of_deref hd
  have hnum' : ({ it with outstandingOps := it.outstandingOps + delta } :
      IterationState).iterNum = k := hnum
  exact h.set hlo hle hnum' (by rw [hk, ← hcount]) hops hkids (fun _ _ => rfl)

theorem adjustOutstandingOpsLocked_succ (hd : f.deref k = .ok it) (delta : Int) (fuel : Nat) :
    adjustOutstandingOpsLocked g (fuel + 1) f k delta =
      if it.outstandingOps + delta ≠ 0 then
        .ok (false, f.setIteration k
          (some { it with outstandingOps := it.outstandingOps + delta }), [])
      else cleanupIterations g fuel (f.setIteration k
        (some { it with outstandingOps := it.outstandingOps + delta })) k := by
  rw [adjustOutstandingOpsLocked, hd]
  rfl

/-- The latest iteration stays, or it is the only one, has no ops and is deleted at once. -/
theorem adjust_latest (h : Window f lo ops kids) (hlo : lo ≤ k) (hk : f.iterationCount = k)
    (hroots : f.nextIterRoots = []) (fuel n : Nat) :
    ∃ done f', adjustOutstandingOpsLocked g (fuel + 3) f k n = .ok (done, f', []) ∧
      (f' = { f with iterations := f'.iterations } ∧
          Window f' lo (fun j => ops j + if j = k then n else 0) kids ∨
        f'.isLatest k = false ∧ lo = k ∧ ops k + n = 0) := by
  have hle : k ≤ f.iterationCount := hk.symm.le
  obtain ⟨it, hd⟩ := h.deref_eq hlo hle
  set f1 := f.setIteration k
    (some { it with outstandingOps := it.outstandingOps + (n : Int) }) with hf1
  have hset : Window f1 lo (fun j => ops j + if j = k then n else 0) kids :=
    h.adjust hd (by simp) (fun j hj => by simp [hj])
  rw [adjustOutstandingOpsLocked_succ hd]
  split
  · exact ⟨_, f1, rfl, .inl ⟨rfl, hset⟩⟩
  · have hget : f1.getIteration k = _ := getIteration_setIteration_self f k _
    rw [← hf1, cleanupIterations, if_pos (show k ≤ f1.iterationCount from hle), hget]
    dsimp only
    split
    next hdone =>
      obtain ⟨rfl, hzero, -⟩ := hset.done_elim hlo hle hget hdone
      have hempty : (f1.deleteIteration k).nextIterRoots.isEmpty = true := isEmpty_iff.mpr hroots
      have hbeyond : ¬k + 1 ≤ (f1.deleteIteration k).iterationCount :=
        not_le.mpr (Nat.lt_succ_of_le hk.le)
      have hnone : (f1.deleteIteration k).getIteration k = none :=
        getIteration_setIteration_self f1 k none
      rw [if_pos hempty]
      refine ⟨(f1.deleteIteration k).isFrameDone, f1.deleteIteration k, ?_,
        .inr ⟨by simp [isLatest, holds, hnone], rfl, ?_⟩⟩
      · show (cleanupIterations g (fuel + 1) (f1.deleteIteration k) (k + 1) >>= fun r =>
          .ok (r.1, r.2.1, [] ++ r.2.2)) = _
        rw [cleanupIterations, if_neg hbeyond]
        rfl
      · simpa using hzero
    · exact ⟨_, f1, rfl, .inl ⟨rfl, hset⟩⟩

theorem deliver_spec (h : Window f lo ops kids) (hlo : lo ≤ k) (hk : f.iterationCount = k)
    (values : List (NodeItem × Entry)) (fuel : Nat) :
    ∃ f1 ready done f', activateEach g k f values = .ok (f1, ready) ∧
      f1.nextIterRoots = f.nextIterRoots ∧
      adjustOutstandingOpsLocked g (fuel + 3) { f1 with nextIterRoots := [] } k ready.length =
        .ok (done, f', []) ∧ tally ready k = ready.length ∧
      (f' = { f with iterations := f'.iterations, nextIterRoots := [] } ∧
          Window f' lo (fun j => ops j + tally ready j) kids ∨
        f'.isLatest k = false ∧ lo = k ∧ ops k + ready.length = 0) := by
  obtain ⟨⟨f1, ready⟩, heq, hact⟩ :=
    (activateEach_spec h hlo hk.ge values).exists_ok
  have hrest : f1 = { f with iterations := f1.iterations } := hact.rest
  have htally := tally_same hact.same
  have hclear : Window { f1 with nextIterRoots := [] } lo ops kids :=
    hact.window.congr rfl rfl rfl rfl (Int.le_refl _)
  have hk1 : f1.iterationCount = k := by
    rw [hrest]
    exact hk
  obtain ⟨done, f', hadj, hcases⟩ := adjust_latest hclear hlo hk1 rfl fuel ready.length
  refine ⟨f1, ready, done, f', heq, by rw [hrest], hadj, by rw [htally, if_pos rfl],
    hcases.imp (fun ⟨hrest', hwin⟩ => ⟨?_, ?_⟩) id⟩
  · rw [hrest', hrest]
  · simpa only [htally] using hwin

theorem Window.isLatest (h : Window f lo ops kids) (hlo : lo ≤ k)
    (hk : f.iterationCount = k) : f.isLatest k = true := by
  obtain ⟨it, hget, hnum, -⟩ := h.live k hlo hk.ge
  simp [FrameState.isLatest, FrameState.holds, hget, hnum, hk]

structure Incremented (f : FrameState) (lo : Nat) (ops kids : Nat → Nat)
    (r : FrameState × List IterReady) : Prop where
  window : Window r.1 lo (fun k => ops k + tally r.2 k) kids
  rest : r.1 = { f with
    iterationCount := f.iterationCount + 1, iterations := r.1.iterations, nextIterRoots := [],
    numOutstandingIterations := r.1.numOutstandingIterations, deadExits := [] }

/-- The new iteration stays if the one before it is live, or if the first deferred root starts a
consumer. -/
theorem incrementIteration_spec (h : Window f lo ops kids)
    (hroom : f.iterationCount + 2 ≤ lo + f.maxParallelIterations) (fuel : Nat) :
    Sat (fun e => e = .lostIteration ∧ f.iterationCount < lo ∧
        ∀ r rs, f.nextIterRoots = r :: rs → ¬StartingRoot g r)
      (Incremented f lo ops kids) (incrementIteration g (fuel + 5) f) := by
  have hlo := h.lo_le
  let k := f.iterationCount + 1
  let f0 := f.allocateIteration g
  have hderef : f0.deref k = .ok (.new g k) := by
    have hget : f0.getIteration k = some (.new g k) := update_self ..
    rw [deref, hget]
    exact if_pos rfl
  obtain ⟨f1, ready1, done1, f2, heach1, -, hadj1, htally1, hcases1⟩ :=
    deliver_spec (h.allocate g hroom) hlo rfl f.nextIterRoots fuel
  -- nothing that starts a consumer was delivered
  have hlost : lo = k → ready1.length = 0 → f.iterationCount < lo ∧
      ∀ r rs, f.nextIterRoots = r :: rs → ¬StartingRoot g r := by
    refine fun heq hzero => ⟨by omega, fun r rs hroots hroot => ?_⟩
    rw [hroots] at heach1
    exact activateEach_ne_nil hderef rfl hroot heach1 (length_eq_zero_iff.mp hzero)
  have hnexts : activateNexts g (fuel + 4) f0 k = .ok (f2, ready1 ++ []) := by
    rw [activateNexts]
    show (activateEach g k f0 f.nextIterRoots >>= _) = _
    rw [heach1]
    show (adjustOutstandingOpsLocked g (fuel + 3) { f1 with nextIterRoots := [] } k
      ready1.length >>= _) = _
    rw [hadj1]
    rfl
  rw [incrementIteration, hnexts]
  simp only [bind, Except.bind]
  rcases hcases1 with ⟨hrest1, hwin1⟩ | ⟨hlatest1, heq, hzero⟩
  · have hcount1 : f2.iterationCount = k := by
      rw [hrest1]
      rfl
    obtain ⟨f3, ready2, done2, f4, heach2, hroots2, hadj2, -, hcases2⟩ :=
      deliver_spec hwin1 hlo hcount1 f2.invValues fuel
    have hclear : { f3 with nextIterRoots := [] } = f3 := by
      rw [hrest1] at hroots2
      obtain ⟨_, _, _, _, _, _, _, _⟩ := f3
      cases hroots2
      rfl
    have hinvs : activateLoopInvs g (fuel + 4) f2 k = .ok (f4, ready2 ++ []) := by
      rw [hclear] at hadj2
      rw [activateLoopInvs, heach2]
      show (adjustOutstandingOpsLocked g (fuel + 3) f3 k ready2.length >>= _) = _
      rw [hadj2]
      rfl
    simp only [hwin1.isLatest hlo hcount1, Bool.not_true, Bool.false_eq_true, if_false]
    rw [hinvs]
    simp only [append_nil]
    rcases hcases2 with ⟨hrest2, hwin2⟩ | ⟨hlatest2, heq, hzero⟩
    · simp only [hwin2.isLatest hlo (by rw [hrest2]; exact hcount1), Bool.not_true,
        Bool.false_eq_true, if_false]
      refine ⟨?_, ?_⟩
      · simpa only [tally_append, ← Nat.add_assoc] using hwin2
      · rw [hrest2, hrest1]
        rfl
    · simp only [hlatest2, Bool.not_false, if_true]
      exact ⟨rfl, hlost heq (by omega)⟩
  · simp only [hlatest1, Bool.not_false, if_true]
    exact ⟨rfl, hlost heq (by omega)⟩

/-! ## Cleaning up -/

/-- What is known of a frame with `ops` nodes and `kids` child frames in each iteration.  A frame
that is done has no iterations left, and with `A` any other is awake. -/
def Held (A : Prop) (done : Bool) (f : FrameState) (ops kids : Nat → Nat) : Prop :=
  ∃ lo, Window f lo ops kids ∧ Deferred f lo ∧ (done = true → lo = f.iterationCount + 1) ∧
    (A → done = false → Awake f lo ops kids)

structure Follows (g : Graph) (f f' : FrameState) : Prop where
  pending : f'.numPendingInputs = f.numPendingInputs
  horizon_le : f'.horizon ≤ f.horizon
  starts : Starts g f → Starts g f'

theorem Follows.refl (f : FrameState) : Follows g f f := ⟨rfl, Nat.le_refl _, id⟩

theorem Follows.trans {f1 f2 : FrameState} (h1 : Follows g f f1) (h2 : Follows g f1 f2) :
    Follows g f f2 :=
  ⟨h2.pending.trans h1.pending, le_trans h2.horizon_le h1.horizon_le, h2.starts ∘ h1.starts⟩

variable {A : Prop}

/-- What an operation of the frame leaves, when `ops` counts the ops that run afterwards apart from
those in `ready`. -/
def Swept (g : Graph) (A : Prop) (f : FrameState) (ops kids : Nat → Nat)
    (r : Bool × FrameState × List IterReady) : Prop :=
  Held A r.1 r.2.1 (fun j => ops j + tally r.2.2 j) kids ∧ Follows g f r.2.1

theorem Swept.append {f1 : FrameState}
    {r : Bool × FrameState × List IterReady} (hr : Swept g A f1 ops' kids r)
    (hops : ∀ j, ops' j = ops j + tally ready j) (hf : Follows g f f1) :
    Swept g A f ops kids (r.1, r.2.1, ready ++ r.2.2) := by
  refine ⟨?_, hf.trans hr.2⟩
  have heq : (fun j => ops j + tally (ready ++ r.2.2) j) = fun j => ops' j + tally r.2.2 j := by
    funext j
    rw [tally_append, hops, Nat.add_assoc]
  rw [heq]
  exact hr.1

theorem Window.stop (h : Window f lo ops kids) (hdef : Deferred f lo)
    (hawake : A → lo ≤ f.iterationCount → Awake f lo ops kids) :
    Swept g A f ops kids (f.isFrameDone, f, []) := by
  refine ⟨⟨lo, h, hdef, fun hdone => (h.isFrameDone_iff.mp hdone).2, ?_⟩, .refl f⟩
  intro ha hdone hin
  have hlo : lo ≤ f.iterationCount + 1 := h.lo_le
  have hne : lo ≠ f.iterationCount + 1 := by
    intro heq
    rw [h.isFrameDone_iff.mpr ⟨hin, heq⟩] at hdone
    cases hdone
  exact hawake ha (by omega) hin

/-- The induction is on the fuel.  Every round deletes the oldest iteration, or the loop ends at an
iteration that is not done, and the deferred roots start at most one new iteration. -/
theorem cleanupIterations_spec {fuel : Nat} (h : Window f lo ops kids) (hdef : Deferred f lo)
    (hlo : lo ≤ k) (hk : k ≤ f.iterationCount + 1) (hawake : A → k ≠ lo → Awake f lo ops kids)
    (hfuel : f.horizon + 8 ≤ k + fuel) :
    Sat (fun e => e = .lostIteration ∧ ¬Starts g f) (Swept g A f ops kids)
      (cleanupIterations g fuel f k) := by
  induction fuel generalizing f lo ops k with
  | zero =>
    rw [horizon] at hfuel
    omega
  | succ fuel ih =>
    rw [cleanupIterations]
    by_cases hle : k ≤ f.iterationCount
    · obtain ⟨it, hget, -⟩ := h.live k hlo hle
      rw [if_pos hle, hget]
      dsimp only
      by_cases hdone : f.isIterationDone it = true
      · obtain ⟨rfl, hops, hkids, hin⟩ := h.done_elim hlo hle hget hdone
        have hdel := h.delete hle hops hkids hin
        rw [if_pos hdone]
        by_cases hroots : f.nextIterRoots = []
        · have hempty : (f.deleteIteration k).nextIterRoots.isEmpty = true :=
            isEmpty_iff.mpr hroots
          rw [if_pos hempty]
          refine (ih hdel (fun hne => absurd hroots hne) le_rfl (Nat.succ_le_succ hle)
            (fun _ hne => absurd rfl hne) ?_).bind (fun r hr => ?_)
          · show f.horizon + 8 ≤ k + 1 + fuel
            omega
          · exact hr.append (fun _ => rfl) ⟨rfl, le_rfl, id⟩
        · have hempty : ¬(f.deleteIteration k).nextIterRoots.isEmpty = true :=
            mt isEmpty_iff.mp hroots
          have hfull := hdef hroots
          have hhor : f.horizon = f.iterationCount + 1 := by rw [horizon, if_neg hroots]
          have hroom : f.iterationCount + 2 ≤ k + 1 + f.maxParallelIterations := by omega
          obtain ⟨fuel', rfl⟩ : ∃ fuel', fuel = fuel' + 5 := ⟨fuel - 5, by omega⟩
          rw [if_neg hempty]
          -- a full frame without a live iteration has room for one only
          refine ((incrementIteration_spec hdel hroom fuel').imp
            (fun e he => ⟨he.1, fun hstarts => ?starts⟩) (fun _ => id)).bind (fun r hr => ?_)
          case starts =>
            have hlt : f.iterationCount < k + 1 := he.2.1
            obtain ⟨r, rs, hrs⟩ := exists_cons_of_ne_nil hroots
            exact he.2.2 r rs hrs (hstarts (by omega) r (hrs ▸ mem_cons_self))
          have hcount : r.1.iterationCount = f.iterationCount + 1 := by
            rw [hr.rest]
            rfl
          have hnil : r.1.nextIterRoots = [] := by rw [hr.rest]
          have hhor' : r.1.horizon = f.iterationCount + 1 := by rw [horizon, if_pos hnil, hcount]
          have hstarts : Starts g r.1 := fun _ x hx => absurd (hnil ▸ hx) not_mem_nil
          refine ((ih hr.window (fun hne => absurd hnil hne) le_rfl (by omega)
            (fun _ hne => absurd rfl hne) (by omega)).imp (fun _ he => absurd hstarts he.2)
            (fun _ => id)).bind (fun r' hr' => hr'.append (fun _ => rfl) ⟨?_, by omega, fun _ => hstarts⟩)
          rw [hr.rest]
          rfl
      · rw [if_neg hdone]
        apply h.stop hdef
        intro ha _
        by_cases heq : k = lo
        · subst heq
          intro hin
          refine ⟨hle, ?_⟩
          by_contra hno
          exact hdone (h.done_intro hin hle hget (by omega) (by omega))
        · exact hawake ha heq
    · rw [if_neg hle]
      apply h.stop hdef
      intro ha hlo'
      exact hawake ha (by omega)

end Operations

end FrameState
end TfReading.Executor
