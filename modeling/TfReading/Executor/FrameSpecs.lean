import TfReading.Executor.Iterations
import TfReading.Executor.Propagator

/-!
# What completing a node does to its frame

Every branch of `PropagateOutputs` keeps what is known of the frames it touches.  The node that
completes is counted as outstanding until its own decrement.  An `Enter` node reports its input
only after the last look at the counts, so it may leave a frame that is not awake.
-/

namespace TfReading.Executor

open Outcome List FrameState

/-- The faults that are not excluded.  With `S` no iteration is lost. -/
def Fault.Allowed (S : Prop) : Fault → Prop
  | .lostIteration => ¬S
  | .danglingIteration => True
  | .missingFrame => True
  | .outOfFuel => False

theorem deref_sat (S : Prop) (f : FrameState) (k : Nat) :
    Sat (Fault.Allowed S) (fun it => f.deref k = .ok it) (f.deref k) := by
  cases hd : f.deref k with
  | ok => rfl
  | error e =>
    rw [deref] at hd
    split at hd
    · split at hd
      · cases hd
      · cases hd
        trivial
    · cases hd
      trivial

/-- Some consumer waits for nothing but the edges of the node. -/
def IterationState.awaits (g : Graph) (item : NodeItem) (isDead : Bool) (outputs : List Entry)
    (it : IterationState) : Bool :=
  item.consumers.any fun n => !(arriveAll (g.node n) (it.counts n, [])
    (arrivalsTo n (messages item isDead outputs))).2.isEmpty

variable {it : IterationState} {outputs : List Entry} {item : NodeItem} {isDead : Bool}

theorem IterationState.activateNodes_of_awaits {g : Graph}
    (h : it.awaits g item isDead outputs = true) :
    (it.activateNodes g item isDead outputs).2 ≠ [] := by
  obtain ⟨n, -, hn⟩ := any_eq_true.mp h
  intro hnil
  have hflags := (it.activateNodes_node g n item isDead outputs).2
  rw [hnil] at hflags
  rw [← hflags] at hn
  cases hn

namespace FrameState

variable {g : Graph} {A S : Prop} {f : FrameState} {lo k : Nat} {kids kids' ops rest : Nat → Nat}

theorem horizon_le (f : FrameState) : f.horizon ≤ f.iterationCount + 1 := by
  rw [horizon]
  split <;> omega

/-- What the operations keep of a frame.  `A` tracks that it is awake, and `S` that its deferred
roots start a consumer. -/
structure Holds (g : Graph) (A S : Prop) (done : Bool) (f : FrameState) (ops kids : Nat → Nat) :
    Prop where
  held : Held A done f ops kids
  starts : S → Starts g f
  pending : A → 0 ≤ f.numPendingInputs

/-- A fault of an operation on a frame whose deferred roots start a consumer. -/
theorem allowed_of_lost (hstarts : S → Starts g f) (e : Fault)
    (h : e = .lostIteration ∧ ¬Starts g f) : Fault.Allowed S e := by
  rw [h.1]
  exact fun hS => h.2 (hstarts hS)

theorem Holds.follow {f' : FrameState} {done done' : Bool} {ops' : Nat → Nat}
    (h : Holds g A S done f ops kids) (hheld : Held A done' f' ops' kids') (hf : Follows g f f') :
    Holds g A S done' f' ops' kids' :=
  ⟨hheld, hf.starts ∘ h.starts, fun hA => hf.pending ▸ h.pending hA⟩

theorem Holds.eq_zero (h : Holds g A S true f ops kids) (k : Nat) : ops k = 0 ∧ kids k = 0 := by
  obtain ⟨lo, hwin, -, hdone, -⟩ := h.held
  have hlo := hdone rfl
  by_contra hne
  have hlive := hwin.counted k (by omega)
  omega

variable (h : Holds g A S false f ops kids) {limit : Nat}

include h

theorem Holds.grow {it' : IterationState} {ops' : Nat → Nat}
    (hd : f.deref k = .ok it) (hnum : it'.iterNum = it.iterNum)
    {m n : Nat} (hops : it'.outstandingOps = it.outstandingOps + m)
    (hops' : ∀ j, ops' j = ops j + if j = k then m else 0)
    (hkids : it'.outstandingFrameCount = it.outstandingFrameCount + n)
    (hkids' : ∀ j, kids' j = kids j + if j = k then n else 0) :
    Holds g A S false (f.setIteration k (some it')) ops' kids' := by
  obtain ⟨lo, hwin, hdef, -, hawake⟩ := h.held
  obtain ⟨hlo, hk, hnum', hit, hcount⟩ := hwin.of_deref hd
  refine h.follow ⟨lo, hwin.set hlo hk (hnum.trans hnum') ?_ (fun j hj => ?_) ?_ (fun j hj => ?_),
    hdef, nofun, fun hA _ hzero => ?_⟩ ⟨rfl, le_rfl, id⟩
  · rw [hops, hit, hops', if_pos rfl]
    rfl
  · rw [hops', if_neg hj, Nat.add_zero]
  · rw [hkids, hcount, hkids', if_pos rfl]
    rfl
  · rw [hkids', if_neg hj, Nat.add_zero]
  · obtain ⟨hle, hbusy⟩ := hawake hA rfl hzero
    refine ⟨hle, ?_⟩
    rw [hops', hkids']
    omega

/-! ## Adjusting the ops of an iteration -/

section Adjust

variable {delta : Int} {ops' : Nat → Nat} {it : IterationState}
  (hd : f.deref k = .ok it) (hk : (ops' k : Int) = ops k + delta)
  (hops : ∀ j, j ≠ k → ops' j = ops j)

include hd hk hops

/-- The frame is left with an adjusted iteration that is not done, or is cleaned up from there. -/
theorem adjusted_spec :
    let f1 := f.setIteration k (some { it with outstandingOps := it.outstandingOps + delta })
    ((it.outstandingOps + delta ≠ 0 ∨
        f1.isIterationDone { it with outstandingOps := it.outstandingOps + delta } = false) →
      Swept g A f ops' kids (false, f1, [])) ∧
    ∀ fuel, f.iterationCount + 11 ≤ fuel →
      Sat (Fault.Allowed S) (Swept g A f ops' kids) (cleanupIterations g fuel f1 k) := by
  obtain ⟨lo, hwin, hdef, -, hawake⟩ := h.held
  obtain ⟨hlo, hle, -, hit, -⟩ := hwin.of_deref hd
  have hset := hwin.adjust hd hk hops
  refine ⟨fun hnot => ⟨⟨lo, hset, hdef, nofun, fun hA _ hin => ?_⟩, ⟨rfl, le_rfl, id⟩⟩,
    fun fuel hfuel => ?_⟩
  · obtain ⟨hcount, hold⟩ := hawake hA rfl hin
    refine ⟨hcount, ?_⟩
    show ops' lo ≠ 0 ∨ kids lo ≠ 0
    by_cases heq : k = lo
    · subst heq
      by_contra hno
      have hdone := hset.done_intro hin hle (getIteration_setIteration_self f k _) (by omega)
        (by omega)
      rw [hdone] at hnot
      rcases hnot with hne | hfalse
      · omega
      · cases hfalse
    · rw [hops lo (Ne.symm heq)]
      exact hold
  · have hhor := f.horizon_le
    refine (cleanupIterations_spec hset hdef hlo (Nat.le_succ_of_le hle) (fun hA hne hin => ?_)
      ?_).imp (allowed_of_lost h.starts) (fun r hr => ⟨hr.1, hr.2.pending, hr.2.horizon_le, hr.2.starts⟩)
    · rw [hops lo hne.symm]
      exact hawake hA rfl hin
    · show f.horizon + 8 ≤ k + fuel
      omega

theorem adjustOutstandingOpsLocked_spec :
    Sat (Fault.Allowed S) (Swept g A f ops' kids)
      (adjustOutstandingOpsLocked g f.fuel f k delta) := by
  obtain ⟨hstay, hclean⟩ := adjusted_spec h hd hk hops
  rw [fuel, adjustOutstandingOpsLocked_succ hd]
  split
  next hne => exact hstay (.inl hne)
  · exact hclean _ le_rfl

theorem adjustOutstandingOpsShared_spec :
    Sat (Fault.Allowed S) (Swept g A f ops' kids) (f.adjustOutstandingOpsShared g k delta) := by
  obtain ⟨hstay, hclean⟩ := adjusted_spec h hd hk hops
  rw [adjustOutstandingOpsShared, adjustOutstandingOpsFastPath, hd]
  simp only [bind, Except.bind, pure, Except.pure]
  split
  · exact hclean _ (Nat.le_succ _)
  next hnot =>
    rw [Bool.and_eq_true, decide_eq_true_eq, Classical.not_and_iff_not_or_not,
      Bool.not_eq_true] at hnot
    exact hstay hnot

end Adjust

theorem Holds.activate (hd : f.deref k = .ok it) (item : NodeItem)
    (isDead : Bool) (outputs : List Entry) :
    ∃ f1 ready it1, activateNodesLocked g f item isDead k outputs = .ok (f1, ready) ∧
      Holds g A S false f1 ops kids ∧ Follows g f f1 ∧ f1.deref k = .ok it1 ∧
      ready.length = (it.activateNodes g item isDead outputs).2.length ∧
      ∀ j, tally ready j = if j = k then ready.length else 0 := by
  obtain ⟨lo, hwin, hdef, -, hawake⟩ := h.held
  obtain ⟨hlo, hle, -⟩ := hwin.of_deref hd
  have hact := activateNodesLocked_spec (g := g) hwin hd item isDead outputs
  obtain ⟨it1, hd1⟩ := hact.window.deref_eq hlo hle
  have hf : Follows g f (f.setIteration k (some (it.activateNodes g item isDead outputs).1)) :=
    ⟨rfl, le_rfl, id⟩
  exact ⟨_, _, it1, activateNodesLocked_eq hd item isDead outputs,
    h.follow ⟨lo, hact.window, hdef, nofun, hawake⟩ hf, hf, hd1, length_map _,
    tally_same hact.same⟩

theorem Swept.keeps {r : Bool × FrameState × List IterReady} (hr : Swept g A f ops kids r) :
    Holds g A S false r.2.1 (fun j => ops j + tally r.2.2 j) kids := by
  obtain ⟨⟨lo, hwin, hdef, hdone, hawake⟩, hf⟩ := hr
  refine h.follow ⟨lo, hwin, hdef, nofun, fun hA _ => ?_⟩ hf
  cases hflag : r.1 with
  | false => exact hawake hA hflag
  | true =>
    intro hzero
    have hlo := hdone hflag
    obtain ⟨lo', -, -, -, hold⟩ := h.held
    obtain ⟨-, hbusy⟩ := hold hA rfl (hf.pending ▸ hzero)
    have hlive := hwin.counted lo' (by omega)
    omega

theorem activateAndAdjust_spec (item : NodeItem) (isDead : Bool) (k : Nat) (outputs : List Entry) :
    Sat (Fault.Allowed S) (fun r => Holds g A S false r.1 (fun j => ops j + tally r.2 j) kids ∧
        Follows g f r.1 ∧ ∀ it, f.deref k = .ok it →
          (it.activateNodes g item isDead outputs).2.length ≤ tally r.2 k)
      (f.activateAndAdjust g item isDead k outputs) := by
  have hsat := deref_sat S f k
  cases hd : f.deref k with
  | error =>
    rw [hd] at hsat
    rw [activateAndAdjust, activateNodesLocked, hd]
    exact hsat
  | ok it =>
    obtain ⟨f1, ready, it1, heq, h1, hf, hd1, hready, htally⟩ := h.activate hd item isDead outputs
    have hself : ((ops k + tally ready k : Nat) : Int) = ops k + (ready.length : Int) := by
      rw [htally, if_pos rfl]
      omega
    have hother : ∀ j, j ≠ k → ops j + tally ready j = ops j := by
      intro j hj
      rw [htally, if_neg hj, Nat.add_zero]
    rw [activateAndAdjust, heq]
    refine (adjustOutstandingOpsLocked_spec h1 hd1 hself hother).bind (fun r hr => ?_)
    have hr := hr.append (fun _ => rfl) hf
    refine ⟨hr.keeps h, hr.2, fun it' hd' => ?_⟩
    obtain rfl : it = it' := Except.ok.inj hd'
    rw [tally_append, htally, if_pos rfl, hready]
    exact Nat.le_add_right _ _

/-! ## Enter and Exit -/

/-- The induction is on the fuel.  The bound of the loop can grow by one while there are deferred
roots, and the horizon accounts for that.  The first round delivers to iteration `i`. -/
theorem addLoopInvFrom_spec (item : NodeItem) (entry : Entry) {fuel i : Nat} (hpos : 1 ≤ fuel)
    (hfuel : f.horizon + 2 ≤ i + fuel) :
    Sat (Fault.Allowed S) (fun r => Holds g A S false r.1 (fun j => ops j + tally r.2 j) kids ∧
        Follows g f r.1 ∧ (i ≤ f.iterationCount → ∀ it, f.deref i = .ok it →
          (it.activateNodes g item entry.isNoValue [entry]).2.length ≤ tally r.2 i))
      (addLoopInvFrom g item entry fuel f i) := by
  induction fuel generalizing f ops i with
  | zero => omega
  | succ fuel ih =>
    rw [addLoopInvFrom]
    split
    · cases hget : f.getIteration i with
      | none => trivial
      | some it =>
        have hle : f.iterationCount ≤ f.horizon := Nat.le_add_right _ _
        refine (activateAndAdjust_spec h item entry.isNoValue it.iterNum [entry]).bind
          (fun r hr => ?_)
        have hhor := hr.2.1.horizon_le
        refine (ih hr.1 (by omega) (by omega)).bind
          (fun r' hr' => ⟨?_, hr.2.1.trans hr'.2.1, ?_⟩)
        · simpa only [tally_append, Nat.add_assoc] using hr'.1
        · intro _ it' hd'
          have heq : it' = it ∧ it.iterNum = i := by
            rw [deref, hget] at hd'
            dsimp only at hd'
            split at hd'
            next hnum => exact ⟨(Except.ok.inj hd').symm, hnum⟩
            next => cases hd'
          obtain ⟨rfl, hnum⟩ := heq
          have hfirst := hr.2.2 it' (hnum ▸ hd')
          rw [tally_append, ← hnum]
          omega
    next hi => exact ⟨h, .refl f, fun hle => absurd hle hi⟩

/-- What an `Enter` node hands on: a loop invariant is stored first. -/
def handedOn (isConstant isDead : Bool) (outputs : List Entry) : Bool × List Entry :=
  if isConstant then ((outputs.getD 0 .noValue).isNoValue, [outputs.getD 0 .noValue])
  else (isDead, outputs)

/-- The last input of the frame finds something outstanding in iteration 0, or starts a node
there. -/
def staysBusy (g : Graph) (item : NodeItem) (isConstant isDead : Bool) (outputs : List Entry)
    (f : FrameState) : Bool :=
  f.numPendingInputs ≠ 1 ||
    match f.getIteration 0 with
    | none => true
    | some it => it.outstandingOps ≠ 0 || it.outstandingFrameCount ≠ 0 ||
        it.awaits g item (handedOn isConstant isDead outputs).1
          (handedOn isConstant isDead outputs).2

omit h in
theorem staysBusy_elim {isConstant : Bool}
    (h : f.staysBusy g item isConstant isDead outputs = true) (hin : f.numPendingInputs = 1)
    (hget : f.getIteration 0 = some it) :
    it.outstandingOps ≠ 0 ∨ it.outstandingFrameCount ≠ 0 ∨
      it.awaits g item (handedOn isConstant isDead outputs).1
        (handedOn isConstant isDead outputs).2 = true := by
  simpa [staysBusy, hin, hget, or_assoc] using h

section Enter

variable {item : NodeItem} {isConstant isDead : Bool} {outputs : List Entry}
  (hbusy : A → 0 < f.numPendingInputs ∧
    f.staysBusy g item isConstant isDead outputs = true)

include hbusy

theorem Holds.report_input {f1 : FrameState} {ready : List IterReady}
    (h1 : Holds g A S false f1 (fun j => ops j + tally ready j) kids) (hf : Follows g f f1)
    (hready : ∀ it, f.deref 0 = .ok it →
      (it.activateNodes g item (handedOn isConstant isDead outputs).1
        (handedOn isConstant isDead outputs).2).2.length ≤ tally ready 0) :
    Holds g A S false { f1 with numPendingInputs := f1.numPendingInputs - 1 }
      (fun j => ops j + tally ready j) kids := by
  obtain ⟨lo, hwin, -⟩ := h.held
  obtain ⟨lo1, hwin1, hdef1, -⟩ := h1.held
  have hin := hf.pending
  refine ⟨⟨lo1, hwin1.congr rfl rfl rfl rfl (by simp), hdef1, nofun, fun hA _ hzero => ?_⟩,
    h1.starts, fun hA => ?_⟩
  · obtain ⟨hpos, hbusy⟩ := hbusy hA
    -- This was the last input, so no iteration has been deleted yet.
    have hone : f.numPendingInputs = 1 := by
      have hzero : f1.numPendingInputs - 1 = 0 := hzero
      omega
    have hfirst : lo = 0 ∧ lo1 = 0 := by
      have hle := hwin.entered
      have hle1 := hwin1.entered
      omega
    obtain ⟨rfl, rfl⟩ := hfirst
    obtain ⟨it, hget, hnum, hops, hkids⟩ := hwin.live 0 le_rfl (Nat.zero_le _)
    have hd : f.deref 0 = .ok it := by simp [deref, hget, hnum]
    refine ⟨Nat.zero_le _, ?_⟩
    show ops 0 + tally ready 0 ≠ 0 ∨ kids 0 ≠ 0
    rcases staysBusy_elim hbusy hone hget with hne | hne | hawaits
    · omega
    · omega
    · have hpos := length_pos_iff.mpr (IterationState.activateNodes_of_awaits hawaits)
      have hle := hready it hd
      omega
  · show 0 ≤ f1.numPendingInputs - 1
    have hpos := (hbusy hA).1
    omega

theorem enter_spec :
    Sat (Fault.Allowed S) (fun r => Holds g A S false r.2.1 (fun j => ops j + tally r.2.2 j) kids)
      (f.enter g item isConstant isDead outputs) := by
  cases isConstant with
  | false =>
    exact (activateAndAdjust_spec h item isDead 0 outputs).bind (fun r hr =>
      h.report_input hbusy hr.1 hr.2.1 hr.2.2)
  | true =>
    obtain ⟨lo, hwin, hdef, hdone, hawake⟩ := h.held
    have hhor := f.horizon_le
    have hstored : Holds g A S false { f with
        invValues := f.invValues ++ [(item, outputs.getD 0 .noValue)] } ops kids :=
      ⟨⟨lo, hwin.congr rfl rfl rfl rfl (Int.le_refl _), hdef, hdone, hawake⟩, h.starts, h.pending⟩
    refine (addLoopInvFrom_spec hstored item _ ?_ ?_).bind (fun r hr =>
      h.report_input hbusy hr.1 ⟨hr.2.1.pending, hr.2.1.horizon_le, hr.2.1.starts⟩
        (hr.2.2 (Nat.zero_le _)))
    · show 1 ≤ f.iterationCount + 12
      omega
    · show f.horizon + 2 ≤ 0 + (f.iterationCount + 12)
      omega

end Enter

theorem exit_spec (item : NodeItem) (isDead : Bool) (iter : Nat)
    (outputs : List Entry) :
    Sat (Fault.Allowed S) (fun r => Holds g A S false r.2.1 (fun j => ops j + tally r.2.2 j) kids)
      (f.exit g item isDead iter outputs) :=
  (activateAndAdjust_spec h item isDead iter outputs).bind (fun _ hr => hr.1)

/-! ## The decrement at the end of a node -/

/-- What an operation leaves of a frame in which `ops` nodes were outstanding. -/
def Leaves (g : Graph) (A S : Prop) (ops kids : Nat → Nat)
    (r : Bool × FrameState × List IterReady) : Prop :=
  Holds g A S r.1 r.2.1 (fun j => ops j + tally r.2.2 j) kids

section Branches

variable (hcnt : ∀ j, ops j = rest j + if j = k then 1 else 0)

include hcnt

theorem exists_deref :
    (∃ it, f.deref k = .ok it) ∧ ops k = rest k + 1 ∧ ∀ j, j ≠ k → rest j = ops j := by
  have hk := hcnt k
  rw [if_pos rfl] at hk
  obtain ⟨lo, hwin, -⟩ := h.held
  obtain ⟨hlo, hle⟩ := hwin.counted k (by omega)
  refine ⟨hwin.deref_eq hlo hle, hk, fun j hj => ?_⟩
  rw [hcnt j, if_neg hj, Nat.add_zero]

theorem decrement_spec :
    Sat (Fault.Allowed S) (Leaves g A S rest kids)
      (adjustOutstandingOpsLocked g f.fuel f k (-1)) := by
  obtain ⟨⟨it, hd⟩, hk, hother⟩ := exists_deref h hcnt
  exact (adjustOutstandingOpsLocked_spec h hd (by omega) hother).imp (fun _ => id)
    (fun r hr => h.follow hr.1 hr.2)

theorem adjustOutstandingOps_spec :
    Sat (Fault.Allowed S) (Leaves g A S rest kids) (f.adjustOutstandingOps g k (-1)) := by
  obtain ⟨⟨it, hd⟩, hk, hother⟩ := exists_deref h hcnt
  exact (adjustOutstandingOpsShared_spec h hd (by omega) hother).imp (fun _ => id)
    (fun r hr => h.follow hr.1 hr.2)

theorem activateNodesAndAdjustOutstanding_spec (item : NodeItem) (isDead : Bool)
    (outputs : List Entry) :
    Sat (Fault.Allowed S) (Leaves g A S rest kids)
      (activateNodesAndAdjustOutstanding g f item isDead k outputs) := by
  obtain ⟨⟨it, hd⟩, hk, hrest⟩ := exists_deref h hcnt
  obtain ⟨f1, ready, it1, heq, h1, hf, hd1, -, htally⟩ := h.activate hd item isDead outputs
  have hself : ((rest k + tally ready k : Nat) : Int) = ops k + ((ready.length : Int) - 1) := by
    rw [htally, if_pos rfl]
    omega
  have hother : ∀ j, j ≠ k → rest j + tally ready j = ops j := by
    intro j hj
    rw [htally, if_neg hj, Nat.add_zero, hrest j hj]
  have hlast : ∀ r, Swept g A f1 (fun j => rest j + tally ready j) kids r →
      Leaves g A S rest kids (r.1, r.2.1, ready ++ r.2.2) := by
    intro r hr
    have hr := hr.append (fun _ => rfl) hf
    exact h.follow hr.1 hr.2
  rw [activateNodesAndAdjustOutstanding, heq]
  split
  · exact (adjustOutstandingOpsLocked_spec h1 hd1 hself hother).bind hlast
  · exact (adjustOutstandingOpsShared_spec h1 hd1 hself hother).bind hlast

theorem deadExit_spec (item : NodeItem) :
    Sat (Fault.Allowed S) (Leaves g A S rest kids) (f.deadExit g item k) := by
  rw [deadExit]
  split
  · obtain ⟨lo, hwin, hdef, hdone, hawake⟩ := h.held
    have hkept : Holds g A S false { f with deadExits := f.deadExits ++ [item] } ops kids :=
      ⟨⟨lo, hwin.congr rfl rfl rfl rfl (Int.le_refl _), hdef, hdone, hawake⟩, h.starts, h.pending⟩
    exact decrement_spec hkept hcnt
  · exact decrement_spec h hcnt

/-- A live `NextIteration` node either is deferred in a full frame or delivers to the next
iteration. -/
theorem startNext_spec (item : NodeItem) (isDead : Bool) (outputs : List Entry)
    (hroot : S → isDead = false → f.maxParallelIterations = 1 →
      StartingRoot g (item, outputs.getD 0 .noValue)) :
    Sat (Fault.Allowed S) (fun r => Holds g A S false r.1 (fun j => ops j + tally r.2 j) kids)
      (f.startNext g item isDead k outputs) := by
  obtain ⟨-, hk, -⟩ := exists_deref h hcnt
  obtain ⟨lo, hwin, hdef, hdone, hawake⟩ := h.held
  obtain ⟨hlo, hle⟩ := hwin.counted k (by omega)
  have hout := hwin.outstanding
  have hfits := hwin.fits
  rw [startNext]
  cases isDead with
  | true => exact h
  | false =>
    by_cases hlast : k = f.iterationCount
    · rw [if_pos hlast]
      by_cases hfull : f.numOutstandingIterations = f.maxParallelIterations
      · rw [if_pos hfull]
        refine ⟨⟨lo, hwin.congr rfl rfl rfl rfl (Int.le_refl _), fun _ => ?_, hdone, hawake⟩,
          fun hS hone r hr => ?_, h.pending⟩
        · show f.iterationCount + 1 = lo + f.maxParallelIterations
          omega
        · rcases mem_append.mp hr with hr | hr
          · exact h.starts hS hone r hr
          · exact mem_singleton.mp hr ▸ hroot hS rfl hone
      · rw [if_neg hfull]
        have hroom : f.iterationCount + 2 ≤ lo + f.maxParallelIterations := by omega
        refine ((incrementIteration_spec hwin hroom (f.iterationCount + 7)).imp
          (fun e he => absurd he.2.1 (by omega)) (fun _ => id)).bind (fun r hr => ?_)
        have hkept : Holds g A S false r.1 (fun j => ops j + tally r.2 j) kids := by
          have hnil : r.1.nextIterRoots = [] := by rw [hr.rest]
          have hin : r.1.numPendingInputs = f.numPendingInputs := by rw [hr.rest]
          have hcount : r.1.iterationCount = f.iterationCount + 1 := by rw [hr.rest]
          refine ⟨⟨lo, hr.window, fun hne => absurd hnil hne, nofun, fun hA _ hzero => ?_⟩,
            fun _ _ x hx => absurd (hnil ▸ hx) not_mem_nil, fun hA => hin ▸ h.pending hA⟩
          obtain ⟨-, hbusy⟩ := hawake hA rfl (hin ▸ hzero)
          show lo ≤ _ ∧ (ops lo + tally r.2 lo ≠ 0 ∨ kids lo ≠ 0)
          omega
        refine (activateAndAdjust_spec hkept item false (k + 1) outputs).bind (fun r' hr' => ?_)
        show Holds g A S false r'.1 (fun j => ops j + tally (r.2 ++ r'.2) j) kids
        simpa only [tally_append, Nat.add_assoc] using hr'.1
    · rw [if_neg hlast]
      exact (activateAndAdjust_spec h item false (k + 1) outputs).imp (fun _ => id)
        (fun _ hr => hr.1)

theorem nextIteration_spec (item : NodeItem) (isDead : Bool) (outputs : List Entry)
    (hroot : S → isDead = false → f.maxParallelIterations = 1 →
      StartingRoot g (item, outputs.getD 0 .noValue)) :
    Sat (Fault.Allowed S) (Leaves g A S rest kids) (f.nextIteration g item isDead k outputs) := by
  refine (startNext_spec h hcnt item isDead outputs hroot).bind (fun r hr => ?_)
  have hcnt' : ∀ j, ops j + tally r.2 j = (rest j + tally r.2 j) + if j = k then 1 else 0 := by
    intro j
    rw [hcnt j]
    omega
  refine (decrement_spec hr hcnt').bind (fun r' hr' => ?_)
  show Holds g A S r'.1 r'.2.1 (fun j => rest j + tally (r.2 ++ r'.2.2) j) kids
  simpa only [Leaves, tally_append, Nat.add_assoc] using hr'

end Branches

theorem cleanup_spec (hkids : ∀ j, kids j = kids' j + if j = k then 1 else 0) :
    Sat (Fault.Allowed S) (Leaves g A S ops kids')
      (do
        let it ← f.deref k
        let f1 := f.setIteration k
          (some { it with outstandingFrameCount := it.outstandingFrameCount - 1 })
        cleanupIterations g f1.fuel f1 k) := by
  obtain ⟨lo, hwin, hdef, -, hawake⟩ := h.held
  have hk := hkids k
  rw [if_pos rfl] at hk
  refine (deref_sat S f k).bind (fun it hd => ?_)
  obtain ⟨hlo, hle, hnum, hops, hcount⟩ := hwin.of_deref hd
  have hother : ∀ j, j ≠ k → kids' j = kids j := by
    intro j hj
    rw [hkids j, if_neg hj, Nat.add_zero]
  have hnum' : ({ it with outstandingFrameCount := it.outstandingFrameCount - 1 } :
      IterationState).iterNum = k := hnum
  have hset := hwin.set hlo hle hnum' hops (fun _ _ => rfl)
    (show it.outstandingFrameCount - 1 = kids' k by omega) hother
  have hhor := f.horizon_le
  refine (cleanupIterations_spec hset hdef hlo (Nat.le_succ_of_le hle) (fun hA hne hin => ?_)
    ?_).imp (allowed_of_lost h.starts)
    (fun r hr => h.follow hr.1 ⟨hr.2.pending, hr.2.horizon_le, hr.2.starts⟩)
  · rw [hother lo hne.symm]
    exact hawake hA rfl hin
  · show f.horizon + 8 ≤ k + (f.iterationCount + 12)
    omega

omit h

theorem new_window (g : Graph) (hlimit : 1 ≤ limit) (inputCount : Nat) :
    Window (new g limit inputCount) 0 (fun _ => 0) (fun _ => 0) := by
  have hslot : (new g limit inputCount).slot 0 = 0 := Nat.zero_mod _
  have hfirst : (new g limit inputCount).iterations 0 =
      some (.new g 0) := rfl
  refine ⟨hlimit, Nat.zero_le _, rfl, ?_, ?_, ?_, ?_, nofun⟩
  · show 0 + 1 ≤ 0 + limit
    omega
  · intro k _ hk
    obtain rfl : k = 0 := Nat.le_zero.mp hk
    exact ⟨.new g 0, by rw [getIteration, hslot, hfirst], rfl, rfl, rfl⟩
  · intro k it hget
    by_cases hk : (new g limit inputCount).slot k = 0
    · rw [getIteration, hk, hfirst, Option.some.injEq] at hget
      subst hget
      exact ⟨le_rfl, le_rfl, hslot.trans hk.symm⟩
    · have hnone : (new g limit inputCount).getIteration k = none := dif_neg hk
      rw [hnone] at hget
      cases hget
  · intro k hk
    omega

theorem new_holds (g : Graph) (hlimit : 1 ≤ limit) {inputCount : Nat} (hpos : A → 0 < inputCount) :
    Holds g A S false (new g limit inputCount) (fun _ => 0) (fun _ => 0) := by
  refine ⟨⟨0, new_window g hlimit inputCount, fun hne => absurd rfl hne, nofun,
    fun hA _ hzero => ?_⟩, nofun,
    fun _ => Int.natCast_nonneg _⟩
  have hzero : (inputCount : Int) = 0 := hzero
  have hpos := hpos hA
  omega

end FrameState
end TfReading.Executor
