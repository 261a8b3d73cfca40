import Mathlib.Data.Finset.Card
import TfReading.Executor.FrameSpecs

/-!
# The frames of an execution

What is known of every outstanding frame, with the nodes that run and the frames that are entered
in each of its iterations, survives every call of `PropagateOutputs`.
-/

namespace TfReading.Executor

open Outcome List Finset IterationState FrameState IterReady

def tallyIn (nodes : List TaggedNode) (id : FrameId) (k : Nat) : Nat :=
  nodes.countP (fun t => t.frame = id ∧ t.iterNum = k)

@[simp]
theorem tallyIn_append (xs ys : List TaggedNode) (id : FrameId) (k : Nat) :
    tallyIn (xs ++ ys) id k = tallyIn xs id k + tallyIn ys id k :=
  countP_append

theorem tallyIn_tag (ready : List IterReady) (id : FrameId) (k : Nat) :
    tallyIn (ready.map (tag id)) id k = tally ready k := by
  rw [tallyIn, countP_map, tally]
  refine countP_congr (fun r _ => ?_)
  simp only [Function.comp_apply, tag, true_and]

variable {id id' : FrameId}

theorem tallyIn_tag_of_ne (ready : List IterReady) (h : id' ≠ id) (k : Nat) :
    tallyIn (ready.map (tag id)) id' k = 0 := by
  rw [tallyIn, countP_map, countP_eq_zero]
  intro r _
  simp [tag, h.symm]

theorem tallyIn_mk (ready : List ReadyNode) (id : FrameId) (iter : Nat) (id' : FrameId) (k : Nat) :
    tallyIn (ready.map fun r => (mk iter r).tag id) id' k =
      if id' = id ∧ k = iter then ready.length else 0 := by
  rw [tallyIn, countP_map]
  split
  next h =>
    rw [countP_eq_length]
    simp [tag, h]
  next h =>
    rw [countP_eq_zero]
    intro r _
    simp only [Function.comp_apply, tag, decide_eq_true_eq]
    exact fun hr => h ⟨hr.1.symm, hr.2.symm⟩

def isChild (id : FrameId) (k : Nat) : FrameId → Bool
  | [] => false
  | (_, iter) :: parent => id = parent ∧ k = iter

def childCount (ids : Finset FrameId) (id : FrameId) (k : Nat) : Nat :=
  (ids.filter fun child => isChild id k child).card

variable {ids : Finset FrameId} {frameName iter : Nat} {parent : FrameId}

theorem childCount_insert (hnew : (frameName, iter) :: parent ∉ ids) (id : FrameId) (k : Nat) :
    childCount (insert ((frameName, iter) :: parent) ids) id k =
      childCount ids id k + if id = parent ∧ k = iter then 1 else 0 := by
  rw [childCount, filter_insert, childCount]
  by_cases h : id = parent ∧ k = iter
  · have his : isChild id k ((frameName, iter) :: parent) = true := decide_eq_true h
    rw [if_pos h, if_pos his, card_insert_of_notMem]
    exact fun hmem => hnew (mem_of_mem_filter _ hmem)
  · have his : ¬isChild id k ((frameName, iter) :: parent) = true := fun hc =>
      h (of_decide_eq_true hc)
    rw [if_neg h, if_neg his, Nat.add_zero]

theorem childCount_erase (hmem : (frameName, iter) :: parent ∈ ids) (id : FrameId) (k : Nat) :
    childCount ids id k = childCount (ids.erase ((frameName, iter) :: parent)) id k +
      if id = parent ∧ k = iter then 1 else 0 := by
  rw [← childCount_insert (notMem_erase _ _), insert_erase hmem]

theorem childCount_erase_root (ids : Finset FrameId) : childCount (ids.erase []) = childCount ids := by
  funext id k
  rw [childCount, childCount, filter_erase, erase_eq_of_notMem]
  intro hmem
  exact absurd (mem_filter.mp hmem).2 (by simp [isChild])

theorem exists_child {k : Nat} (h : childCount ids id k ≠ 0) :
    ∃ frameName, (frameName, k) :: id ∈ ids := by
  obtain ⟨child, hchild⟩ := card_pos.mp (Nat.pos_of_ne_zero h)
  obtain ⟨hmem, his⟩ := mem_filter.mp hchild
  match child with
  | [] => cases his
  | (frameName, iter) :: parent =>
    obtain ⟨rfl, rfl⟩ := of_decide_eq_true his
    exact ⟨frameName, hmem⟩

namespace PropagatorState

variable {s : PropagatorState}

@[simp]
theorem setFrame_self (s : PropagatorState) (id : FrameId) (f : Option FrameState) :
    (s.setFrame id f).frames id = f :=
  Function.update_self ..

theorem setFrame_forall {x : Option FrameState}
    {motive : FrameId → Option FrameState → Prop} (hself : motive id x)
    (hother : ∀ id', id' ≠ id → motive id' (s.frames id')) (id' : FrameId) :
    motive id' ((s.setFrame id x).frames id') := by
  by_cases hid : id' = id
  · rw [hid, setFrame_self]
    exact hself
  · exact (congrArg (motive id') (Function.update_of_ne hid ..)).mpr (hother id' hid)

def reported (done : Bool) (id : FrameId) : FrameId → Bool := fun id' => done && decide (id' = id)

/-- `ids` are the outstanding frames, and `done` says which of them are about to be deleted. -/
structure Outstanding (g : Graph) (A S : Prop) (s : PropagatorState) (ids : Finset FrameId)
    (done : FrameId → Bool) (cnt kids : FrameId → Nat → Nat) : Prop where
  mem_iff : ∀ id, id ∈ ids ↔ (s.frames id).isSome
  frame : ∀ id f, s.frames id = some f → FrameState.Holds g A S (done id) f (cnt id) (kids id)
  absent : ∀ id, s.frames id = none → ∀ k, cnt id k = 0 ∧ kids id k = 0

variable {g : Graph} {A S : Prop} {s : PropagatorState} {ids : Finset FrameId}
    {done done' : FrameId → Bool} {cnt cnt' kids kids' rest : FrameId → Nat → Nat} {id : FrameId}
    {outputs : List Entry} {f : FrameState} {t : TaggedNode}

theorem Outstanding.set (h : Outstanding g A S s ids done cnt kids)
    (hf : FrameState.Holds g A S (done' id) f (cnt' id) (kids' id))
    (hoff : ∀ id', id' ≠ id → done' id' = done id' ∧ cnt' id' = cnt id' ∧ kids' id' = kids id') :
    Outstanding g A S (s.setFrame id (some f)) (insert id ids) done' cnt' kids' := by
  constructor
  · exact setFrame_forall (motive := fun id' x => id' ∈ insert id ids ↔ x.isSome) (by simp)
      fun id' hid => by simp [hid, h.mem_iff]
  · refine setFrame_forall (motive := fun id x => ∀ f, x = some f →
      FrameState.Holds g A S (done' id) f (cnt' id) (kids' id))
      (fun f' hf' => Option.some.inj hf' ▸ hf) fun id' hid => ?_
    obtain ⟨hd, hc, hk⟩ := hoff id' hid
    rw [hd, hc, hk]
    exact h.frame id'
  · refine setFrame_forall (motive := fun id x => x = none → ∀ k, cnt' id k = 0 ∧ kids' id k = 0)
      nofun fun id' hid => ?_
    obtain ⟨-, hc, hk⟩ := hoff id' hid
    rw [hc, hk]
    exact h.absent id'

theorem Outstanding.mem (h : Outstanding g A S s ids done cnt kids)
    (hf : s.frames id = some f) : id ∈ ids := by
  rw [h.mem_iff, hf]
  rfl

theorem Outstanding.erase (h : Outstanding g A S s ids done cnt kids)
    (hoff : ∀ id', id' ≠ id → done' id' = done id')
    (hzero : ∀ k, cnt id k = 0 ∧ kids id k = 0) :
    Outstanding g A S (s.setFrame id none) (ids.erase id) done' cnt kids := by
  constructor
  · exact setFrame_forall (motive := fun id' x => id' ∈ ids.erase id ↔ x.isSome) (by simp)
      fun id' hid => by simp [hid, h.mem_iff]
  · refine setFrame_forall (motive := fun id x => ∀ f, x = some f →
      FrameState.Holds g A S (done' id) f (cnt id) (kids id)) nofun fun id' hid => ?_
    rw [hoff id' hid]
    exact h.frame id'
  · exact setFrame_forall (motive := fun id x => x = none → ∀ k, cnt id k = 0 ∧ kids id k = 0)
      (fun _ => hzero) fun id' _ => h.absent id'

theorem getFrame_sat (S : Prop) (s : PropagatorState) (id : FrameId) :
    Sat (Fault.Allowed S) (fun f => s.frames id = some f) (s.getFrame id) := by
  rw [getFrame]
  split
  next f hf => exact hf
  next => trivial

theorem onFrame_outstanding {α : Type} (h : Outstanding g A S s ids (fun _ => false) cnt kids)
    (hoff : ∀ id', id' ≠ id → cnt' id' = cnt id' ∧ kids' id' = kids id')
    {op : FrameState → Except Fault (α × FrameState × List IterReady)} (report : α → Bool)
    (hop : ∀ f, s.frames id = some f → FrameState.Holds g A S false f (cnt id) (kids id) →
      Sat (Fault.Allowed S) (fun r => FrameState.Holds g A S (report r.1) r.2.1
        (fun k => cnt' id k + tally r.2.2 k) (kids' id)) (op f)) :
    Sat (Fault.Allowed S) (fun r => Outstanding g A S r.2.1 ids (reported (report r.1) id)
      (fun id' k => cnt' id' k + tallyIn r.2.2 id' k) kids') (s.onFrame id op) := by
  refine (getFrame_sat S s id).bind (fun f hf => ?_)
  refine (hop f hf (h.frame id f hf)).bind (fun r hr => ?_)
  rw [← insert_eq_of_mem (h.mem hf)]
  refine h.set ?_ (fun id' hid => ⟨?_, funext (fun k => ?_), (hoff id' hid).2⟩)
  · simp only [tallyIn_tag, reported, decide_true, Bool.and_true]
    exact hr
  · simp only [reported, hid, decide_false, Bool.and_false]
  · rw [tallyIn_tag_of_ne _ hid, (hoff id' hid).1, Nat.add_zero]

/-! ## Entering frames -/

def enteredFrame (g : Graph) (s : PropagatorState) (id : FrameId) (iter frameName : Nat) :
    FrameState :=
  (s.frames ((frameName, iter) :: id)).getD
    (FrameState.new g (g.parallelIterations frameName) (g.inputCount frameName))

theorem findOrCreateChildFrame_outstanding
    (h : Outstanding g A S s ids (fun _ => false) cnt (childCount ids)) (id : FrameId)
    (iter frameName : Nat) (hcreate : s.frames ((frameName, iter) :: id) = none →
      FrameState.Holds g A S false (s.enteredFrame g id iter frameName) (fun _ => 0) (fun _ => 0)) :
    Sat (Fault.Allowed S) (fun r => r.2 = (frameName, iter) :: id ∧
        r.1.frames r.2 = some (s.enteredFrame g id iter frameName) ∧
        ∃ ids', Outstanding g A S r.1 ids' (fun _ => false) cnt (childCount ids'))
      (s.findOrCreateChildFrame g id iter frameName) := by
  rw [enteredFrame] at hcreate ⊢
  rw [findOrCreateChildFrame]
  split
  next f hf =>
    rw [hf]
    exact ⟨rfl, hf, ids, h⟩
  next hnone =>
    set child : FrameId := (frameName, iter) :: id
    have hcreate := hcreate hnone
    rw [hnone, Option.getD_none] at hcreate ⊢
    refine (getFrame_sat S s id).bind (fun f hf => (deref_sat S f iter).bind
      (fun it hd => ?_))
    have hnew : child ∉ ids := by
      rw [h.mem_iff, hnone]
      exact Bool.false_ne_true
    have hcount := childCount_insert hnew
    -- The parent counts the new frame before it is there.
    have hparent : Outstanding g A S (s.setFrame id (some (f.setIteration iter
        (some { it with outstandingFrameCount := it.outstandingFrameCount + 1 }))))
        (insert id ids) (fun _ => false) cnt (childCount (insert child ids)) := by
      refine h.set ((h.frame id f hf).grow hd rfl (m := 0) (by simp) (by simp) rfl
        fun j => ?_) (fun id' hid => ⟨rfl, rfl, funext (fun k => ?_)⟩)
      · rw [hcount]
        simp only [true_and]
      · rw [hcount, if_neg (fun hk => hid hk.1), Nat.add_zero]
    rw [insert_eq_of_mem (h.mem hf)] at hparent
    refine ⟨rfl, setFrame_self .., _, hparent.set ?_ (fun _ _ => ⟨rfl, rfl, rfl⟩)⟩
    have hcnt : cnt child = fun _ => 0 := funext (fun k => (h.absent _ hnone k).1)
    have hchild : childCount (insert child ids) child = fun _ => 0 := by
      funext k
      have hne : child ≠ id := cons_ne_self _ _
      rw [hcount, if_neg (fun hk => hne hk.1), (h.absent _ hnone k).2]
    rw [hcnt, hchild]
    exact hcreate

/-! ## Deleting frames -/

theorem deadExits_count (g : Graph) (exits : List NodeItem) (it : IterationState) :
    let s := exits.foldl (propagateDeadExit g) (it, [])
    s.1.iterNum = it.iterNum ∧ s.1.outstandingOps = it.outstandingOps + s.2.length ∧
      s.1.outstandingFrameCount = it.outstandingFrameCount := by
  -- the difference of ops and ready nodes is kept by every edge
  let Same (s s' : IterationState × List ReadyNode) : Prop :=
    s'.1.iterNum = s.1.iterNum ∧
      s'.1.outstandingOps - s'.2.length = s.1.outstandingOps - s.2.length ∧
      s'.1.outstandingFrameCount = s.1.outstandingFrameCount
  have hstep : ∀ deliver s d, Same s (deadExitStep g deliver s d) := by
    intro deliver s d
    simp only [Same, deadExitStep]
    split
    · refine ⟨rfl, ?_, rfl⟩
      simp only [length_append, length_singleton]
      omega
    · exact ⟨rfl, rfl, rfl⟩
  have htrans : ∀ {s s' s''}, Same s s' → Same s' s'' → Same s s'' := fun h h' =>
    ⟨h'.1.trans h.1, h'.2.1.trans h.2.1, h'.2.2.trans h.2.2⟩
  have hfold : ∀ deliver (ds : List Nat) s,
      Same s (ds.foldl (deadExitStep g deliver) s) := fun deliver ds s =>
    foldlRecOn ds _ ⟨rfl, rfl, rfl⟩ fun s' h d _ => htrans h (hstep deliver s' d)
  have hexits : Same (it, []) (exits.foldl (propagateDeadExit g) (it, [])) :=
    foldlRecOn exits _ ⟨rfl, rfl, rfl⟩ fun s' h item _ =>
      htrans h (htrans (hfold deadExitData _ s') (hfold deadExitControl _ _))
  obtain ⟨hnum, hops, hkids⟩ := hexits
  refine ⟨hnum, ?_, hkids⟩
  simp only [length_nil] at hops
  omega

theorem deleteFrame_outstanding (id : FrameId)
    (h : Outstanding g A S s ids (reported true id) cnt kids) :
    Sat (Fault.Allowed S) (fun r => Outstanding g A S r.1 (ids.erase id) (fun _ => false)
        (fun id' k => cnt id' k + tallyIn r.2 id' k) kids ∧ id ∈ ids)
      (s.deleteFrame g id) := by
  refine (getFrame_sat S s id).bind (fun f hf => ?_)
  have hoff : ∀ id', id' ≠ id → false = reported true id id' := fun id' hid => by
    simp [reported, hid]
  have hzero : ∀ k, cnt id k = 0 ∧ kids id k = 0 := by
    have hdone := h.frame id f hf
    rw [reported, decide_eq_true rfl] at hdone
    exact hdone.eq_zero
  cases id with
  | nil => exact ⟨h.erase hoff hzero, h.mem hf⟩
  | cons step parent =>
    obtain ⟨frameName, parentIter⟩ := step
    have hne : parent ≠ (frameName, parentIter) :: parent := (cons_ne_self _ _).symm
    refine (getFrame_sat S s parent).bind (fun p hp => (deref_sat S p parentIter).bind
      (fun it hd => ?_))
    have hp' := h.frame parent p hp
    rw [← hoff parent hne] at hp'
    have hexits := deadExits_count g f.deadExits it
    generalize f.deadExits.foldl (propagateDeadExit g) (it, []) = exits at hexits ⊢
    have hready := tallyIn_mk exits.2 parent parentIter
    have hparent : Outstanding g A S
        (s.setFrame parent (some (p.setIteration parentIter (some exits.1)))) (insert parent ids)
        (reported true ((frameName, parentIter) :: parent))
        (fun id' k => cnt id' k + tallyIn (exits.2.map
          (fun r => (IterReady.mk parentIter r).tag parent)) id' k) kids := by
      refine h.set ?_ (fun id' hid => ⟨rfl, funext (fun k => ?_), rfl⟩)
      · rw [← hoff parent hne]
        refine hp'.grow hd hexits.1 hexits.2.1 (fun j => ?_) (n := 0) (by simp [hexits.2.2])
          (by simp)
        rw [hready]
        simp only [true_and]
      · rw [hready, if_neg (fun hk => hid hk.1), Nat.add_zero]
    rw [insert_eq_of_mem (h.mem hp)] at hparent
    refine ⟨hparent.erase hoff (fun k => ?_), h.mem hf⟩
    rw [hready, if_neg (fun hk => hne hk.1.symm), Nat.add_zero]
    exact hzero k

/-- The outstanding frames are in order, with the nodes in `ready` counted on top of `rest`. -/
def Accounted (g : Graph) (A S : Prop) (done : FrameId → Bool) (rest : FrameId → Nat → Nat)
    (s : PropagatorState) (ready : List TaggedNode) : Prop :=
  ∃ ids, Outstanding g A S s ids done (fun id k => rest id k + tallyIn ready id k) (childCount ids)

theorem Accounted.append {ready ready' : List TaggedNode}
    (h : Accounted g A S done (fun id k => rest id k + tallyIn ready id k) s ready') :
    Accounted g A S done rest s (ready ++ ready') := by
  obtain ⟨ids, h⟩ := h
  refine ⟨ids, ?_⟩
  simpa only [tallyIn_append, Nat.add_assoc] using h

/-- The induction follows the chain of parents. -/
theorem frameDone_outstanding (id : FrameId)
    (h : Outstanding g A S s ids (reported true id) cnt (childCount ids)) :
    Sat (Fault.Allowed S) (fun r => Accounted g A S (fun _ => false) cnt r.1 r.2)
      (s.frameDone g id) := by
  induction id generalizing s ids cnt with
  | nil =>
    refine (deleteFrame_outstanding [] h).imp (fun _ => id) (fun r hr => ⟨ids.erase [], ?_⟩)
    rw [childCount_erase_root]
    exact hr.1
  | cons step parent ih =>
    obtain ⟨frameName, parentIter⟩ := step
    refine (deleteFrame_outstanding _ h).bind (fun r1 h1 => ?_)
    obtain ⟨h1, hmem⟩ := h1
    have hcount := childCount_erase hmem
    have hoff : ∀ id', id' ≠ parent →
        childCount (ids.erase ((frameName, parentIter) :: parent)) id' = childCount ids id' := by
      intro id' hid
      funext k
      rw [hcount, if_neg (fun hk => hid hk.1), Nat.add_zero]
    refine (onFrame_outstanding h1 (fun id' hid => ⟨rfl, hoff id' hid⟩) (fun done => done)
      (fun f _ hf => cleanup_spec hf (fun j => ?_))).bind (fun r2 h2 => ?_)
    · rw [hcount]
      simp only [true_and]
    · simp only
      split
      next hd =>
        rw [hd] at h2
        refine (ih h2).bind (fun r3 h3 => ?_)
        rw [append_assoc]
        exact h3.append.append
      next hd =>
        rw [Bool.not_eq_true] at hd
        rw [hd] at h2
        exact .append ⟨ids.erase ((frameName, parentIter) :: parent), h2⟩

/-! ## Completing a node -/

/-- An `Enter` node finds a frame that allows an iteration and still waits for the input, and the
last one leaves it busy. -/
def entersBusy (g : Graph) (s : PropagatorState) (t : TaggedNode) (outputs : List Entry) : Bool :=
  match (g.node t.nodeId).kind with
  | .enter isConstant frameName _ =>
    let f := s.enteredFrame g t.frame t.iterNum frameName
    1 ≤ f.maxParallelIterations && 0 < f.numPendingInputs &&
      f.staysBusy g (g.node t.nodeId) isConstant t.isDead outputs
  | _ => true

/-- What depends on the node: the frame that an `Enter` node finds or creates, and the root that a
`NextIteration` node may leave. -/
structure Serves (g : Graph) (A S : Prop) (s : PropagatorState) (t : TaggedNode)
    (outputs : List Entry) : Prop where
  limit_pos : ∀ isConstant frameName p, (g.node t.nodeId).kind = .enter isConstant frameName p →
    s.frames ((frameName, t.iterNum) :: t.frame) = none → 1 ≤ g.parallelIterations frameName
  busy : A → s.entersBusy g t outputs = true
  starts : S → (g.node t.nodeId).kind = .nextIteration → t.isDead = false →
    ∀ f, s.frames t.frame = some f → f.maxParallelIterations = 1 →
      StartingRoot g (g.node t.nodeId, outputs.getD 0 .noValue)

theorem Serves.enter (h : Serves g A S s t outputs)
    {isConstant : Bool} {p : Nat} (hkind : (g.node t.nodeId).kind = .enter isConstant frameName p) :
    A → 0 < (s.enteredFrame g t.frame t.iterNum frameName).numPendingInputs ∧
      (s.enteredFrame g t.frame t.iterNum frameName).staysBusy g (g.node t.nodeId) isConstant
        t.isDead outputs = true := by
  intro hA
  have hbusy := h.busy hA
  rw [entersBusy, hkind] at hbusy
  simp only [Bool.and_eq_true, decide_eq_true_eq] at hbusy
  exact ⟨hbusy.1.2, hbusy.2⟩

section Complete

variable {rest : FrameId → Nat → Nat} {t : TaggedNode} (hcnt : ∀ id j, cnt id j = rest id j +
  if id = t.frame ∧ j = t.iterNum then 1 else 0)
  (h : Outstanding g A S s ids (fun _ => false) cnt (childCount ids))

include hcnt h

theorem onFrame_decremented
    {op : FrameState → Except Fault (Bool × FrameState × List IterReady)}
    (hop : ∀ f, s.frames t.frame = some f →
      FrameState.Holds g A S false f (cnt t.frame) (childCount ids t.frame) →
      (∀ j, cnt t.frame j = rest t.frame j + if j = t.iterNum then 1 else 0) →
      Sat (Fault.Allowed S) (FrameState.Leaves g A S (rest t.frame) (childCount ids t.frame)) (op f)) :
    Sat (Fault.Allowed S) (fun r => Accounted g A S (reported r.1 t.frame) rest r.2.1 r.2.2)
      (s.onFrame t.frame op) := by
  refine (onFrame_outstanding h (fun id hid => ⟨funext (fun k => ?_), rfl⟩) (fun done => done)
    (fun f hf hheld => hop f hf hheld fun j => ?_)).imp (fun _ => id) (fun _ hr => ⟨ids, hr⟩)
  · rw [hcnt id k, if_neg (fun hk => hid hk.1), Nat.add_zero]
  · rw [hcnt t.frame j]
    simp only [true_and]

theorem propagateItem_outstanding (hserves : Serves g A S s t outputs) :
    Sat (Fault.Allowed S) (fun r => Accounted g A S (reported r.1 t.frame) rest r.2.1 r.2.2)
      (s.propagateItem g t outputs) := by
  have hplain := onFrame_decremented hcnt h
    (fun f _ hf hc =>
    activateNodesAndAdjustOutstanding_spec hf hc (g.node t.nodeId) t.isDead outputs)
  -- What remains once another frame has been served.
  have hlast : ∀ {s1 : PropagatorState} {ids1 : Finset FrameId} {ready : List TaggedNode},
      Outstanding g A S s1 ids1 (fun _ => false) (fun id k => cnt id k + tallyIn ready id k)
        (childCount ids1) →
      Sat (Fault.Allowed S) (fun r => Accounted g A S (reported r.1 t.frame) rest r.2.1 r.2.2)
        (s1.onFrame t.frame (fun f => f.adjustOutstandingOps g t.iterNum (-1)) >>= fun r =>
          .ok (r.1, r.2.1, ready ++ r.2.2)) := by
    intro s1 ids1 ready h1
    exact (onFrame_decremented (fun id j => by rw [hcnt, Nat.add_right_comm]) h1
      (fun _ _ => adjustOutstandingOps_spec)).bind (fun r hr => hr.append)
  rw [propagateItem]
  cases hkind : (g.node t.nodeId).kind with
  | ordinary | merge | controlTrigger => exact hplain
  | enter isConstant frameName =>
    have hbusy := hserves.enter hkind
    refine (findOrCreateChildFrame_outstanding h t.frame t.iterNum frameName fun hnone => ?_).bind
      (fun r1 h1 => ?_)
    · rw [enteredFrame, hnone, Option.getD_none] at hbusy ⊢
      exact new_holds g (hserves.limit_pos _ _ _ hkind hnone)
        (fun hA => Int.natCast_pos.mp (hbusy hA).1)
    obtain ⟨-, hchild, ids1, h1⟩ := h1
    refine (onFrame_outstanding h1 (fun _ _ => ⟨rfl, rfl⟩) (fun _ => false)
      (fun f hf hheld => ?_)).bind (fun r2 h2 => hlast h2)
    obtain rfl := Option.some.inj (hchild.symm.trans hf)
    exact enter_spec hheld hbusy
  | exit =>
    simp only
    cases hdead : t.isDead with
    | true => exact onFrame_decremented hcnt h (fun f _ hf hc => deadExit_spec hf hc _)
    | false =>
      rw [if_neg Bool.false_ne_true]
      split
      next => trivial
      next step parentIter parent hframe =>
        exact (onFrame_outstanding h (fun _ _ => ⟨rfl, rfl⟩) (fun _ => false) (fun f _ hf =>
          exit_spec hf (g.node t.nodeId) false parentIter outputs)).bind
          (fun r1 h1 => hlast h1)
  | nextIteration =>
    exact onFrame_decremented hcnt h (fun f hf hheld hc => nextIteration_spec hheld hc _
      t.isDead outputs (fun hS hdead => hserves.starts hS hkind hdead f hf))

theorem propagateOutputs_outstanding (hserves : Serves g A S s t outputs) :
    Sat (Fault.Allowed S) (fun r => Accounted g A S (fun _ => false) rest r.1 r.2)
      (s.propagateOutputs g t outputs) := by
  refine (propagateItem_outstanding hcnt h hserves).bind (fun r hr => ?_)
  obtain ⟨ids1, h1⟩ := hr
  simp only
  split
  next hd =>
    rw [hd] at h1
    exact (frameDone_outstanding t.frame h1).bind (fun r' hr' => hr'.append)
  next hd =>
    rw [Bool.not_eq_true] at hd
    rw [hd] at h1
    exact ⟨ids1, h1⟩

end Complete

end PropagatorState
end TfReading.Executor
