import Mathlib.Data.List.Induction
import TfReading.Executor.Activate

/-!
# Arrivals at one node

All that an iteration does to a node is a sequence of arrivals.  This file says
when such a sequence makes the node ready and with which deadness, first for
ordinary nodes, then for merge nodes.
-/

namespace TfReading.Executor

open List Arrival Counts

/-- A control trigger is never dead. -/
def readyFlag (dst : NodeItem) (d : Delivery) : Bool :=
  if dst.isControlTrigger then false else d.dstDead

theorem readyFlag_eq (dst : NodeItem) (d : Delivery) :
    readyFlag dst d = (!dst.isControlTrigger && d.dstDead) := by
  rw [readyFlag]
  cases dst.isControlTrigger <;> rfl

/-- The counts of a node, and one flag for each time it was put into the ready
queue. -/
def arriveOne (dst : NodeItem) (s : Counts × List Bool) (a : Arrival) : Counts × List Bool :=
  let d := arrive dst s.1 a
  (d.counts, if d.dstReady then s.2 ++ [readyFlag dst d] else s.2)

def arriveAll (dst : NodeItem) (s : Counts × List Bool) (as : List Arrival) :
    Counts × List Bool :=
  as.foldl (arriveOne dst) s

theorem arriveAll_append (dst : NodeItem) (s : Counts × List Bool) (as bs : List Arrival) :
    arriveAll dst s (as ++ bs) = arriveAll dst (arriveAll dst s as) bs :=
  foldl_append

theorem arriveAll_snoc (dst : NodeItem) (s : Counts × List Bool) (as : List Arrival)
    (a : Arrival) : arriveAll dst s (as ++ [a]) = arriveOne dst (arriveAll dst s as) a :=
  arriveAll_append dst s as [a]

theorem arriveAll_flags (dst : NodeItem) (s : Counts × List Bool) (as : List Arrival) :
    arriveAll dst s as =
      ((arriveAll dst (s.1, []) as).1, s.2 ++ (arriveAll dst (s.1, []) as).2) := by
  induction as using reverseRecOn with
  | nil => simp [arriveAll]
  | append_singleton as a ih =>
    rw [arriveAll_snoc, arriveAll_snoc, ih, arriveOne, arriveOne]
    refine Prod.ext rfl ?_
    split
    · rw [append_assoc]
    · rfl

/-! ## From activations to arrivals -/

structure Message where
  dstId : Nat
  arrival : Arrival
  input : Option (Nat × Entry)

def messages (item : NodeItem) (isDead : Bool) (outputs : List Entry) : List Message :=
  item.outputEdges.map (fun e => ⟨e.dstId,
      .data item.isEnter (IterationState.output outputs e).isNoValue isDead,
      some (e.inputSlot, IterationState.output outputs e)⟩) ++
    item.outputControlEdges.map (fun dstId => ⟨dstId, .control isDead, none⟩)

namespace IterationState

variable (g : Graph) {item : NodeItem} {d : Nat}

def send (s : IterationState × List ReadyNode) (m : Message) : IterationState × List ReadyNode :=
  slowStep g s.1 s.2 m.dstId m.arrival m.input

theorem fastStep_eq (h : g.isAnyConsumerMergeOrControlTrigger item = false)
    (hd : d ∈ item.consumers) (s : IterationState × List ReadyNode)
    (input : Option (Nat × Entry)) (fromEnter noValue srcDead : Bool) :
    fastStep s.1 s.2 d (srcDead || noValue) input =
        send g s ⟨d, .data fromEnter noValue srcDead, input⟩ ∧
      fastStep s.1 s.2 d srcDead input = send g s ⟨d, .control srcDead, input⟩ := by
  have hplain : (g.node d).isMerge = false ∧ (g.node d).isControlTrigger = false := by
    simpa using any_eq_false.mp h d hd
  simp [fastStep, send, slowStep, arrive, hplain]

theorem activateNodesFastPath_eq (h : g.isAnyConsumerMergeOrControlTrigger item = false)
    (isDead : Bool)
    (outputs : List Entry) (it : IterationState) :
    it.activateNodesFastPath item isDead outputs =
      (messages item isDead outputs).foldl (send g) (it, []) := by
  rw [messages, foldl_append, foldl_map, foldl_map, activateNodesFastPath]
  have hdata : ∀ s : IterationState × List ReadyNode, item.outputEdges.foldl (fun s e =>
      fastStep s.1 s.2 e.dstId (isDead || (output outputs e).isNoValue)
        (some (e.inputSlot, output outputs e))) s =
      item.outputEdges.foldl (fun s e => send g s ⟨e.dstId,
        .data item.isEnter (output outputs e).isNoValue isDead,
        some (e.inputSlot, output outputs e)⟩) s := by
    intro s
    refine foldl_ext _ _ s (fun s e he => ?_)
    exact (fastStep_eq g h (mem_append_left _ (mem_map_of_mem he)) s _ _ _ _).1
  rw [hdata]
  refine foldl_ext _ _ _ (fun s d hd => ?_)
  exact (fastStep_eq g h (mem_append_right _ hd) s _ false false _).2

/-- Both paths send the messages of the item one after the other. -/
theorem activateNodes_eq (item : NodeItem) (isDead : Bool) (outputs : List Entry)
    (it : IterationState) :
    it.activateNodes g item isDead outputs =
      (messages item isDead outputs).foldl (send g) (it, []) := by
  rw [activateNodes]
  split
  · rw [messages, foldl_append, foldl_map, foldl_map]
    rfl
  next h => rw [activateNodesFastPath_eq g (by simpa using h)]

theorem activateNodes_keeps (item : NodeItem) (isDead : Bool) (outputs : List Entry)
    (it : IterationState) :
    let it' := (it.activateNodes g item isDead outputs).1
    it'.iterNum = it.iterNum ∧ it'.outstandingOps = it.outstandingOps ∧
      it'.outstandingFrameCount = it.outstandingFrameCount := by
  rw [activateNodes_eq]
  exact foldlRecOn (messages item isDead outputs) (send g)
    (motive := fun s : IterationState × List ReadyNode =>
      s.1.iterNum = it.iterNum ∧ s.1.outstandingOps = it.outstandingOps ∧
        s.1.outstandingFrameCount = it.outstandingFrameCount)
    ⟨rfl, rfl, rfl⟩ fun _ h _ _ => h

def arrivalsTo (n : Nat) (ms : List Message) : List Arrival :=
  (ms.filter (fun m => m.dstId = n)).map Message.arrival

theorem arrivalsTo_messages (n : Nat) (item : NodeItem) (isDead : Bool) (outputs : List Entry) :
    arrivalsTo n (messages item isDead outputs) =
      (item.outputEdges.filter (fun e => e.dstId = n)).map
          (fun e => .data item.isEnter (output outputs e).isNoValue isDead) ++
        (item.outputControlEdges.filter (fun d => d = n)).map (fun _ => .control isDead) := by
  rw [arrivalsTo, messages, filter_append, filter_map, filter_map,
    map_append, map_map, map_map]
  rfl

def flagsOf (n : Nat) (ready : List ReadyNode) : List Bool :=
  (ready.filter (fun r => r.nodeId = n)).map ReadyNode.isDead

theorem flagsOf_append (n : Nat) (xs ys : List ReadyNode) :
    flagsOf n (xs ++ ys) = flagsOf n xs ++ flagsOf n ys := by
  rw [flagsOf, filter_append, map_append, flagsOf, flagsOf]

theorem send_self (m : Message) (s : IterationState × List ReadyNode) :
    ((send g s m).1.counts m.dstId, flagsOf m.dstId (send g s m).2) =
      arriveOne (g.node m.dstId) (s.1.counts m.dstId, flagsOf m.dstId s.2) m.arrival := by
  refine Prod.ext ?_ ?_
  · exact Function.update_self ..
  · simp only [send, slowStep, arriveOne]
    by_cases hr : (arrive (g.node m.dstId) (s.1.counts m.dstId) m.arrival).dstReady = true
    · rw [if_pos hr, if_pos hr, flagsOf_append]
      simp [flagsOf, readyFlag]
    · rw [if_neg hr, if_neg hr]

theorem send_of_ne {n : Nat} {m : Message} (hm : m.dstId ≠ n)
    (s : IterationState × List ReadyNode) :
    (send g s m).1.counts n = s.1.counts n ∧ flagsOf n (send g s m).2 = flagsOf n s.2 := by
  refine ⟨Function.update_of_ne hm.symm .., ?_⟩
  simp only [send, slowStep]
  split
  · rw [flagsOf_append]
    simp [flagsOf, hm]
  · rfl

/-- What a list of messages does to one node is what its arrivals do. -/
theorem foldl_send_eq (n : Nat) (ms : List Message) (s : IterationState × List ReadyNode) :
    ((ms.foldl (send g) s).1.counts n, flagsOf n (ms.foldl (send g) s).2) =
      arriveAll (g.node n) (s.1.counts n, flagsOf n s.2) (arrivalsTo n ms) := by
  induction ms generalizing s with
  | nil => rfl
  | cons m ms ih =>
    rw [foldl_cons, ih]
    by_cases hm : m.dstId = n
    · subst hm
      have hcons : arrivalsTo m.dstId (m :: ms) = m.arrival :: arrivalsTo m.dstId ms := by
        simp [arrivalsTo]
      rw [hcons, send_self]
      rfl
    · have hcons : arrivalsTo n (m :: ms) = arrivalsTo n ms := by
        simp [arrivalsTo, hm]
      rw [hcons, (send_of_ne g hm s).1, (send_of_ne g hm s).2]

theorem activateNodes_node (n : Nat) (item : NodeItem) (isDead : Bool) (outputs : List Entry)
    (it : IterationState) :
    let arrived := arriveAll (g.node n) (it.counts n, [])
      (arrivalsTo n (messages item isDead outputs))
    (it.activateNodes g item isDead outputs).1.counts n = arrived.1 ∧
      flagsOf n (it.activateNodes g item isDead outputs).2 = arrived.2 := by
  rw [activateNodes_eq]
  exact Prod.ext_iff.mp (foldl_send_eq g n (messages item isDead outputs) (it, []))

end IterationState

/-! ## Layouts that are wide enough -/

theorem createHandle_fits {maxPending maxDead : Nat} (hp : maxPending < 2 ^ 32)
    (hd : maxDead < 2 ^ 31) :
    maxPending < pendingModulus (createHandle maxPending maxDead) ∧
      maxDead < deadModulus (createHandle maxPending maxDead) := by
  rw [pendingModulus, deadModulus]
  by_cases hl : createHandle maxPending maxDead = true
  · rw [if_pos hl, if_pos hl]
    exact ⟨hp, hd⟩
  · rw [if_neg hl, if_neg hl]
    simp only [createHandle, kMaxCountForPackedCounts, gt_iff_lt, Bool.or_eq_true,
      decide_eq_true_eq, not_or, Nat.not_lt] at hl
    omega

/-! ## Ordinary nodes -/

namespace Arrival

def marksDead : Arrival → Bool
  | .data _ noValue srcDead => srcDead || noValue
  | .control srcDead => srcDead

def isControl : Arrival → Bool
  | .data .. => false
  | .control _ => true

def isLive : Arrival → Bool
  | .data _ noValue _ => !noValue
  | .control _ => false

def isDeadData : Arrival → Bool
  | .data _ noValue _ => noValue
  | .control _ => false

end Arrival

theorem length_eq_countP (as : List Arrival) :
    as.length = as.countP isControl + as.countP isLive +
      as.countP isDeadData := by
  induction as with
  | nil => rfl
  | cons a as ih =>
    cases a with
    | control =>
      simp only [length_cons, countP_cons, isControl, isLive,
        isDeadData, ih, if_true, Bool.false_eq_true, if_false]
      omega
    | data fromEnter noValue =>
      cases noValue <;>
        simp only [length_cons, countP_cons, isControl, isLive,
          isDeadData, ih, if_true, Bool.false_eq_true, if_false, Bool.not_true,
          Bool.not_false] <;> omega

section Snoc

variable (as : List Arrival) (fromEnter srcDead : Bool)

theorem countP_snoc_live : (as ++ [data fromEnter false srcDead]).countP isControl = as.countP isControl ∧
    (as ++ [data fromEnter false srcDead]).countP isLive = as.countP isLive + 1 ∧
    (as ++ [data fromEnter false srcDead]).countP isDeadData = as.countP isDeadData := by
  simp [countP_append, isControl, isLive, isDeadData]

theorem countP_snoc_dead : (as ++ [data fromEnter true srcDead]).countP isControl = as.countP isControl ∧
    (as ++ [data fromEnter true srcDead]).countP isLive = as.countP isLive ∧
    (as ++ [data fromEnter true srcDead]).countP isDeadData = as.countP isDeadData + 1 := by
  simp [countP_append, isControl, isLive, isDeadData]

theorem countP_snoc_control : (as ++ [control srcDead]).countP isControl = as.countP isControl + 1 ∧
    (as ++ [control srcDead]).countP isLive = as.countP isLive ∧
    (as ++ [control srcDead]).countP isDeadData = as.countP isDeadData := by
  simp [countP_append, isControl, isLive, isDeadData]

end Snoc

variable {dst : NodeItem}

theorem arrive_nonMerge (hdst : dst.isMerge = false) (c : Counts)
    (a : Arrival) : arrive dst c a = nonMerge a.marksDead c := by
  cases a with
  | data fromEnter noValue srcDead | control srcDead => simp [arrive, hdst, marksDead]

theorem nonMerge_eq {c : Counts} (h : c.InRange) (hp : 0 < c.pendingField)
    (hd : c.deadCount + 1 < deadModulus c.isLarge) (dead : Bool) :
    nonMerge dead c =
      ⟨{ c with pendingField := c.pendingField - 1, deadCount := c.deadCount + dead.toNat },
        c.pendingField - 1 == 0, c.deadCount + dead.toNat != 0, true⟩ := by
  have hstate := (nodeState_eq_iff h).mpr (Nat.ne_of_gt hp)
  have hmod : (c.deadCount + 1) % deadModulus c.isLarge = c.deadCount + 1 :=
    Nat.mod_eq_of_lt hd
  cases dead with
  | false =>
    simp [nonMerge, adjustForActivation, subPending_eq h hp, bne]
  | true =>
    have hsub := subPending_eq (h.incrementDeadCount) (v := 1)
      (by rw [incrementDeadCount_pendingField]; exact hp)
    simp only [nonMerge, adjustForActivation, if_true, hsub]
    simp [incrementDeadCount, hstate, hmod, bne]

/-- An ordinary node becomes ready with the last of its in-edges, and is dead when
one of them was. -/
theorem nonMerge_arrivals (hdst : dst.isMerge = false) {total : Nat}
    {big : Bool} (hp : total < pendingModulus big) (hd : total < deadModulus big)
    (as : List Arrival) (hlen : as.length ≤ total) :
    arriveAll dst (.setInitialCount big total, []) as =
      (⟨big, total - as.length, as.countP marksDead, false⟩,
        if as.length = total ∧ as ≠ [] then
          [!dst.isControlTrigger && as.any marksDead] else []) := by
  induction as using reverseRecOn with
  | nil =>
    simp [arriveAll, setInitialCount, Nat.mod_eq_of_lt hp]
  | append_singleton as a ih =>
    rw [length_append, length_singleton] at hlen
    rw [arriveAll_snoc, ih (by omega), arriveOne, arrive_nonMerge hdst]
    have hcount : as.countP marksDead ≤ as.length := countP_le_length
    have hrange : Counts.InRange ⟨big, total - as.length, as.countP marksDead, false⟩ :=
      ⟨by show total - as.length < pendingModulus big; omega, rfl⟩
    rw [nonMerge_eq hrange (by show 0 < total - as.length; omega)
      (by show as.countP marksDead + 1 < deadModulus big; omega)]
    have hnot : ¬(as.length = total ∧ as ≠ []) := by omega
    have hsnoc : (as ++ [a]).countP marksDead =
        as.countP marksDead + a.marksDead.toNat := by
      rw [countP_append, countP_singleton]
      cases a.marksDead <;> rfl
    have hany : (as.countP marksDead + a.marksDead.toNat != 0) =
        (as ++ [a]).any marksDead := by
      rw [← hsnoc, Bool.eq_iff_iff, bne_iff_ne, any_eq_true, ← countP_pos_iff]
      omega
    simp only [if_neg hnot, nil_append, hsnoc, readyFlag_eq, hany, length_append,
      length_singleton]
    have hlast : (total - as.length - 1 == 0) = true ↔ as.length + 1 = total ∧ as ++ [a] ≠ [] := by
      rw [beq_iff_eq]
      simp
      omega
    rw [if_congr hlast rfl rfl, Nat.sub_sub]

/-! ## Merge nodes -/

section Merge

theorem not_trigger_of_merge (hdst : dst.isMerge = true) :
    dst.isControlTrigger = false := by
  simp only [NodeItem.isMerge, decide_eq_true_eq] at hdst
  simp [NodeItem.isControlTrigger, hdst]

variable {dst : NodeItem} (hdst : dst.isMerge = true) {controls : Nat} {big : Bool}
  (hp : 1 + 2 * controls < Counts.pendingModulus big)
  (hd : dst.numInputs < Counts.deadModulus big)

structure MergePrefix (dst : NodeItem) (controls : Nat) (as : List Arrival) : Prop where
  control_le : as.countP isControl ≤ controls
  data_le : as.countP isLive + as.countP isDeadData ≤ dst.numInputs

variable {as : List Arrival} {a : Arrival}

theorem MergePrefix.of_snoc (h : MergePrefix dst controls (as ++ [a])) : MergePrefix dst controls as
    := by
  have hc := h.control_le
  have hdata := h.data_le
  simp only [countP_append] at hc hdata
  exact ⟨by omega, by omega⟩

/-- The counts of a merge: the lowest bit of the pending field is the absence of a
live input, the rest counts the missing control inputs.  The dead count is only
kept while the field is not zero. -/
structure MergeCounts (big : Bool) (controls : Nat) (as : List Arrival) (c : Counts) : Prop where
  isLarge_eq : c.isLarge = big
  notStarted : c.hasStarted = false
  pending_eq : c.pendingField =
    (if as.countP isLive = 0 then 1 else 0) + 2 * (controls - as.countP isControl)
  dead_eq : c.pendingField ≠ 0 → c.deadCount = as.countP isDeadData

variable {c : Counts} (h : MergeCounts big controls as c)

include hp h

theorem MergeCounts.inRange : c.InRange := by
  refine ⟨?_, h.notStarted⟩
  rw [h.isLarge_eq, h.pending_eq]
  split <;> omega

theorem MergeCounts.live (fromEnter srcDead : Bool) :
    MergeCounts big controls (as ++ [.data fromEnter false srcDead]) c.markLive := by
  have hpend := h.pending_eq
  have hmark := markLive_pendingField (h.inRange hp)
  have hfield : c.markLive.pendingField = 2 * (controls - as.countP isControl) := by
    rw [hmark, hpend]
    split <;> omega
  obtain ⟨hlarge, hstarted, hdead⟩ := markLive_keeps c
  refine ⟨hlarge.trans h.isLarge_eq, hstarted.trans h.notStarted, ?_, fun hne => ?_⟩
  · rw [(countP_snoc_live ..).1, (countP_snoc_live ..).2.1, hfield]
    simp
  · rw [hdead, (countP_snoc_live ..).2.2]
    exact h.dead_eq (by rw [hpend]; omega)

include hd

theorem MergeCounts.dead (fromEnter srcDead : Bool)
    (hpre : MergePrefix dst controls (as ++ [.data fromEnter true srcDead])) :
    MergeCounts big controls (as ++ [.data fromEnter true srcDead]) c.incrementDeadCount := by
  have hle := hpre.data_le
  simp only [countP_snoc_dead] at hle
  refine ⟨by rw [incrementDeadCount_isLarge]; exact h.isLarge_eq,
    h.inRange hp |>.incrementDeadCount.notStarted, ?_, fun hne => ?_⟩
  · rw [incrementDeadCount_pendingField, h.pending_eq]
    simp only [countP_snoc_dead]
  · rw [incrementDeadCount_pendingField] at hne
    have hdead := h.dead_eq hne
    have hlt : c.deadCount + 1 < deadModulus c.isLarge := by
      rw [hdead, h.isLarge_eq]
      omega
    rw [incrementDeadCount, if_pos ((nodeState_eq_iff (h.inRange hp)).mpr hne),
      (countP_snoc_dead ..).2.2, ← hdead]
    exact Nat.mod_eq_of_lt hlt

omit hd in
theorem MergeCounts.control (srcDead : Bool)
    (hpre : MergePrefix dst controls (as ++ [.control srcDead])) :
    MergeCounts big controls (as ++ [.control srcDead]) (c.decrementPending 2) := by
  have hle := hpre.control_le
  rw [(countP_snoc_control ..).1] at hle
  have hpend := h.pending_eq
  have hge : 2 ≤ c.pendingField := by rw [hpend]; omega
  have hfield : (c.decrementPending 2).pendingField = c.pendingField - 2 :=
    subPending_eq (h.inRange hp) hge
  refine ⟨h.isLarge_eq, h.notStarted, ?_, fun _ => ?_⟩
  · rw [hfield, hpend]
    simp only [countP_snoc_control]
    split <;> omega
  · show c.deadCount = _
    rw [h.dead_eq (by omega), (countP_snoc_control ..).2.2]

include hdst

theorem MergeCounts.arrive (hpre : MergePrefix dst controls (as ++ [a])) :
    MergeCounts big controls (as ++ [a]) (arrive dst c a).counts := by
  cases a with
  | data fromEnter noValue srcDead =>
    rw [Executor.arrive, if_pos hdst, mergeData]
    cases noValue with
    | false => exact h.live hp fromEnter srcDead
    | true => exact h.dead hp hd fromEnter srcDead hpre
  | control srcDead =>
    rw [Executor.arrive, if_pos hdst, mergeControl]
    exact h.control hp srcDead hpre

omit h in
theorem merge_counts (as : List Arrival) (hpre : MergePrefix dst controls as)
    (evs : List Bool) :
    MergeCounts big controls as
      (arriveAll dst (.setInitialCount big (1 + 2 * controls), evs) as).1 := by
  induction as using reverseRecOn with
  | nil =>
    exact ⟨rfl, rfl, by simp [arriveAll, setInitialCount, Nat.mod_eq_of_lt hp],
      fun _ => rfl⟩
  | append_singleton as a ih =>
    rw [arriveAll_snoc]
    exact (ih hpre.of_snoc).arrive hdst hp hd hpre

omit hdst hd

/-- The pending field is one exactly while only a data input is missing. -/
theorem MergeCounts.pending_eq_one (hle : as.countP isControl ≤ controls) :
    c.pending = 1 ↔ as.countP isLive = 0 ∧ as.countP isControl = controls := by
  rw [Counts.pending_eq (h.inRange hp), h.pending_eq]
  split <;> omega

include hdst

theorem MergeCounts.live_ready (fromEnter srcDead : Bool)
    (hpre : MergePrefix dst controls (as ++ [.data fromEnter false srcDead])) :
    ((Executor.arrive dst c (.data fromEnter false srcDead)).dstReady = true ↔
        as.countP isLive = 0 ∧ as.countP isControl = controls) ∧
      (Executor.arrive dst c (.data fromEnter false srcDead)).dstDead = false := by
  rw [Executor.arrive, if_pos hdst, mergeData]
  refine ⟨?_, rfl⟩
  show (c.pending == 1) = true ↔ _
  rw [beq_iff_eq]
  exact h.pending_eq_one hp hpre.of_snoc.control_le

include hd

theorem MergeCounts.dead_ready (fromEnter srcDead : Bool)
    (hpre : MergePrefix dst controls (as ++ [.data fromEnter true srcDead])) :
    ((Executor.arrive dst c (.data fromEnter true srcDead)).dstReady = true ↔
        as.countP isLive = 0 ∧ as.countP isControl = controls ∧
          (as.countP isDeadData + 1 = dst.numInputs ∨ fromEnter = true)) ∧
      ((Executor.arrive dst c (.data fromEnter true srcDead)).dstReady = true →
        (Executor.arrive dst c (.data fromEnter true srcDead)).dstDead = true) := by
  rw [Executor.arrive, if_pos hdst, mergeData]
  simp only [Bool.not_true, Bool.false_eq_true, if_false, Bool.and_eq_true, beq_iff_eq,
    Bool.or_eq_true]
  have hnext := h.dead hp hd fromEnter srcDead hpre
  obtain ⟨hctl, hlive, hdd⟩ := countP_snoc_dead as fromEnter srcDead
  have hone := hnext.pending_eq_one hp hpre.control_le
  rw [hlive, hctl] at hone
  refine ⟨?_, fun hr => hr.2⟩
  rw [hone, and_assoc]
  refine and_congr_right fun hl => ?_
  rw [hnext.dead_eq (by rw [hnext.pending_eq, hlive, if_pos hl]; omega), hdd]

omit hd in
theorem MergeCounts.control_ready (srcDead : Bool)
    (hpre : MergePrefix dst controls (as ++ [.control srcDead])) :
    ((Executor.arrive dst c (.control srcDead)).dstReady = true ↔
        as.countP isControl + 1 = controls ∧
          (0 < as.countP isLive ∨ as.countP isDeadData = dst.numInputs)) ∧
      (Executor.arrive dst c (.control srcDead)).dstDead =
        decide (as.countP isDeadData = dst.numInputs) := by
  have hle := hpre.control_le
  have hdata := hpre.data_le
  simp only [countP_snoc_control] at hle hdata
  have hnext := h.control hp srcDead hpre
  have hpend : (c.decrementPending 2).pending = (if as.countP isLive = 0 then 1 else 0) +
      2 * (controls - (as.countP isControl + 1)) := by
    rw [Counts.pending_eq (hnext.inRange hp), hnext.pending_eq]
    simp only [countP_snoc_control]
  have hdead : (c.decrementPending 2).deadCount = as.countP isDeadData := by
    exact h.dead_eq (by rw [h.pending_eq]; omega)
  rw [Executor.arrive, if_pos hdst, mergeControl]
  simp only [Bool.or_eq_true, Bool.and_eq_true, beq_iff_eq, hpend, hdead]
  refine ⟨?_, rfl⟩
  split <;> omega

omit h in
/-- Without dead `Enter` nodes a merge becomes ready once: when all its control
inputs and a live input, or all its control inputs and only dead inputs have
arrived. -/
theorem merge_arrivals (hpos : 0 < dst.numInputs) (as : List Arrival)
    (hpre : MergePrefix dst controls as)
    (henter : ∀ srcDead, data true true srcDead ∉ as) :
    (arriveAll dst (.setInitialCount big (1 + 2 * controls), []) as).2 =
      if as.countP isControl = controls ∧ (0 < as.countP isLive ∨
          as.countP isDeadData = dst.numInputs) then
        [decide (as.countP isLive = 0)] else [] := by
  have htrigger := not_trigger_of_merge hdst
  induction as using reverseRecOn with
  | nil =>
    rw [if_neg (by simp; omega)]
    rfl
  | append_singleton as a ih =>
    have hcounts := merge_counts hdst hp hd as hpre.of_snoc []
    rw [arriveAll_snoc, arriveOne, ih hpre.of_snoc (fun srcDead hm =>
      henter srcDead (mem_append_left _ hm)), readyFlag_eq, htrigger, Bool.not_false,
      Bool.true_and]
    have hc := hpre.control_le
    have hdata := hpre.data_le
    cases a with
    | data fromEnter noValue srcDead =>
      cases noValue with
      | false =>
        obtain ⟨hready, hdead⟩ := hcounts.live_ready hdst hp fromEnter srcDead hpre
        simp only [countP_snoc_live, hready, hdead] at hc hdata ⊢
        by_cases hctl : as.countP isControl = controls
        · by_cases hl : as.countP isLive = 0
          · rw [if_pos ⟨hl, hctl⟩, if_neg (by omega), if_pos (by omega)]
            simp
          · rw [if_neg (by omega), if_pos (by omega), if_pos (by omega)]
            simp [hl]
        · rw [if_neg (by omega), if_neg (by omega), if_neg (by omega)]
      | true =>
        obtain ⟨hready, hdead⟩ := hcounts.dead_ready hdst hp hd fromEnter srcDead hpre
        have hfrom : fromEnter = false := by
          by_contra hne
          have hne' : fromEnter = true := by simpa using hne
          exact henter srcDead (by simp [hne'])
        simp only [countP_snoc_dead, hfrom, Bool.false_eq_true, or_false] at hc hdata hready hdead ⊢
        by_cases hr : as.countP isLive = 0 ∧ as.countP isControl = controls ∧
            as.countP isDeadData + 1 = dst.numInputs
        · rw [if_pos (hready.mpr hr), hdead (hready.mpr hr), if_neg (by omega), if_pos (by omega)]
          simp [hr.1]
        · rw [if_neg (fun h => hr (hready.mp h))]
          split
          · rw [if_pos (by omega)]
          · rw [if_neg (by omega)]
    | control srcDead =>
      obtain ⟨hready, hdead⟩ := hcounts.control_ready hdst hp srcDead hpre
      simp only [countP_snoc_control, hready, hdead] at hc hdata ⊢
      rw [if_neg (show ¬(as.countP isControl = controls ∧ _) by omega)]
      by_cases hr : as.countP isControl + 1 = controls ∧
          (0 < as.countP isLive ∨ as.countP isDeadData = dst.numInputs)
      · rw [if_pos hr, if_pos hr]
        simp only [nil_append, cons.injEq, and_true, decide_eq_decide]
        omega
      · rw [if_neg hr, if_neg hr]

end Merge

end TfReading.Executor
