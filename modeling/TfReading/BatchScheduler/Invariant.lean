import Mathlib.Data.UInt
import TfReading.BatchScheduler.Queue

/-!
# The batches of a queue stay in order

Without splitting, a queue holds closed batches behind which one batch is open, and no task is
lost, repeated or overtaken.
-/

namespace TfReading.BatchScheduler

open List Batch

variable {Task : Type}

namespace Queue

structure Ordered (q : Queue Task) (earlier : List (Batch Task)) (back : Batch Task) : Prop where
  batches : q.batches = earlier ++ [back]
  back_open : back.closed = false
  earlier_closed : ∀ b ∈ earlier, b.closed = true ∧ b.tasks ≠ []

structure Inv [BatchTask Task] (o : Options Task) (q : Queue Task) : Prop where
  ordered : ∃ earlier back, q.Ordered earlier back
  count : q.batches.length ≤ max 1 o.maxEnqueuedBatches.toNat
  sizes : ∀ b ∈ q.batches, b.size = (b.tasks.map size).sum ∧ b.size ≤ o.inputBatchSizeLimit
  schedulable : 1 < q.batches.length → q.schedulableBatch = true

variable {o : Options Task} {q q' : Queue Task} {earlier : List (Batch Task)} {back : Batch Task}

theorem back_of_batches (h : q.batches = earlier ++ [back]) : q.back = back := by
  rw [Queue.back, h, getLastD_concat]

namespace Ordered

variable (h : q.Ordered earlier back)

include h

theorem back_eq : q.back = back := back_of_batches h.batches

theorem length : q.batches.length = earlier.length + 1 := by
  rw [h.batches, length_append, length_singleton]

theorem startNewBatch (htasks : back.tasks ≠ []) :
    q.startNewBatch.Ordered (earlier ++ [back.close]) {} := by
  constructor
  · show q.batches.dropLast ++ [q.back.close, {}] = _
    rw [h.back_eq, h.batches, dropLast_concat]
    simp
  · rfl
  · intro b hb
    rcases mem_append.mp hb with hb | hb
    · exact h.earlier_closed b hb
    · rw [mem_singleton.mp hb]
      exact ⟨rfl, htasks⟩

theorem addToOpenBatch [BatchTask Task] (now : UInt64) (task : Task) :
    (q.addToOpenBatch now task).Ordered earlier (back.addTask task) := by
  constructor
  · show q.batches.dropLast ++ [q.back.addTask task] = _
    rw [h.back_eq, h.batches, dropLast_concat]
  · exact h.back_open
  · exact h.earlier_closed

end Ordered

theorem noteSchedulable_batches (now : UInt64) :
    (noteSchedulable o q now).batches = q.batches := by
  rw [noteSchedulable]
  split <;> rfl

theorem Ordered.congr (h : q.Ordered earlier back)
    (hb : q'.batches = q.batches) : q'.Ordered earlier back :=
  ⟨hb.trans h.batches, h.back_open, h.earlier_closed⟩

/-- `ScheduleBatch` takes the first of the batches, or closes the open one and takes that, or
takes nothing. -/
theorem scheduleBatch_cases (h : q.batches = earlier ++ [back]) (now : UInt64) :
    (∃ b rest, earlier = b :: rest ∧ scheduleBatch o q now =
      (some b, { q with
        numBatchesBeingProcessed := q.numBatchesBeingProcessed + 1
        batches := rest ++ [back] })) ∨
    (earlier = [] ∧ scheduleBatch o q now =
      (some back.close, { q with
        numBatchesBeingProcessed := q.numBatchesBeingProcessed + 1
        batches := [{}] })) ∨
    (earlier = [] ∧ scheduleBatch o q now = (none, { q with schedulableBatch := false })) := by
  cases earlier with
  | cons b rest => exact .inl ⟨b, rest, rfl, by simp [scheduleBatch, h]⟩
  | nil =>
    right
    cases hs : isOpenBatchSchedulable o q now with
    | true => exact .inl ⟨rfl, by simp [scheduleBatch, h, hs, startNewBatch, back_of_batches h]⟩
    | false => exact .inr ⟨rfl, by simp [scheduleBatch, h, hs]⟩

theorem processBatch_eq (q : Queue Task) : q.processBatch.batches = q.batches ∧
    q.processBatch.schedulableBatch = q.schedulableBatch := by
  rw [processBatch]
  split <;> exact ⟨rfl, rfl⟩

theorem closeAndWaitUntilEmpty_eq (q : Queue Task) :
    q.closeAndWaitUntilEmpty.batches = q.batches ∧
      q.closeAndWaitUntilEmpty.schedulableBatch = q.schedulableBatch := by
  rw [closeAndWaitUntilEmpty]
  split <;> exact ⟨rfl, rfl⟩

def tasks (q : Queue Task) : List Task := q.batches.flatMap Batch.tasks

theorem Ordered.tasks_eq (h : q.Ordered earlier back) :
    q.tasks = earlier.flatMap Batch.tasks ++ back.tasks := by
  rw [tasks, h.batches, flatMap_append, flatMap_singleton]

section Calls

variable [BatchTask Task]

theorem Inv.congr (h : q.Inv o) (hb : q'.batches = q.batches)
    (hs : q'.schedulableBatch = q.schedulableBatch) : q'.Inv o where
  ordered :=
    let ⟨earlier, back, hord⟩ := h.ordered
    ⟨earlier, back, hord.congr hb⟩
  count := hb ▸ h.count
  sizes := hb ▸ h.sizes
  schedulable := by rw [hb, hs]; exact h.schedulable

theorem Inv.accept (hord : q.Ordered earlier back)
    (hcount : q.batches.length ≤ max 1 o.maxEnqueuedBatches.toNat)
    (hsizes : ∀ b ∈ q.batches, b.size = (b.tasks.map size).sum ∧ b.size ≤ o.inputBatchSizeLimit)
    {task : Task} (hroom : back.size + size task ≤ o.inputBatchSizeLimit) (now now' : UInt64) :
    (noteSchedulable o (q.addToOpenBatch now task) now').Inv o ∧
      (noteSchedulable o (q.addToOpenBatch now task) now').tasks = q.tasks ++ [task] := by
  have hord' := hord.addToOpenBatch now task
  have hnote := hord'.congr (noteSchedulable_batches (o := o) now')
  have hlen : (noteSchedulable o (q.addToOpenBatch now task) now').batches.length =
      q.batches.length := by rw [hnote.length, hord.length]
  constructor
  · constructor
    · exact ⟨_, _, hnote⟩
    · rw [hlen]
      exact hcount
    · rw [hord.batches] at hsizes
      rw [hnote.batches]
      intro b hb
      rcases mem_append.mp hb with hb | hb
      · exact hsizes b (mem_append_left _ hb)
      · have hback := (hsizes back (mem_append_right _ mem_cons_self)).1
        rw [mem_singleton.mp hb]
        constructor
        · simp [addTask, hback]
        · exact hroom
    · intro hlt
      rw [noteSchedulable_batches] at hlt
      rw [noteSchedulable, decide_eq_true hlt, Bool.true_or, Bool.and_true]
      cases hs : (q.addToOpenBatch now task).schedulableBatch <;> simp [hs]
  · rw [hnote.tasks_eq, hord.tasks_eq, append_assoc]
    rfl

theorem Inv.scheduleWithoutSplit (h : q.Inv o) (clock : Nat → UInt64) (task : Task) :
    let r := q.scheduleWithoutSplit o clock task
    r.queue.Inv o ∧ (r.status = .ok → r.queue.tasks = q.tasks ++ [task]) ∧
      (r.status ≠ .ok → r.queue = q ∧ r.task = some task) := by
  have hrefused (status : Status) (hne : status ≠ .ok) :
      q.Inv o ∧ (status = .ok → q.tasks = q.tasks ++ [task]) ∧
        (status ≠ .ok → q = q ∧ some task = some task) :=
    ⟨h, fun he => absurd he hne, fun _ => ⟨rfl, rfl⟩⟩
  obtain ⟨earlier, back, hord⟩ := h.ordered
  rw [Queue.scheduleWithoutSplit, hord.back_eq]
  split
  · exact hrefused (tooLarge o task) (fun he => nomatch he)
  next hfits =>
    split
    next hover =>
      split
      · exact hrefused full (fun he => nomatch he)
      next hmore =>
        -- An empty batch has room for every task that is not too large.
        have htasks : back.tasks ≠ [] := by
          intro hnil
          have hback := (h.sizes back (by simp [hord.batches])).1
          rw [hnil, map_nil, sum_nil] at hback
          rw [hback, UInt64.zero_add] at hover
          exact hfits hover
        have hord' := hord.startNewBatch htasks
        have hnew : q.startNewBatch.tasks = q.tasks := by
          rw [hord'.tasks_eq, hord.tasks_eq]
          simp [Batch.close]
        have hcount : q.startNewBatch.batches.length ≤ max 1 o.maxEnqueuedBatches.toNat := by
          have hold := h.count
          have hlt := o.maxEnqueuedBatches.toNat_lt
          rw [UInt64.le_iff_toNat_le, UInt64.toNat_ofNat'] at hmore
          rw [hord'.length, length_append, length_singleton, ← hord.length]
          omega
        have hsizes : ∀ b ∈ q.startNewBatch.batches,
            b.size = (b.tasks.map size).sum ∧ b.size ≤ o.inputBatchSizeLimit := by
          rw [hord'.batches]
          intro b hb
          simp only [append_assoc, singleton_append, mem_append, mem_cons,
            not_mem_nil, or_false] at hb
          obtain hb | hb | hb := hb
          · exact h.sizes b (by simp [hord.batches, hb])
          · rw [hb]
            exact h.sizes back (by simp [hord.batches])
          · rw [hb]
            exact ⟨rfl, UInt64.zero_le⟩
        have hroom : ({} : Batch Task).size + size task ≤ o.inputBatchSizeLimit := by
          rw [UInt64.zero_add]
          exact UInt64.not_lt.mp hfits
        have haccept := Inv.accept hord' hcount hsizes hroom (clock 0) (clock 1)
        rw [hnew] at haccept
        exact ⟨haccept.1, fun _ => haccept.2, fun hne => absurd rfl hne⟩
    next hroom =>
      have haccept := Inv.accept hord h.count h.sizes (UInt64.not_lt.mp hroom) (clock 0) (clock 1)
      exact ⟨haccept.1, fun _ => haccept.2, fun hne => absurd rfl hne⟩

theorem Inv.scheduleBatch (h : q.Inv o) (now : UInt64) :
    (q.scheduleBatch o now).2.Inv o ∧
      (q.scheduleBatch o now).1.toList.flatMap Batch.tasks ++ (q.scheduleBatch o now).2.tasks =
        q.tasks := by
  obtain ⟨earlier, back, hord⟩ := h.ordered
  have hcount := h.count
  have hsizes := h.sizes
  have hschedulable := h.schedulable
  rw [hord.length] at hcount hschedulable
  rw [hord.batches] at hsizes
  rw [hord.tasks_eq]
  obtain ⟨b, rest, rfl, heq⟩ | ⟨rfl, heq⟩ | ⟨rfl, heq⟩ := scheduleBatch_cases hord.batches now
  · rw [heq]
    constructor
    · constructor
      · exact ⟨rest, back, rfl, hord.back_open,
          fun b' hb' => hord.earlier_closed b' (mem_cons_of_mem b hb')⟩
      · rw [length_cons] at hcount
        rw [length_append, length_singleton]
        omega
      · exact fun b' hb' => hsizes b' (mem_cons_of_mem b hb')
      · exact fun _ => hschedulable (by simp)
    · simp [tasks]
  · rw [heq]
    constructor
    · constructor
      · exact ⟨[], {}, rfl, rfl, fun b hb => nomatch hb⟩
      · exact Nat.le_max_left 1 _
      · intro b hb
        rw [mem_singleton.mp hb]
        exact ⟨rfl, UInt64.zero_le⟩
      · exact fun hlt => absurd hlt (Nat.lt_irrefl 1)
    · simp [tasks, Batch.close]
  · rw [heq]
    constructor
    · constructor
      · exact ⟨[], back, hord.congr rfl⟩
      · exact h.count
      · exact h.sizes
      · exact fun hlt => absurd hlt (by rw [hord.batches]; exact Nat.lt_irrefl 1)
    · rw [(hord.congr rfl : Queue.Ordered { q with schedulableBatch := false } [] back).tasks_eq]
      rfl

end Calls

end Queue

section WithoutSplit

variable [BatchTask Task] {o : Options Task} {s : Run Task}

/-- The batches, handed out or queued, in the order in which they were started. -/
def Run.batches (s : Run Task) : List (Batch Task) := s.handedOut ++ s.queue.batches

theorem Run.next_inv (ho : o.enableLargeBatchSplitting = false) {s' : Run Task} {call : Call Task}
    (h : s.queue.Inv o ∧ s.batches.flatMap tasks = s.accepted)
    (hnext : s.next o call = some s') :
    s'.queue.Inv o ∧ s'.batches.flatMap tasks = s'.accepted := by
  have htasks : s.handedOut.flatMap tasks ++ s.queue.tasks = s.accepted := by
    rw [← h.2, Run.batches, flatMap_append, Queue.tasks]
  cases call with
  | schedule task clock =>
    have hr := h.1.scheduleWithoutSplit clock task
    rw [Run.next, Queue.schedule, ho] at hnext
    cases hnext
    constructor
    · exact hr.1
    · rw [Run.batches, flatMap_append]
      dsimp only
      split
      next hok =>
        rw [← htasks, append_assoc, ← hr.2.1 hok]
        rfl
      next hne =>
        rw [← htasks, (hr.2.2 hne).1]
        rfl
  | scheduleBatch now =>
    have hr := h.1.scheduleBatch now
    cases hnext
    constructor
    · exact hr.1
    · rw [Run.batches, flatMap_append, flatMap_append, append_assoc, ← htasks, ← hr.2]
      rfl
  | processBatch =>
    have heq := s.queue.processBatch_eq
    cases hnext
    constructor
    · exact h.1.congr heq.1 heq.2
    · rw [Run.batches, heq.1]
      exact h.2
  | closeAndWaitUntilEmpty =>
    have heq := s.queue.closeAndWaitUntilEmpty_eq
    cases hnext
    constructor
    · exact h.1.congr heq.1 heq.2
    · rw [Run.batches, heq.1]
      exact h.2

theorem Queue.Inv.initial : ({} : Queue Task).Inv o where
  ordered := ⟨[], {}, rfl, rfl, fun b hb => nomatch hb⟩
  count := Nat.le_max_left 1 _
  sizes := by
    intro b hb
    rw [mem_singleton.mp hb]
    exact ⟨rfl, UInt64.zero_le⟩
  schedulable := fun hlt => absurd hlt (Nat.lt_irrefl 1)

theorem Run.inv (ho : o.enableLargeBatchSplitting = false) (h : (calls o).Reachable s) :
    s.queue.Inv o ∧ s.batches.flatMap tasks = s.accepted := by
  induction h with
  | init hs =>
    cases hs
    exact ⟨.initial, rfl⟩
  | step _ hstep ih => exact Run.next_inv ho ih hstep.2

theorem existsUnique_of_mem_flatMap {α β : Type} {f : α → List β} {l : List α}
    (hnodup : (l.flatMap f).Nodup) {x : β} (hx : x ∈ l.flatMap f) :
    ∃! i : Nat, ∃ a, l[i]? = some a ∧ x ∈ f a := by
  have hdisjoint := (nodup_flatMap.mp hnodup).2
  obtain ⟨a, ha, hxa⟩ := mem_flatMap.mp hx
  obtain ⟨i, hi⟩ := mem_iff_getElem?.mp ha
  refine ⟨i, ⟨a, hi, hxa⟩, fun j ⟨b, hj, hxb⟩ => ?_⟩
  obtain ⟨hilt, rfl⟩ := List.getElem?_eq_some_iff.mp hi
  obtain ⟨hjlt, rfl⟩ := List.getElem?_eq_some_iff.mp hj
  have happart := pairwise_iff_getElem.mp hdisjoint
  obtain hlt | heq | hlt := Nat.lt_trichotomy i j
  · exact absurd hxb (happart i j hilt hjlt hlt hxa)
  · exact heq.symm
  · exact absurd hxa (happart j i hjlt hilt hlt hxb)

/-- With splitting disabled, the queue keeps its invariant through every run, each accepted task is
in one batch, and a refused task leaves the queue and the caller's task as they were. -/
theorem schedule_keeps_queue (ho : o.enableLargeBatchSplitting = false) {s : Run Task}
    (h : (calls o).Reachable s) :
    s.queue.Inv o ∧ s.batches.flatMap Batch.tasks = s.accepted ∧
      (s.accepted.Nodup → ∀ task ∈ s.accepted,
        ∃! i : Nat, ∃ b : Batch Task, s.batches[i]? = some b ∧ task ∈ b.tasks) ∧
      ∀ clock allocation task, ∃ r, s.queue.schedule o clock allocation task = some r ∧
        (r.status ≠ .ok → r.queue = s.queue ∧ r.task = some task) := by
  have hinv := Run.inv ho h
  refine ⟨hinv.1, hinv.2, fun hnodup task htask => ?_, fun clock allocation task => ?_⟩
  · rw [← hinv.2] at hnodup htask
    exact existsUnique_of_mem_flatMap hnodup htask
  · rw [Queue.schedule, ho]
    exact ⟨_, rfl, (hinv.1.scheduleWithoutSplit clock task).2.2⟩

/-- A task that is nothing but its size. -/
instance : BatchTask UInt64 := ⟨id⟩

def smallOptions : Options UInt64 where
  inputBatchSizeLimit := 10
  batchTimeoutMicros := 1000
  maxEnqueuedBatches := 2
  enableLargeBatchSplitting := false
  splitInputTaskFunc := none
  maxExecutionBatchSize := 0

/-- Two tasks need two batches, the first of which is handed out. -/
theorem schedule_keeps_small_queue : ∃ s : Run UInt64, (calls smallOptions).Reachable s ∧
    s.accepted = [6, 7] ∧ s.handedOut.length = 1 ∧ s.queue.Inv smallOptions ∧
    s.batches.flatMap Batch.tasks = s.accepted := by
  have hinit : (calls smallOptions).Reachable {} := .init rfl
  have hfirst := hinit.step (a := Call.schedule 6 (fun _ => 0) none) (.intro trivial rfl)
  have hsecond := hfirst.step (a := Call.schedule 7 (fun _ => 1) none) (.intro trivial rfl)
  have hreach := hsecond.step (a := Call.scheduleBatch 2) (.intro trivial rfl)
  have hkeeps := schedule_keeps_queue rfl hreach
  exact ⟨_, hreach, by decide, by decide, hkeeps.1, hkeeps.2.1⟩

end WithoutSplit

end TfReading.BatchScheduler
