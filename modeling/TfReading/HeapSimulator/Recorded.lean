import TfReading.HeapSimulator.Calls
import TfReading.HeapSimulator.Forest

/-!
# What the calls leave in `buffer_intervals_`

Before `Finish`, the heap holds one interval for each buffer that is not empty, and legal calls do
not fail.
-/

namespace TfReading.HeapSimulator

open List

variable {β : Type} {i : BufferInterval β} {b : β}

structure Recorded (a : Int) (calls : List (Call β)) (h : Heap β) : Prop where
  forest : Forest h.bufferIntervals
  interval : ∀ b n, Introduced calls b n → n ≠ 0 →
    ∃ i ∈ h.bufferIntervals, i.buffer = b ∧ i.size = n
  introduced : ∀ i ∈ h.bufferIntervals, ∃ n : Nat, n ≠ 0 ∧ i.size = n ∧ Introduced calls i.buffer n
  colocated : ∀ i ∈ h.bufferIntervals, ∀ b, b ∈ i.colocations ↔ Shares calls i.buffer b
  chunk : ∀ b c, h.chunkMap b = some c ↔ c = ⟨0, 0⟩ ∧ Introduced calls b 0
  time : ∀ i ∈ h.bufferIntervals, 0 ≤ i.start ∧ i.start < h.currentTime
  stop : ∀ i ∈ h.bufferIntervals, i.stop = -1 ↔ ¬Freed calls i.buffer
  overlap : ∀ i ∈ h.bufferIntervals, ∀ j ∈ h.bufferIntervals,
    LiveTogether calls i.buffer j.buffer → j.stop = -1 ∨ i.start < j.stop
  total : (h.bufferIntervals.map (·.rounded a)).sum = allocTotal a calls
  currentTime : 0 ≤ h.currentTime
  heapSize : h.heapSize = 0
  intervalTree : h.intervalTree = .nil
  alignment : h.alignment = a

section Steps

variable {a : Int} {calls : List (Call β)} {h : Heap β} {size : Nat} {shared : β}

theorem Recorded.empty : Recorded a ([] : List (Call β)) (empty a) where
  forest := ⟨nodup_nil, nofun, nofun, nofun, nofun⟩
  interval := by
    intro b n hn
    rcases hn with hn | ⟨_, hn⟩
    · cases hn
    · cases hn
  introduced := nofun
  colocated := nofun
  chunk := by
    intro b c
    apply iff_of_false nofun
    intro hc
    rcases hc.2 with hn | ⟨_, hn⟩
    · cases hn
    · cases hn
  time := nofun
  stop := nofun
  overlap := nofun
  total := rfl
  currentTime := Int.le_refl 0
  heapSize := rfl
  intervalTree := rfl
  alignment := rfl

variable (hr : Recorded a calls h) {g : BufferInterval β → BufferInterval β} {c : Call β}
    {m : β → Option Chunk}

include hr

theorem Recorded.ne_of_new (hnew : ∀ n, ¬Introduced calls b n) :
    ∀ j ∈ h.bufferIntervals, j.buffer ≠ b := by
  intro j hj heq
  obtain ⟨n, -, -, hn⟩ := hr.introduced j hj
  exact hnew n (heq ▸ hn)

/-- A call may change the colocations and the ends of the intervals, and add new ones behind
them. -/
theorem Recorded.step {l : List (BufferInterval β)} {t : Int}
    (hg : ∀ j, (g j).buffer = j.buffer ∧ (g j).size = j.size ∧ (g j).start = j.start ∧
      (g j).needAllocation = j.needAllocation)
    (hforest : Forest (h.bufferIntervals.map g ++ l))
    (hintro : ∀ b n, n ≠ 0 → (Introduced (calls ++ [c]) b n ↔
      Introduced calls b n ∨ ∃ i ∈ l, i.buffer = b ∧ i.size = n))
    (hnew : ∀ i ∈ l, (∀ n, ¬Introduced calls i.buffer n) ∧ (∃ n : Nat, n ≠ 0 ∧ i.size = n) ∧
      i.start = h.currentTime ∧ h.currentTime < t ∧ i.stop = -1)
    (hcoloc : ∀ j ∈ h.bufferIntervals.map g ++ l, ∀ b,
      b ∈ j.colocations ↔ Shares (calls ++ [c]) j.buffer b)
    (hchunk : ∀ b d, m b = some d ↔ d = ⟨0, 0⟩ ∧ Introduced (calls ++ [c]) b 0)
    (hstop : ∀ j ∈ h.bufferIntervals.map g ++ l, j.stop = -1 ↔ ¬Freed (calls ++ [c]) j.buffer)
    (hend : ∀ j ∈ h.bufferIntervals, (g j).stop = j.stop ∨ (g j).stop = h.currentTime)
    (htotal : allocTotal a [c] = (l.map (·.rounded a)).sum) (ht : h.currentTime ≤ t) :
    Recorded a (calls ++ [c]) { h with
      bufferIntervals := h.bufferIntervals.map g ++ l
      chunkMap := m
      currentTime := t } where
  forest := hforest
  interval := by
    intro b n hn hne
    rcases (hintro b n hne).mp hn with hn | ⟨i, hi, hb, hs⟩
    · obtain ⟨j, hj, hbuf, hjs⟩ := hr.interval b n hn hne
      exact ⟨g j, mem_append_left _ (mem_map_of_mem hj), (hg j).1.trans hbuf, (hg j).2.1.trans hjs⟩
    · exact ⟨i, mem_append_right _ hi, hb, hs⟩
  introduced := by
    intro j' hj'
    rcases mem_append.mp hj' with hj' | hj'
    · obtain ⟨j, hj, rfl⟩ := mem_map.mp hj'
      obtain ⟨n, hne, hjs, hn⟩ := hr.introduced j hj
      rw [(hg j).1, (hg j).2.1]
      exact ⟨n, hne, hjs, (hintro _ n hne).mpr (.inl hn)⟩
    · obtain ⟨-, ⟨n, hne, hs⟩, -⟩ := hnew j' hj'
      exact ⟨n, hne, hs, (hintro _ n hne).mpr (.inr ⟨j', hj', rfl, hs⟩)⟩
  colocated := hcoloc
  chunk := hchunk
  time := by
    intro j' hj'
    dsimp only
    rcases mem_append.mp hj' with hj' | hj'
    · obtain ⟨j, hj, rfl⟩ := mem_map.mp hj'
      have hj := hr.time j hj
      rw [(hg j).2.2.1]
      omega
    · obtain ⟨-, -, hstart, hlt, -⟩ := hnew j' hj'
      rw [hstart]
      exact ⟨hr.currentTime, hlt⟩
  stop := hstop
  overlap := by
    intro j' hj' k' hk' hlive
    rcases hlive.of_concat with hlive | hlive
    · rcases mem_append.mp hk' with hkg | hkn
      · obtain ⟨k, hk, rfl⟩ := mem_map.mp hkg
        rcases mem_append.mp hj' with hjg | hjn
        · obtain ⟨j, hj, rfl⟩ := mem_map.mp hjg
          rw [(hg j).1, (hg k).1] at hlive
          rw [(hg j).2.2.1]
          rcases hend k hk with hend | hend
          · rw [hend]
            exact hr.overlap j hj k hk hlive
          · rw [hend]
            exact .inr (hr.time j hj).2
        · -- The new buffer was not live before.
          obtain ⟨p, hp, hlive, -⟩ := hlive
          obtain ⟨n, hn⟩ := hlive.1
          exact absurd (hn.of_le hp) ((hnew j' hjn).1 n)
      · exact .inl (hnew k' hkn).2.2.2.2
    · exact .inl ((hstop k' hk').mpr hlive)
  total := by
    have hsame : (h.bufferIntervals.map g).map (·.rounded a) =
        h.bufferIntervals.map (·.rounded a) := by
      rw [map_map]
      apply map_congr_left
      intro j _
      show (g j).rounded a = j.rounded a
      rw [BufferInterval.rounded, BufferInterval.rounded, (hg j).2.1, (hg j).2.2.2]
    rw [allocTotal_concat, htotal, map_append, sum_append, hsame, hr.total]
  currentTime := Int.le_trans hr.currentTime ht
  heapSize := hr.heapSize
  intervalTree := hr.intervalTree
  alignment := hr.alignment

theorem Recorded.step_empty
    (hintro : ∀ b n, n ≠ 0 → (Introduced (calls ++ [c]) b n ↔ Introduced calls b n))
    (hshares : ∀ s b', Shares (calls ++ [c]) s b' ↔ Shares calls s b')
    (hchunk : ∀ b d, m b = some d ↔ d = ⟨0, 0⟩ ∧ Introduced (calls ++ [c]) b 0)
    (hfreed : ∀ i ∈ h.bufferIntervals, (Freed (calls ++ [c]) i.buffer ↔ Freed calls i.buffer))
    (htotal : allocTotal a [c] = 0) : Recorded a (calls ++ [c]) { h with chunkMap := m } := by
  have hsame : h.bufferIntervals.map id ++ [] = h.bufferIntervals := by rw [map_id, append_nil]
  have hstep := hr.step (c := c) (g := id) (l := []) (m := m) (t := h.currentTime)
    (fun _ => ⟨rfl, rfl, rfl, rfl⟩)
  rw [hsame] at hstep
  refine hstep hr.forest (fun b n hn => ?_) nofun (fun j hj b => ?_) hchunk (fun j hj => ?_)
    (fun _ _ => .inl rfl) htotal (Int.le_refl _)
  · simp [hintro b n hn]
  · rw [hshares]
    exact hr.colocated j hj b
  · rw [hfreed j hj]
    exact hr.stop j hj

theorem Recorded.introduce (hl : Legal calls) (hc : c.introduced = some (i.buffer, size))
    (hforest : Forest (h.bufferIntervals.map g ++ [i]))
    (hg : ∀ j, (g j).buffer = j.buffer ∧ (g j).size = j.size ∧ (g j).start = j.start ∧
      (g j).needAllocation = j.needAllocation)
    (hend : ∀ j, (g j).stop = j.stop)
    (hsize : i.size = size) (hne : size ≠ 0) (hstart : i.start = h.currentTime)
    (hstop : i.stop = -1) (hnew : ∀ n, ¬Introduced calls i.buffer n)
    (hcoloc : ∀ j ∈ h.bufferIntervals.map g ++ [i], ∀ b,
      b ∈ j.colocations ↔ Shares (calls ++ [c]) j.buffer b)
    (htotal : allocTotal a [c] = i.rounded a) :
    Recorded a (calls ++ [c]) { h with
      bufferIntervals := h.bufferIntervals.map g ++ [i]
      currentTime := h.currentTime + 1 } := by
  refine hr.step hg hforest (fun b n hn => ?_) (fun i' hi' => ?_) hcoloc (fun b d => ?_)
    (fun j' hj' => ?_) (fun j _ => .inl (hend j)) ?_ (by omega)
  · simp [introduced_concat, hc, hsize]
  · rw [mem_singleton.mp hi']
    exact ⟨hnew, ⟨size, hne, hsize⟩, hstart, by omega, hstop⟩
  · rw [introduced_concat, hc, or_iff_left]
    · exact hr.chunk b d
    · exact fun heq => hne (Prod.mk.inj (Option.some.inj heq)).2
  · rw [freed_concat_of_introduced hc]
    rcases mem_append.mp hj' with hj' | hj'
    · obtain ⟨j, hj, rfl⟩ := mem_map.mp hj'
      rw [(hg j).1, hend]
      exact hr.stop j hj
    · rw [mem_singleton.mp hj']
      refine iff_of_true hstop fun hf => ?_
      obtain ⟨n, hn⟩ := hl.introduced_of_freed hf
      exact hnew n hn
  · simp [htotal]

variable [DecidableEq β]

theorem Recorded.introduce_empty (hc : c.introduced = some (b, 0))
    (hnew : ∀ n, ¬Introduced calls b n)
    (hshares : ∀ s b', Shares (calls ++ [c]) s b' ↔ Shares calls s b')
    (htotal : allocTotal a [c] = 0) :
    Recorded a (calls ++ [c]) { h with chunkMap := emplace h.chunkMap b ⟨0, 0⟩ } := by
  refine hr.step_empty (fun b' n hn => ?_) hshares (fun b' d => ?_)
    (fun _ _ => freed_concat_of_introduced hc) htotal
  · simp [introduced_concat, hc, hn.symm]
  · have hnone : h.chunkMap b = none := by
      cases hc : h.chunkMap b with
      | none => rfl
      | some d => exact absurd ((hr.chunk b d).mp hc).2 (hnew 0)
    rw [introduced_concat, hc, emplace, if_neg (by rw [hnone]; decide)]
    by_cases hb : b' = b
    · rw [hb, Function.update_self, Option.some.injEq, eq_comm]
      exact (and_iff_left (.inr rfl)).symm
    · rw [Function.update_of_ne hb, hr.chunk, or_iff_left]
      exact fun heq => hb (Prod.mk.inj (Option.some.inj heq)).1.symm

theorem Recorded.free_interval :
    Recorded a (calls ++ [.free b size]) { h with
      bufferIntervals :=
        modifyAt h.bufferIntervals b fun j => { j with stop := h.currentTime }
      currentTime := h.currentTime + 1 } := by
  have ht := hr.currentTime
  set g := fun j : BufferInterval β =>
    if j.buffer = b then { j with stop := h.currentTime } else j with hg
  have hgo : ∀ j, ((g j).buffer = j.buffer ∧ (g j).size = j.size ∧ (g j).start = j.start ∧
      (g j).needAllocation = j.needAllocation) ∧ (g j).colocations = j.colocations ∧
      (g j).stop = if j.buffer = b then h.currentTime else j.stop := by
    intro j
    rw [hg]
    dsimp only
    split <;> exact ⟨⟨rfl, rfl, rfl, rfl⟩, rfl, rfl⟩
  have hstep := hr.step (c := .free b size) (l := []) (m := h.chunkMap) (t := h.currentTime + 1)
    fun j => (hgo j).1
  rw [append_nil] at hstep
  refine hstep (hr.forest.modifyAt_stop h.currentTime) (fun b' n _ => ?_) nofun (fun j' hj' b' => ?_)
    (fun b' d => ?_) (fun j' hj' => ?_) (fun j _ => ?_) rfl (by omega)
  · simp [introduced_free]
  · obtain ⟨j, hj, rfl⟩ := mem_map.mp hj'
    rw [shares_free, (hgo j).1.1, (hgo j).2.1]
    exact hr.colocated j hj b'
  · rw [introduced_free]
    exact hr.chunk b' d
  · obtain ⟨j, hj, rfl⟩ := mem_map.mp hj'
    rw [(hgo j).1.1, freed_free, (hgo j).2.2]
    split
    next hb =>
      apply iff_of_false
      · omega
      · exact fun hno => hno (.inr hb)
    next hb => rw [hr.stop j hj, or_iff_left hb]
  · rw [(hgo j).2.2]
    split
    · exact .inr rfl
    · exact .inl rfl

theorem Recorded.alloc (hl : Legal calls) (ha : 1 ≤ a)
    (hnew : ∀ n, ¬Introduced calls b n) :
    Recorded a (calls ++ [.alloc b size]) (h.alloc b size) := by
  have hshares : ∀ s b', Shares (calls ++ [.alloc b size]) s b' ↔ Shares calls s b' := by
    intro s b'
    rw [shares_concat]
    simp
  unfold Heap.alloc
  split
  next hsize =>
    have hsize : size = 0 := by exact_mod_cast hsize
    subst hsize
    apply hr.introduce_empty rfl hnew hshares
    exact (Int.add_zero _).trans (alignUp_zero ha)
  next hsize =>
    have hne : size ≠ 0 := by exact_mod_cast hsize
    have hbuf := hr.ne_of_new hnew
    rw [emplaceInterval_of_new hbuf]
    have hrec := hr.introduce (i := ⟨b, size, h.currentTime, -1, [], true⟩)
      hl rfl (hr.forest.grow (D := fun _ => []) (by simp) (nodup_singleton _)
        (forall_mem_singleton.mpr ⟨rfl, hbuf, by simp⟩) (by simp))
      (fun _ => ⟨rfl, rfl, rfl, rfl⟩) (fun _ => rfl) rfl hne rfl rfl hnew (by
        intro j hj b'
        rw [map_id'] at hj
        rw [hshares]
        rcases mem_append.mp hj with hj | hj
        · exact hr.colocated j hj b'
        · rw [mem_singleton.mp hj]
          apply iff_of_false not_mem_nil
          intro hs
          obtain ⟨n, -, hs⟩ := hs
          exact hnew n (hl.introduced_shared hs))
      (Int.add_zero _)
    rw [map_id'] at hrec
    exact hrec

theorem Recorded.shareWith (hl : Legal calls)
    (hnew : ∀ n, ¬Introduced calls b n) (hshared : Introduced calls shared size) :
    ∃ h', h.shareWith b shared size = some h' ∧
      Recorded a (calls ++ [.shareWith b shared size]) h' := by
  unfold Heap.shareWith
  split
  next hsize =>
    have hsize : size = 0 := by exact_mod_cast hsize
    subst hsize
    refine ⟨_, rfl, hr.introduce_empty rfl hnew ?_ rfl⟩
    intro s b'
    rw [shares_concat]
    apply or_iff_left
    intro hc
    obtain ⟨n, hn, hc⟩ := hc
    cases hc
    exact hn rfl
  next hsize =>
    have hne : size ≠ 0 := by exact_mod_cast hsize
    obtain ⟨p, hp, rfl, hps⟩ := hr.interval shared size hshared hne
    have hbuf := hr.ne_of_new hnew
    set g := fun j : BufferInterval β =>
      if j.buffer = p.buffer then { j with colocations := j.colocations ++ [b] } else j with hg
    have hgo : ∀ j, ((g j).buffer = j.buffer ∧ (g j).size = j.size ∧ (g j).start = j.start ∧
        (g j).needAllocation = j.needAllocation) ∧ (g j).stop = j.stop := by
      intro j
      rw [hg]
      dsimp only
      split <;> exact ⟨⟨rfl, rfl, rfl, rfl⟩, rfl⟩
    rw [hr.forest.lookup_eq hp]
    refine ⟨_, rfl, ?_⟩
    have hfresh : ∀ j ∈ h.bufferIntervals.map g, j.buffer ≠ b := by
      intro j' hj'
      obtain ⟨j, hj, rfl⟩ := mem_map.mp hj'
      rw [(hgo j).1.1]
      exact hbuf j hj
    rw [show modifyAt h.bufferIntervals p.buffer _ = h.bufferIntervals.map g from rfl,
      emplaceInterval_of_new hfresh]
    refine hr.introduce hl rfl (hr.forest.concat_leaf (i := ⟨b, size, h.currentTime, -1, [], false⟩)
      hbuf rfl rfl hp (hr.time p hp).2) (fun j => (hgo j).1) (fun j => (hgo j).2) rfl hne rfl rfl
      hnew (fun j' hj' b' => ?_) rfl
    rw [shares_concat]
    rcases mem_append.mp hj' with hj' | hj'
    · obtain ⟨j, hj, rfl⟩ := mem_map.mp hj'
      rw [(hgo j).1.1, ← hr.colocated j hj, hg]
      dsimp only
      split
      next hjp =>
        rw [mem_append, mem_singleton, hjp]
        apply or_congr_right
        constructor
        · intro hb'
          exact ⟨size, hne, by rw [hb']⟩
        · intro hex
          obtain ⟨_, _, hc⟩ := hex
          cases hc
          rfl
      next hjp =>
        rw [or_iff_left]
        intro hex
        obtain ⟨_, _, hc⟩ := hex
        exact hjp (Call.shareWith.inj hc).2.1.symm
    · rw [mem_singleton.mp hj']
      apply iff_of_false not_mem_nil
      intro hor
      rcases hor with hs | ⟨_, _, hc⟩
      · obtain ⟨n, -, hs⟩ := hs
        exact hnew n (hl.introduced_shared hs)
      · have heq : p.buffer = b := (Call.shareWith.inj hc).2.1
        exact hnew size (heq ▸ hshared)

theorem Recorded.free (hl : Legal calls)
    (hb : Introduced calls b size) (hnotfreed : ¬Freed calls b) :
    ∃ h', h.free b size = some h' ∧ Recorded a (calls ++ [.free b size]) h' := by
  unfold Heap.free
  split
  next hsize =>
    have hsize : size = 0 := by exact_mod_cast hsize
    subst hsize
    refine ⟨h, rfl, hr.step_empty (fun _ _ _ => introduced_free) (fun _ _ => shares_free)
      (fun b d => ?_) (fun i hi => ?_) rfl⟩
    · rw [introduced_free]
      exact hr.chunk b d
    · obtain ⟨n, hn0, -, hn⟩ := hr.introduced i hi
      rw [freed_free, or_iff_left]
      exact fun heq => hn0 (hl.introduced_unique (heq ▸ hn) hb)
  next hsize =>
    have hne : size ≠ 0 := by exact_mod_cast hsize
    obtain ⟨i, hi, rfl, _⟩ := hr.interval b size hb hne
    rw [hr.forest.lookup_eq hi]
    dsimp only
    rw [if_neg (fun hc => hc ((hr.stop i hi).mpr hnotfreed))]
    exact ⟨_, rfl, hr.free_interval⟩

omit hr

theorem run_concat {h' : Heap β} (hrun : run a calls = some h)
    (hstep : Call.exec h c = some h') : run a (calls ++ [c]) = some h' := by
  rw [run] at hrun ⊢
  rw [foldlM_append, hrun, Option.bind_eq_bind, Option.bind_some, foldlM_cons, hstep]
  rfl

theorem Legal.recorded (hl : Legal calls) (ha : 1 ≤ a) :
    ∃ h, run a calls = some h ∧ Recorded a calls h := by
  induction hl with
  | nil => exact ⟨_, rfl, .empty⟩
  | alloc hl hnew ih =>
    obtain ⟨h, hrun, hr⟩ := ih
    exact ⟨_, run_concat hrun rfl, hr.alloc hl ha hnew⟩
  | shareWith hl hnew hshared ih =>
    obtain ⟨h, hrun, hr⟩ := ih
    obtain ⟨h', hstep, hr'⟩ := hr.shareWith hl hnew hshared
    exact ⟨h', run_concat hrun hstep, hr'⟩
  | free hl hintro hfreed ih =>
    obtain ⟨h, hrun, hr⟩ := ih
    obtain ⟨h', hstep, hr'⟩ := hr.free hl hintro hfreed
    exact ⟨h', run_concat hrun hstep, hr'⟩

end Steps

end TfReading.HeapSimulator
