import Mathlib.Algebra.Order.BigOperators.Group.List
import TfReading.HeapSimulator.Candidate
import TfReading.HeapSimulator.Colocations

/-!
# The assignment of chunks

`Finish` takes the intervals in some order and gives one chunk to the whole tree of each root.
The chunk is apart from all chunks that the interval tree finds for a member of the tree.
-/

namespace TfReading.HeapSimulator

open Util List Function

variable {β : Type}

/-! ## Committing -/

structure Committed (h h' : Heap β) (chunk : Chunk) (S : β → Prop) : Prop where
  bufferIntervals : h'.bufferIntervals = h.bufferIntervals
  alignment : h'.alignment = h.alignment
  chunkMap : ∀ b, S b → h'.chunkMap b = some chunk
  frame : ∀ b, ¬S b → h'.chunkMap b = h.chunkMap b
  mem_tree : ∀ e, h'.intervalTree.Mem e ↔ h.intervalTree.Mem e ∨
    ∃ i ∈ h.bufferIntervals, S i.buffer ∧ e = ⟨i.start, i.stop, chunk⟩
  ordered : h.intervalTree.Ordered → h'.intervalTree.Ordered

section Commit

variable {h h' h'' : Heap β} {chunk : Chunk} {S T : β → Prop} {i r : BufferInterval β}

theorem Committed.refl : Committed h h chunk fun _ => False where
  bufferIntervals := rfl
  alignment := rfl
  chunkMap := nofun
  frame := fun _ _ => rfl
  mem_tree := by
    intro e
    simp
  ordered := id

theorem Committed.trans (hc : Committed h h' chunk S) (hc' : Committed h' h'' chunk T) :
    Committed h h'' chunk fun b => S b ∨ T b where
  bufferIntervals := hc'.bufferIntervals.trans hc.bufferIntervals
  alignment := hc'.alignment.trans hc.alignment
  chunkMap := by
    intro b hb
    by_cases hT : T b
    · exact hc'.chunkMap b hT
    · rw [hc'.frame b hT]
      exact hc.chunkMap b (hb.resolve_right hT)
  frame := by
    intro b hb
    rw [hc'.frame b fun hT => hb (.inr hT), hc.frame b fun hS => hb (.inl hS)]
  mem_tree := by
    intro e
    rw [hc'.mem_tree, hc.mem_tree, hc.bufferIntervals, or_assoc, ← exists_or]
    simp only [or_and_right, and_or_left]
  ordered := fun ho => hc'.ordered (hc.ordered ho)

theorem Committed.congr (hc : Committed h h' chunk S) (hST : ∀ b, S b ↔ T b) :
    Committed h h' chunk T := by
  rw [← funext fun b => propext (hST b)]
  exact hc

variable [DecidableEq β] {fuel : Nat} {bs : List β}

theorem emplace_eq {m : β → Option Chunk} {b : β} (hm : m b = none ∨ m b = some chunk) :
    emplace m b chunk = update m b (some chunk) := by
  rcases hm with hm | hm
  · exact if_neg (by rw [hm]; exact Bool.false_ne_true)
  · rw [emplace, if_pos (by rw [hm]; rfl), ← hm, update_eq_self]

theorem commitColocated_spec (hf : Forest h.bufferIntervals) (hi : i ∈ h.bufferIntervals)
    (hm : h.chunkMap i.buffer = none ∨ h.chunkMap i.buffer = some chunk) :
    ∃ h', commitColocated chunk h i.buffer = some h' ∧ h'.heapSize = h.heapSize ∧
      Committed h h' chunk fun b => b = i.buffer := by
  rw [commitColocated, hf.lookup_eq hi, emplace_eq hm]
  refine ⟨_, rfl, rfl, rfl, rfl, ?_, ?_, ?_, .add⟩
  · intro b hb
    rw [hb]
    exact update_self ..
  · intro b hb
    exact update_of_ne hb ..
  · intro e
    rw [IntervalTree.mem_add, or_comm, hf.exists_eq_buffer hi]

theorem foldlM_commitColocated (chunk : Chunk) (hf : Forest h.bufferIntervals)
    (hbs : ∀ b ∈ bs, ∃ i ∈ h.bufferIntervals, i.buffer = b)
    (hm : ∀ b ∈ bs, h.chunkMap b = none ∨ h.chunkMap b = some chunk) :
    ∃ h', bs.foldlM (commitColocated chunk) h = some h' ∧ h'.heapSize = h.heapSize ∧
      Committed h h' chunk fun b => b ∈ bs := by
  induction bs generalizing h with
  | nil => exact ⟨h, rfl, rfl, Committed.refl.congr fun b => by simp⟩
  | cons b bs ih =>
    obtain ⟨⟨i, hi, rfl⟩, hrest⟩ := forall_mem_cons.mp hbs
    obtain ⟨hmi, hm⟩ := forall_mem_cons.mp hm
    obtain ⟨h1, hstep, hheap, hc⟩ := commitColocated_spec hf hi hmi
    have hm' : ∀ b ∈ bs, h1.chunkMap b = none ∨ h1.chunkMap b = some chunk := by
      intro b hb
      by_cases heq : b = i.buffer
      · exact .inr (hc.chunkMap b heq)
      · rw [hc.frame b heq]
        exact hm b hb
    obtain ⟨h', hrun, hheap', hc'⟩ := ih (hc.bufferIntervals ▸ hf) (hc.bufferIntervals ▸ hrest) hm'
    refine ⟨h', ?_, hheap'.trans hheap, (hc.trans hc').congr fun b => mem_cons.symm⟩
    rw [foldlM_cons, hstep]
    exact hrun

theorem commitChunk_spec (orders : Orders β) (candidate : ChunkCandidate)
    (hf : Forest h.bufferIntervals) (hr : r ∈ h.bufferIntervals) (hneed : r.needAllocation = true)
    (hfuel : h.bufferIntervals.length ≤ fuel)
    (hnone : ∀ b, Below h.bufferIntervals r.buffer b → h.chunkMap b = none) :
    ∃ h', commitChunk orders fuel h r candidate = some h' ∧ h'.heapSize = candidate.heapSize ∧
      Committed h h' candidate.chunk (Below h.bufferIntervals r.buffer) := by
  set h0 : Heap β := { h with
    heapSize := candidate.heapSize
    intervalTree := h.intervalTree.add ⟨r.start, r.stop, candidate.chunk⟩ } with hh0
  have hf0 : Forest h0.bufferIntervals := hf
  obtain ⟨result, hres, hroot, hbelow⟩ :=
    getTransitiveColocations_spec orders hf0 hr hneed hfuel
  change ∀ b, Below h.bufferIntervals r.buffer b ↔ _ at hbelow
  have hmem : ∀ b ∈ orders.setOrder result, Below h.bufferIntervals r.buffer b :=
    fun b hb => (hbelow b).mpr (.inr hb)
  obtain ⟨h1, hrun, hheap, hc⟩ := foldlM_commitColocated candidate.chunk hf0
    (fun b hb => hf.exists_of_below hr (hmem b hb)) fun b hb => .inl (hnone b (hmem b hb))
  have hself : h1.chunkMap r.buffer = none := (hc.frame _ hroot).trans (hnone _ .refl)
  refine ⟨{ h1 with chunkMap := update h1.chunkMap r.buffer (some candidate.chunk) },
    ?_, hheap, hc.bufferIntervals, hc.alignment, ?_, ?_, ?_, ?_⟩
  · show (getTransitiveColocations fuel h0 r).bind _ = _
    rw [hres, Option.bind_some]
    rw [hrun, ← emplace_eq (.inl hself)]
    rfl
  · intro b hb
    dsimp only
    by_cases heq : b = r.buffer
    · rw [heq, update_self]
    · rw [update_of_ne heq]
      exact hc.chunkMap b (((hbelow b).mp hb).resolve_left heq)
  · intro b hb
    dsimp only
    have heq : b ≠ r.buffer := by
      intro heq
      rw [heq] at hb
      exact hb .refl
    rw [update_of_ne heq]
    exact hc.frame b fun hin => hb (hmem b hin)
  · intro e
    rw [hc.mem_tree, hh0, IntervalTree.mem_add, or_comm (a := e = _), or_assoc]
    simp only [hbelow, or_and_right, and_or_left, exists_or, hf.exists_eq_buffer hr]
  · exact fun ho => hc.ordered ho.add

end Commit

/-! ## Finding a candidate -/

section Find

variable [DecidableEq β] {fuel : Nat} {h : Heap β} {r : BufferInterval β}

theorem foldlM_addOverlapping {bs : List β} (chunks : List Chunk) (hf : Forest h.bufferIntervals)
    (hbs : ∀ b ∈ bs, ∃ i ∈ h.bufferIntervals, i.buffer = b) :
    ∃ chunks', bs.foldlM (addOverlapping h) chunks = some chunks' ∧
      ∀ c, c ∈ chunks' ↔ c ∈ chunks ∨ ∃ i ∈ h.bufferIntervals, i.buffer ∈ bs ∧
        c ∈ h.intervalTree.overlapping i.start i.stop := by
  induction bs generalizing chunks with
  | nil =>
    refine ⟨chunks, rfl, ?_⟩
    intro c
    simp
  | cons b bs ih =>
    obtain ⟨⟨i, hi, rfl⟩, hrest⟩ := forall_mem_cons.mp hbs
    obtain ⟨chunks', hrun, hmem⟩ := ih (chunks ++ h.intervalTree.overlapping i.start i.stop) hrest
    refine ⟨chunks', ?_, ?_⟩
    · rw [foldlM_cons, addOverlapping, hf.lookup_eq hi]
      exact hrun
    · intro c
      rw [hmem, mem_append, or_assoc]
      simp only [mem_cons, or_and_right, and_or_left, exists_or, hf.exists_eq_buffer hi]

/-- All chunks that overlap in time with a member of the tree are looked at. -/
theorem findChunkCandidate_spec (orders : Orders β) (hf : Forest h.bufferIntervals)
    (hr : r ∈ h.bufferIntervals) (hneed : r.needAllocation = true)
    (hfuel : h.bufferIntervals.length ≤ fuel) :
    ∃ busy, findChunkCandidate orders fuel h r (-1) =
        some (fitChunk h.alignment h.heapSize r.size (-1) (orders.sortChunks busy)) ∧
      ∀ c, c ∈ busy ↔ ∃ i ∈ h.bufferIntervals, Below h.bufferIntervals r.buffer i.buffer ∧
        c ∈ h.intervalTree.overlapping i.start i.stop := by
  obtain ⟨result, hres, -, hbelow⟩ := getTransitiveColocations_spec orders hf hr hneed hfuel
  obtain ⟨busy, hrun, hbusy⟩ := foldlM_addOverlapping
    (h.intervalTree.overlapping r.start r.stop) hf
    fun b (hb : b ∈ orders.setOrder result) => hf.exists_of_below hr ((hbelow b).mpr (.inr hb))
  refine ⟨busy, ?_, ?_⟩
  · rw [findChunkCandidate, hres, Option.bind_eq_bind, Option.bind_some, hrun]
    rfl
  · intro c
    simp only [hbusy, hbelow, or_and_right, and_or_left, exists_or, hf.exists_eq_buffer hr]

end Find

/-! ## The loop of `Finish` -/

def Unrelated (l : List (BufferInterval β)) (b b' : β) : Prop :=
  ∀ r ∈ l, r.needAllocation = true → Below l r.buffer b → ¬Below l r.buffer b'

def roundedTotal (a : Int) (l : List (BufferInterval β)) : Int := (l.map (·.rounded a)).sum

/-- After the intervals in `done`: the trees of their roots have chunks, the others have none. -/
structure Assigned (a : Int) (l : List (BufferInterval β)) (before : β → Option Chunk)
    (done : List (BufferInterval β)) (h : Heap β) : Prop where
  bufferIntervals : h.bufferIntervals = l
  alignment : h.alignment = a
  ordered : h.intervalTree.Ordered
  listed : ∀ i ∈ l, ∀ c, h.chunkMap i.buffer = some c → h.intervalTree.Mem ⟨i.start, i.stop, c⟩
  inHeap : ∀ e, h.intervalTree.Mem e → InHeap a h.heapSize (roundedTotal a done) e.value
  heapSize : 0 ≤ h.heapSize ∧ h.heapSize ≤ roundedTotal a done
  placed : ∀ r ∈ done, r.needAllocation = true →
    ∃ c : Chunk, c.size = r.size ∧ ∀ b, Below l r.buffer b → h.chunkMap b = some c
  waiting : ∀ r ∈ l, r ∉ done → r.needAllocation = true →
    ∀ b, Below l r.buffer b → h.chunkMap b = none
  apart : ∀ i ∈ l, ∀ j ∈ l, Unrelated l i.buffer j.buffer → i.start ≤ j.stop → j.start ≤ i.stop →
    ∀ c d, h.chunkMap i.buffer = some c → h.chunkMap j.buffer = some d → Apart c d
  frame : ∀ b, (∀ i ∈ l, i.buffer ≠ b) → h.chunkMap b = before b

section Finish

variable {a : Int} {l done : List (BufferInterval β)} {before : β → Option Chunk} {h h' : Heap β}
    {i r : BufferInterval β} {candidate : ChunkCandidate} {busy : List Chunk} {c : Chunk}

theorem roundedTotal_concat :
    roundedTotal a (done ++ [i]) = roundedTotal a done + i.rounded a := by
  rw [roundedTotal, map_append, sum_append]
  exact congrArg (roundedTotal a done + ·) (Int.add_zero _)

theorem Assigned.skip (hs : Assigned a l before done h) (hneed : i.needAllocation = false) :
    Assigned a l before (done ++ [i]) h := by
  have htotal : roundedTotal a (done ++ [i]) = roundedTotal a done := by
    rw [roundedTotal_concat, BufferInterval.rounded, hneed]
    exact Int.add_zero _
  refine ⟨hs.bufferIntervals, hs.alignment, hs.ordered, hs.listed, ?_, ?_, ?_, ?_, hs.apart,
    hs.frame⟩
  · rw [htotal]
    exact hs.inHeap
  · rw [htotal]
    exact hs.heapSize
  · refine forall_mem_append.mpr ⟨hs.placed, forall_mem_singleton.mpr fun hi => ?_⟩
    rw [hneed] at hi
    cases hi
  · intro r hr hrdone
    exact hs.waiting r hr fun hin => hrdone (mem_append_left _ hin)

theorem Assigned.commit (hs : Assigned a l before done h) (hf : Forest l) (ha : 1 ≤ a)
    (hdone : ∀ s ∈ done, s ∈ l) (hr : r ∈ l) (hneed : r.needAllocation = true)
    (hsize : 0 < r.size)
    (hbusy : ∀ c, c ∈ busy ↔ ∃ i ∈ l, Below l r.buffer i.buffer ∧
      c ∈ h.intervalTree.overlapping i.start i.stop)
    (hp : Placed a h.heapSize (roundedTotal a done) r.size busy candidate)
    (hheap : h'.heapSize = candidate.heapSize)
    (hc : Committed h h' candidate.chunk (Below l r.buffer)) :
    Assigned a l before (done ++ [r]) h' := by
  have hround : r.rounded a = alignUp r.size a := if_pos hneed
  have hle : r.size ≤ alignUp r.size a := le_alignUp ha
  have hgrow := hp.heapSize_le
  have hroom := hp.heapSize_le_room
  have hnonneg := hs.heapSize.1
  have hin : InHeap a h'.heapSize (roundedTotal a (done ++ [r])) candidate.chunk := by
    refine ⟨hp.nonneg, ?_, hp.aligned, ?_, ?_⟩
    · rw [hp.size_eq]
      exact hsize
    · rw [hp.size_eq, hheap]
      exact hp.end_le
    · rw [hp.size_eq, roundedTotal_concat, hround, alignUp_add ha hp.aligned]
      exact Int.add_le_add_right hp.le_room _
  -- The tree finds every chunk that was given to an interval before.
  have hfound : ∀ i ∈ l, ∀ j ∈ l, Below l r.buffer i.buffer → i.start ≤ j.stop → j.start ≤ i.stop →
      ∀ d, h.chunkMap j.buffer = some d → Apart candidate.chunk d := by
    intro i hi j hj hbelow hij hji d hd
    apply Or.symm
    apply hp.apart
    rw [hbusy]
    refine ⟨i, hi, hbelow, ?_⟩
    rw [hs.ordered.mem_overlapping]
    exact ⟨⟨j.start, j.stop, d⟩, hs.listed j hj d hd, rfl, hji, hij⟩
  constructor
  · exact hc.bufferIntervals.trans hs.bufferIntervals
  · exact hc.alignment.trans hs.alignment
  · exact hc.ordered hs.ordered
  · intro i hi c hic
    rw [hc.mem_tree]
    by_cases hbelow : Below l r.buffer i.buffer
    · rw [hc.chunkMap _ hbelow] at hic
      cases hic
      exact .inr ⟨i, hs.bufferIntervals.symm ▸ hi, hbelow, rfl⟩
    · rw [hc.frame _ hbelow] at hic
      exact .inl (hs.listed i hi c hic)
  · intro e he
    rcases (hc.mem_tree e).mp he with he | ⟨i, -, -, he⟩
    · have hin := hs.inHeap e he
      refine { hin with end_le := Int.le_trans hin.end_le ?_, room := Int.le_trans hin.room ?_ }
      · omega
      · rw [roundedTotal_concat]
        omega
    · rw [he]
      exact hin
  · rw [hheap, roundedTotal_concat]
    omega
  · intro s hsd hsneed
    by_cases heq : s = r
    · rw [heq]
      exact ⟨candidate.chunk, hp.size_eq, hc.chunkMap⟩
    · have hsd' : s ∈ done := (mem_append.mp hsd).resolve_right
        fun hno => heq (mem_singleton.mp hno)
      obtain ⟨c, hcs, hcb⟩ := hs.placed s hsd' hsneed
      refine ⟨c, hcs, ?_⟩
      intro b hb
      rw [hc.frame b fun hb' => heq (hf.root_unique (hdone s hsd') hsneed hr hneed hb hb')]
      exact hcb b hb
  · intro s hsl hsd hsneed b hb
    have heq : s ≠ r := by
      intro heq
      exact hsd (mem_append_right _ (mem_singleton.mpr heq))
    rw [hc.frame b fun hb' => heq (hf.root_unique hsl hsneed hr hneed hb hb')]
    exact hs.waiting s hsl (fun hno => hsd (mem_append_left _ hno)) hsneed b hb
  · intro i hi j hj hun hij hji c d hic hjd
    by_cases hbi : Below l r.buffer i.buffer
    · rw [hc.chunkMap _ hbi] at hic
      rw [hc.frame _ (hun r hr hneed hbi)] at hjd
      cases hic
      exact hfound i hi j hj hbi hij hji d hjd
    · rw [hc.frame _ hbi] at hic
      by_cases hbj : Below l r.buffer j.buffer
      · rw [hc.chunkMap _ hbj] at hjd
        cases hjd
        exact (hfound j hj i hi hbj hji hij c hic).symm
      · rw [hc.frame _ hbj] at hjd
        exact hs.apart i hi j hj hun hij hji c d hic hjd
  · intro b hb
    have hnot : ¬Below l r.buffer b := by
      intro hbelow
      obtain ⟨i, hi, hbuf⟩ := hf.exists_of_below hr hbelow
      exact hb i hi hbuf
    rw [hc.frame b hnot]
    exact hs.frame b hb

theorem roundedTotal_nonneg (ha : 1 ≤ a) (hsize : ∀ i ∈ l, 0 < i.size) : 0 ≤ roundedTotal a l := by
  apply sum_nonneg
  intro n hn
  obtain ⟨i, hi, rfl⟩ := mem_map.mp hn
  rw [BufferInterval.rounded]
  split
  · exact alignUp_nonneg ha (Int.le_of_lt (hsize i hi))
  · exact Int.le_refl 0

variable [DecidableEq β] (orders : Orders β) {fuel : Nat}

theorem Assigned.place (hs : Assigned a l before done h) (hf : Forest l) (ha : 1 ≤ a)
    (hfuel : l.length ≤ fuel) (hdone : ∀ s ∈ done, s ∈ l) (hi : i ∈ l) (hnew : i ∉ done)
    (hsize : 0 < i.size) (hfit : roundedTotal a (done ++ [i]) < 2 ^ 63 - 1) :
    ∃ h', place orders fuel h i = some h' ∧ Assigned a l before (done ++ [i]) h' := by
  unfold HeapSimulator.place
  cases hneed : i.needAllocation with
  | false => exact ⟨h, rfl, hs.skip hneed⟩
  | true =>
    have hl := hs.bufferIntervals
    have hround : i.rounded a = alignUp i.size a := if_pos hneed
    have hle : i.size ≤ alignUp i.size a := le_alignUp ha
    rw [roundedTotal_concat, hround] at hfit
    obtain ⟨busy, hfind, hbusy⟩ := findChunkCandidate_spec orders (hl.symm ▸ hf)
      (hl.symm ▸ hi) hneed (hl.symm ▸ hfuel)
    rw [hl] at hbusy
    have hin : ∀ c ∈ busy, InHeap a h.heapSize (roundedTotal a done) c := by
      intro c hc
      obtain ⟨j, -, -, hover⟩ := (hbusy c).mp hc
      obtain ⟨e, he, rfl, -⟩ := hs.ordered.mem_overlapping.mp hover
      exact hs.inHeap e he
    have hp := fitChunk_spec ha hin (by omega) hsize hs.heapSize.1 hs.heapSize.2 (by omega)
      (orders.sortChunks_perm busy) (orders.sortChunks_sorted busy)
    obtain ⟨h', hcommit, hheap, hc⟩ := commitChunk_spec orders
      (fitChunk a h.heapSize i.size (-1) (orders.sortChunks busy)) (hl.symm ▸ hf)
      (hl.symm ▸ hi) hneed (hl.symm ▸ hfuel) (hl.symm ▸ hs.waiting i hi hnew hneed)
    rw [hl] at hc
    refine ⟨h', ?_, hs.commit hf ha hdone hi hneed hsize hbusy hp hheap hc⟩
    rw [if_pos rfl, hfind, hs.alignment]
    exact hcommit

theorem Assigned.places (todo : List (BufferInterval β)) (hs : Assigned a l before done h)
    (hf : Forest l) (ha : 1 ≤ a) (hfuel : l.length ≤ fuel) (hmem : ∀ s ∈ done ++ todo, s ∈ l)
    (hnodup : (done ++ todo).Nodup) (hsize : ∀ i ∈ l, 0 < i.size)
    (hfit : roundedTotal a (done ++ todo) < 2 ^ 63 - 1) :
    ∃ h', todo.foldlM (HeapSimulator.place orders fuel) h = some h' ∧
      Assigned a l before (done ++ todo) h' := by
  induction todo generalizing done h with
  | nil =>
    rw [append_nil]
    exact ⟨h, rfl, hs⟩
  | cons i todo ih =>
    have hi : i ∈ l := hmem i (mem_append_right _ mem_cons_self)
    have hnew : i ∉ done := by
      intro hin
      exact (nodup_append.mp hnodup).2.2 i hin i mem_cons_self rfl
    have hsplit : done ++ i :: todo = done ++ [i] ++ todo := by
      rw [append_assoc]
      rfl
    rw [hsplit] at hmem hnodup hfit ⊢
    have hnonneg : 0 ≤ roundedTotal a todo :=
      roundedTotal_nonneg ha fun s hs => hsize s (hmem s (mem_append_right _ hs))
    have hfit' : roundedTotal a (done ++ [i]) < 2 ^ 63 - 1 := by
      rw [roundedTotal, map_append, sum_append] at hfit
      exact Int.lt_of_le_of_lt (Int.le_add_of_nonneg_right hnonneg) hfit
    obtain ⟨h1, hstep, hs1⟩ := hs.place orders hf ha hfuel
      (fun s hsd => hmem s (mem_append_left _ (mem_append_left _ hsd))) hi hnew
      (hsize i hi) hfit'
    obtain ⟨h', hrun, hs'⟩ := ih hs1 hmem hnodup hfit
    refine ⟨h', ?_, hs'⟩
    rw [foldlM_cons, hstep]
    exact hrun

omit [DecidableEq β] in
theorem Assigned.start (hf : Forest l) (hl : h.bufferIntervals = l)
    (halign : h.alignment = a) (htree : h.intervalTree = .nil) (hheap : h.heapSize = 0)
    (hnone : ∀ i ∈ l, h.chunkMap i.buffer = none) : Assigned a l h.chunkMap [] h where
  bufferIntervals := hl
  alignment := halign
  ordered := by
    rw [htree]
    trivial
  listed := by
    intro i hi c hc
    rw [hnone i hi] at hc
    cases hc
  inHeap := by
    intro e he
    rw [htree] at he
    exact absurd he id
  heapSize := by
    rw [hheap]
    exact ⟨Int.le_refl 0, Int.le_refl 0⟩
  placed := nofun
  waiting := by
    intro r hr _ _ b hb
    obtain ⟨i, hi, rfl⟩ := hf.exists_of_below hr hb
    exact hnone i hi
  apart := by
    intro i hi _ _ _ _ _ c _ hc
    rw [hnone i hi] at hc
    cases hc
  frame := fun _ _ => rfl

theorem finish_spec (ha : 1 ≤ a) (hs : Assigned a l before [] h) (hf : Forest l)
    (hfuel : l.length ≤ fuel) (hsize : ∀ i ∈ l, 0 < i.size)
    (hfit : roundedTotal a l < 2 ^ 63 - 1) :
    ∃ h', finish orders fuel h = some ⟨h'.chunkMap, h'.heapSize⟩ ∧
      Assigned a l before (orders.sortIntervals l) h' := by
  have hperm := orders.sortIntervals_perm l
  have htotal : roundedTotal a (orders.sortIntervals l) = roundedTotal a l :=
    (hperm.map _).sum_eq
  obtain ⟨h', hrun, hs'⟩ := hs.places orders (orders.sortIntervals l) hf ha hfuel
    (fun s hsd => hperm.mem_iff.mp hsd) (hperm.nodup_iff.mpr hf.nodup.of_map) hsize
    (htotal.symm ▸ hfit)
  refine ⟨h', ?_, hs'⟩
  rw [finish, hs.bufferIntervals, hrun]
  rfl

end Finish

end TfReading.HeapSimulator
