import Mathlib.Data.List.Sort
import TfReading.HeapSimulator.Assignment
import TfReading.HeapSimulator.Recorded

/-!
# Soundness of the assignment

Chunks are as large as their buffers, lie in the heap, are shared by colocated buffers and are
apart for buffers that live at the same time.  This holds as long as the sizes together stay below
the size of the free chunk that the search starts with.
-/

namespace TfReading.HeapSimulator

open List

variable {β : Type}

def SameGroup (calls : List (Call β)) : β → β → Prop :=
  Relation.EqvGen fun shared b => ∃ n, .shareWith b shared n ∈ calls

def Chunk.Holds (c : Chunk) (x : Int) : Prop := c.offset ≤ x ∧ x < c.offset + c.size

structure Sound (a : Int) (calls : List (Call β)) (result : HeapResult β) : Prop where
  chunk : ∀ b n, Introduced calls b n → ∃ c, result.chunkMap b = some c ∧ c.size = n ∧
    0 ≤ c.offset ∧ a ∣ c.offset ∧ c.offset + c.size ≤ result.heapSize
  group : ∀ b b', SameGroup calls b b' → result.chunkMap b = result.chunkMap b'
  disjoint : ∀ b b', ¬SameGroup calls b b' →
    (∃ m m', SameGroup calls b m ∧ SameGroup calls b' m' ∧ LiveTogether calls m m') →
    ∀ c c', result.chunkMap b = some c → result.chunkMap b' = some c' →
      ∀ x, ¬(c.Holds x ∧ c'.Holds x)

section Groups

variable {a : Int} {calls : List (Call β)} {h : Heap β} {i j r : BufferInterval β} {b c : β}

theorem LiveTogether.symm (hlive : LiveTogether calls b c) : LiveTogether calls c b := by
  obtain ⟨p, hp, hb, hc⟩ := hlive
  exact ⟨p, hp, hc, hb⟩

theorem Recorded.sameGroup_of_below (hr : Recorded a calls h) (hb : Below h.bufferIntervals b c) :
    SameGroup calls b c := by
  induction hb with
  | refl => exact .refl b
  | tail _ hp ih =>
    obtain ⟨i, hi, rfl, hmem⟩ := hp
    obtain ⟨n, -, hcall⟩ := (hr.colocated i hi _).mp hmem
    exact ih.trans _ _ _ (.rel _ _ ⟨n, hcall⟩)

theorem Recorded.size_eq_of_below (hr : Recorded a calls h) (hl : Legal calls)
    (hi : i ∈ h.bufferIntervals) (hb : Below h.bufferIntervals i.buffer b)
    (hj : j ∈ h.bufferIntervals) (hbuf : j.buffer = b) : j.size = i.size := by
  induction hb generalizing j with
  | refl => rw [hr.forest.eq_of_buffer hj hi hbuf]
  | tail _ hp ih =>
    obtain ⟨k, hk, hkbuf, hmem⟩ := hp
    obtain ⟨n, -, hcall⟩ := (hr.colocated k hk _).mp hmem
    obtain ⟨m, -, hjs, hjm⟩ := hr.introduced j hj
    obtain ⟨m', -, hks, hkm⟩ := hr.introduced k hk
    rw [hbuf] at hjm
    rw [← ih hk hkbuf, hjs, hks, hl.introduced_unique hjm (.inr ⟨_, hcall⟩),
      hl.introduced_unique hkm (hl.introduced_shared hcall)]

end Groups

section Soundness

variable {a : Int} {calls : List (Call β)} {h h' : Heap β} {orders : Orders β}
  {i : BufferInterval β} {b b' : β}
  (hl : Legal calls) (hr : Recorded a calls h)
  (hs : Assigned a h.bufferIntervals h.chunkMap (orders.sortIntervals h.bufferIntervals) h')
include hl hr hs

theorem chunkMap_of_empty (hb : Introduced calls b 0) : h'.chunkMap b = some ⟨0, 0⟩ := by
  rw [hs.frame b]
  · exact (hr.chunk b _).mpr ⟨rfl, hb⟩
  · intro i hi heq
    obtain ⟨n, hne, -, hn⟩ := hr.introduced i hi
    exact hne (hl.introduced_unique (heq ▸ hn) hb)

theorem chunkMap_of_interval (hi : i ∈ h.bufferIntervals) :
    ∃ r, Below h.bufferIntervals r i.buffer ∧ ∃ c : Chunk, c.size = i.size ∧
      ∀ b, Below h.bufferIntervals r b → h'.chunkMap b = some c := by
  obtain ⟨r, hrl, hneed, hbelow⟩ := hr.forest.exists_root (fun i hi => (hr.time i hi).1) hi
  have hdone : r ∈ orders.sortIntervals h.bufferIntervals :=
    (orders.sortIntervals_perm _).mem_iff.mpr hrl
  obtain ⟨c, hsize, hc⟩ := hs.placed r hdone hneed
  refine ⟨r.buffer, hbelow, c, ?_, hc⟩
  rw [hsize, hr.size_eq_of_below hl hrl hbelow hi rfl]

theorem chunkMap_spec {n : Nat} (hb : Introduced calls b n) :
    ∃ c, h'.chunkMap b = some c ∧ c.size = n ∧ 0 ≤ c.offset ∧ a ∣ c.offset ∧
      c.offset + c.size ≤ h'.heapSize := by
  by_cases hn : n = 0
  · subst hn
    refine ⟨⟨0, 0⟩, chunkMap_of_empty hl hr hs hb, rfl, Int.le_refl 0, Int.dvd_zero a, ?_⟩
    exact hs.heapSize.1
  · obtain ⟨i, hi, rfl, hsize⟩ := hr.interval b n hb hn
    obtain ⟨r, hbelow, c, hcs, hc⟩ := chunkMap_of_interval hl hr hs hi
    have hin := hs.inHeap _ (hs.listed i hi c (hc _ hbelow))
    exact ⟨c, hc _ hbelow, hcs.trans hsize, hin.nonneg, hin.aligned, hin.end_le⟩

theorem chunkMap_eq_of_sameGroup (hg : SameGroup calls b b') : h'.chunkMap b = h'.chunkMap b' := by
  induction hg with
  | refl => rfl
  | symm b b' _ ih => exact ih.symm
  | trans b b' b'' _ _ ih ih' => exact ih.trans ih'
  | rel s b hcall =>
    obtain ⟨n, hcall⟩ := hcall
    have hshared := hl.introduced_shared hcall
    by_cases hn : n = 0
    · subst hn
      rw [chunkMap_of_empty hl hr hs hshared, chunkMap_of_empty hl hr hs (.inr ⟨s, hcall⟩)]
    · obtain ⟨i, hi, rfl, -⟩ := hr.interval s n hshared hn
      have hp : Parent h.bufferIntervals i.buffer b :=
        ⟨i, hi, rfl, (hr.colocated i hi b).mpr ⟨n, hn, hcall⟩⟩
      obtain ⟨r, hbelow, c, -, hc⟩ := chunkMap_of_interval hl hr hs hi
      rw [hc _ hbelow, hc _ (hbelow.tail hp)]

theorem apart_of_liveTogether (hfreed : ∀ b n, Introduced calls b n → Freed calls b)
    (hne : ¬SameGroup calls b b') (hlive : LiveTogether calls b b') {c c' : Chunk}
    (hc : h'.chunkMap b = some c) (hc' : h'.chunkMap b' = some c') : Apart c c' := by
  obtain ⟨p, hp, ⟨⟨n, hn⟩, -⟩, ⟨m, hm⟩, -⟩ := id hlive
  have hn := hn.of_le hp
  have hm := hm.of_le hp
  obtain ⟨d, hd, hdsize, hdpos, -⟩ := chunkMap_spec hl hr hs hn
  obtain ⟨d', hd', hdsize', hdpos', -⟩ := chunkMap_spec hl hr hs hm
  rw [hc] at hd
  rw [hc'] at hd'
  cases hd
  cases hd'
  by_cases hn0 : n = 0
  · subst hn0
    rw [chunkMap_of_empty hl hr hs hn] at hc
    cases hc
    exact .inl hdpos'
  by_cases hm0 : m = 0
  · subst hm0
    rw [chunkMap_of_empty hl hr hs hm] at hc'
    cases hc'
    exact .inr hdpos
  obtain ⟨i, hi, rfl, -⟩ := hr.interval b n hn hn0
  obtain ⟨j, hj, rfl, -⟩ := hr.interval b' m hm hm0
  have hunrelated : Unrelated h.bufferIntervals i.buffer j.buffer := by
    intro r _ _ hbi hbj
    exact hne (.trans _ _ _ ((hr.sameGroup_of_below hbi).symm) (hr.sameGroup_of_below hbj))
  have hjstop : i.start < j.stop :=
    (hr.overlap i hi j hj hlive).resolve_left fun hno => (hr.stop j hj).mp hno (hfreed _ _ hm)
  have histop : j.start < i.stop :=
    (hr.overlap j hj i hi hlive.symm).resolve_left
      fun hno => (hr.stop i hi).mp hno (hfreed _ _ hn)
  exact hs.apart i hi j hj hunrelated (Int.le_of_lt hjstop) (Int.le_of_lt histop) c c' hc hc'

end Soundness

/-- For all orders in which `Finish` may take the intervals, and as many turns of the worklist as
there are intervals. -/
theorem finish_sound [DecidableEq β] (orders : Orders β) {a : Int} (ha : 1 ≤ a)
    {calls : List (Call β)} (hl : Legal calls)
    (hfreed : ∀ b n, Introduced calls b n → Freed calls b)
    (hfit : allocTotal a calls < 2 ^ 63 - 1) :
    ∃ h, run a calls = some h ∧ ∀ fuel, h.bufferIntervals.length ≤ fuel →
      ∃ result, finish orders fuel h = some result ∧ Sound a calls result := by
  obtain ⟨h, hrun, hr⟩ := hl.recorded ha
  refine ⟨h, hrun, ?_⟩
  intro fuel hfuel
  have hnone : ∀ i ∈ h.bufferIntervals, h.chunkMap i.buffer = none := by
    intro i hi
    cases hc : h.chunkMap i.buffer with
    | none => rfl
    | some =>
      obtain ⟨n, hne, -, hn⟩ := hr.introduced i hi
      exact absurd (hl.introduced_unique hn ((hr.chunk _ _).mp hc).2) hne
  have hsize : ∀ i ∈ h.bufferIntervals, 0 < i.size := by
    intro i hi
    obtain ⟨n, hne, hn, -⟩ := hr.introduced i hi
    omega
  have hstart := Assigned.start hr.forest rfl hr.alignment hr.intervalTree hr.heapSize hnone
  have htotal : roundedTotal a h.bufferIntervals < 2 ^ 63 - 1 := by
    rw [roundedTotal, hr.total]
    exact hfit
  obtain ⟨h', hfinish, hs⟩ := finish_spec orders ha hstart hr.forest hfuel hsize htotal
  refine ⟨_, hfinish, ?_, ?_, ?_⟩
  · exact fun b n => chunkMap_spec hl hr hs
  · exact fun b b' => chunkMap_eq_of_sameGroup hl hr hs
  · intro b b' hne hex c c' hc hc'
    obtain ⟨m, m', hbm, hbm', hlive⟩ := hex
    dsimp only at hc hc'
    rw [chunkMap_eq_of_sameGroup hl hr hs hbm] at hc
    rw [chunkMap_eq_of_sameGroup hl hr hs hbm'] at hc'
    have hnem : ¬SameGroup calls m m' := fun hmm =>
      hne (.trans _ _ _ (hbm.trans _ _ _ hmm) hbm'.symm)
    rintro x ⟨⟨h1, h2⟩, h3, h4⟩
    rcases apart_of_liveTogether hl hr hs hfreed hnem hlive hc hc' with h | h
    · omega
    · omega

/-! ## The spatial order -/

/-- `GetSpatialBufferIntervalCompare` -/
def spatialBefore [LT β] [DecidableLT β] (x y : BufferInterval β) : Bool :=
  if x.size ≠ y.size then y.size < x.size
  else if x.stop - x.start ≠ y.stop - y.start then y.stop - y.start < x.stop - x.start
  else x.buffer < y.buffer

/-- Chunks at equal offsets and the elements of a set keep the order in which they were added. -/
def spatialOrders [LT β] [DecidableLT β] : Orders β where
  sortIntervals := List.insertionSort fun x y => ¬spatialBefore y x
  sortIntervals_perm := List.perm_insertionSort _
  sortChunks := List.insertionSort fun x y => x.offset ≤ y.offset
  sortChunks_perm := List.perm_insertionSort _
  sortChunks_sorted := by
    have htotal : Std.Total fun x y : Chunk => x.offset ≤ y.offset :=
      ⟨fun x y => Int.le_total x.offset y.offset⟩
    have htrans : IsTrans Chunk fun x y => x.offset ≤ y.offset :=
      ⟨fun _ _ _ => Int.le_trans⟩
    exact List.pairwise_insertionSort _
  setOrder := id
  setOrder_perm := List.Perm.refl

def sharingCalls : List (Call Nat) :=
  [.alloc 0 4, .alloc 1 6, .shareWith 2 1 6, .free 0 4, .free 1 6, .free 2 6]

theorem legal_sharingCalls : Legal sharingCalls := by
  have h1 : Legal [Call.alloc 0 4] := Legal.nil.alloc (by simp [Introduced])
  have h2 : Legal [Call.alloc 0 4, .alloc 1 6] := h1.alloc (by simp [Introduced])
  have h3 : Legal [Call.alloc 0 4, .alloc 1 6, .shareWith 2 1 6] :=
    h2.shareWith (by simp [Introduced]) (by simp [Introduced])
  have h4 : Legal [Call.alloc 0 4, .alloc 1 6, .shareWith 2 1 6, .free 0 4] :=
    h3.free (by simp [Introduced]) (by simp [Freed])
  have h5 : Legal [Call.alloc 0 4, .alloc 1 6, .shareWith 2 1 6, .free 0 4, .free 1 6] :=
    h4.free (by simp [Introduced]) (by simp [Freed])
  exact h5.free (by simp [Introduced]) (by simp [Freed])

theorem freed_sharingCalls : ∀ b n, Introduced sharingCalls b n → Freed sharingCalls b := by
  intro b n hn
  simp only [Introduced, sharingCalls, mem_cons, Call.alloc.injEq, Call.shareWith.injEq,
    reduceCtorEq, not_mem_nil, or_false, false_or] at hn
  rcases hn with (⟨rfl, -⟩ | ⟨rfl, -⟩) | ⟨_, rfl, -⟩
  · exact ⟨4, by simp [sharingCalls]⟩
  · exact ⟨6, by simp [sharingCalls]⟩
  · exact ⟨6, by simp [sharingCalls]⟩

theorem finish_sound_sharingCalls : Legal sharingCalls ∧
    (∀ b n, Introduced sharingCalls b n → Freed sharingCalls b) ∧
    allocTotal 4 sharingCalls < 2 ^ 63 - 1 ∧
    ∃ h, run 4 sharingCalls = some h ∧ ∀ fuel, h.bufferIntervals.length ≤ fuel →
      ∃ result, finish spatialOrders fuel h = some result ∧ Sound 4 sharingCalls result := by
  have hfit : allocTotal 4 sharingCalls < 2 ^ 63 - 1 := by decide
  exact ⟨legal_sharingCalls, freed_sharingCalls, hfit,
    finish_sound spatialOrders (by decide) legal_sharingCalls freed_sharingCalls hfit⟩

/-- The first buffer is as large as the free chunk that the search starts with. -/
def maxSizedCalls : List (Call Nat) :=
  [.alloc 0 (2 ^ 63 - 1), .free 0 (2 ^ 63 - 1), .alloc 1 5, .free 1 5]

theorem legal_maxSizedCalls : Legal maxSizedCalls := by
  have h1 : Legal [Call.alloc 0 (2 ^ 63 - 1)] := Legal.nil.alloc (by simp [Introduced])
  have h2 : Legal [Call.alloc 0 (2 ^ 63 - 1), .free 0 (2 ^ 63 - 1)] :=
    h1.free (by simp [Introduced]) (by simp [Freed])
  have h3 : Legal [Call.alloc 0 (2 ^ 63 - 1), .free 0 (2 ^ 63 - 1), .alloc 1 5] :=
    h2.alloc (by simp [Introduced])
  exact h3.free (by simp [Introduced]) (by simp [Freed])

theorem freed_maxSizedCalls : ∀ b n, Introduced maxSizedCalls b n → Freed maxSizedCalls b := by
  intro b n hn
  simp only [Introduced, maxSizedCalls, mem_cons, Call.alloc.injEq, reduceCtorEq,
    not_mem_nil, or_false, false_or, exists_false] at hn
  rcases hn with ⟨rfl, -⟩ | ⟨rfl, -⟩
  · exact ⟨2 ^ 63 - 1, by simp [maxSizedCalls]⟩
  · exact ⟨5, by simp [maxSizedCalls]⟩

/-- The free range is not smaller than the chunk that the search starts with, so that the heap
shrinks to the size of the second buffer. -/
theorem not_sound_maxSizedCalls : Legal maxSizedCalls ∧
    (∀ b n, Introduced maxSizedCalls b n → Freed maxSizedCalls b) ∧
    ∃ h result, run 1 maxSizedCalls = some h ∧
      finish spatialOrders h.bufferIntervals.length h = some result ∧
      ¬Sound 1 maxSizedCalls result := by
  refine ⟨legal_maxSizedCalls, freed_maxSizedCalls, ?_⟩
  have heval : ((run 1 maxSizedCalls).bind fun h =>
      (finish spatialOrders h.bufferIntervals.length h).map fun r => (r.chunkMap 0, r.heapSize)) =
      some (some ⟨0, 2 ^ 63 - 1⟩, 5) := by decide +kernel
  obtain ⟨h, hrun, hmap⟩ := Option.bind_eq_some_iff.mp heval
  obtain ⟨result, hfinish, hresult⟩ := Option.map_eq_some_iff.mp hmap
  refine ⟨h, result, hrun, hfinish, ?_⟩
  intro hsound
  obtain ⟨c, hc, -, -, -, hend⟩ := hsound.chunk 0 (2 ^ 63 - 1) (.inl mem_cons_self)
  rw [Prod.mk.injEq, hc] at hresult
  cases hresult.1
  rw [hresult.2] at hend
  exact absurd hend (by decide)

end TfReading.HeapSimulator
