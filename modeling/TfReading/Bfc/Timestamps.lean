import TfReading.Bfc.Allocator
import TfReading.Bfc.Usage

/-!
# `MergeTimestampedChunks`

A handle stays in `timestamped_chunks_` while its chunk may be merged away, handed out again,
or its slot be given to another chunk.  What stays true is that the slot holds an address of
memory that the allocator owns (`Standing`), and this is all that the first loop relies on.
The second loop works on addresses at which no chunk in use starts (`Mergeable`).
-/

namespace TfReading.Bfc

open Outcome List

namespace Heap

variable {s t : Heap} {h k : ChunkHandle} {p : Nat}

/-- A chunk could start at `p`, and no chunk in use does. -/
structure Mergeable (s : Heap) (p : Nat) : Prop where
  owns : s.owns p
  aligned : kMinAllocationSize ∣ p
  free : ∀ j, (s.chunks j).inUse = true → (s.chunks j).ptr ≠ p

theorem Settled.refl (hs : s.Inv []) : Settled s s :=
  ⟨hs, .refl s, .refl s, rfl⟩

theorem Settled.mergeable (hst : Settled s t) (hp : s.Mergeable p) : t.Mergeable p := by
  constructor
  · rw [hst.owns_eq]
    exact hp.owns
  · exact hp.aligned
  · intro j hj
    have hju : (s.chunks j).inUse = true := (hst.keepsUse.inUse j).symm.trans hj
    rw [hst.keepsUse.ptr j hju]
    exact hp.free j hju

theorem mergeable_of_binned (hs : s.Inv []) {b : BinNum} (hb : (s.chunks h).binNum = some b) :
    s.Mergeable (s.chunks h).ptr := by
  obtain ⟨hr, hu, -, -⟩ := hs.mem_iff.mp (hs.binNum_iff.mp hb)
  have hst := hs.toMapped.standing hr
  refine ⟨hst.owns, hst.aligned, fun j hj hptr => ?_⟩
  have hjr := hs.inUse_registered hj
  rw [Registered, hptr, show s.handles _ = _ from hr] at hjr
  cases hjr
  rw [hu] at hj
  cases hj

theorem Mergeable.not_inUse (hp : s.Mergeable p) (hs : s.Mapped) (hh : s.handles p = some h) :
    (s.chunks h).inUse = false := by
  cases hu : (s.chunks h).inUse with
  | false => rfl
  | true => exact absurd (hs.ptr_eq hh) (hp.free h hu)

theorem Settled.setChunk_freedAtCount (hs : s.Inv []) (hr : s.Registered h) (n : Nat) :
    Settled s (s.setChunk h { s.chunks h with freedAtCount := n }) := by
  constructor
  · exact hs.setChunk_freedAtCount hr n
  · constructor
    · exact le_rfl
    all_goals
      intro j
      obtain ⟨m, hm⟩ := chunks_setChunk_freedAtCount s h j n
      rw [hm]
    · rfl
    · exact fun _ => rfl
    · exact fun _ => rfl
  · exact (inPlace_setChunk (by rfl)).keepsStanding
  · rfl

end Heap

namespace State

open Heap

variable {s : Heap} {queued : ChunkHandle} {p frontier required : Nat} {w : Sweep}

/-! ## The first loop -/

/-- What the first loop has come to from the heap `s`. -/
structure Swept (s : Heap) (w : Sweep) : Prop where
  settled : Settled s w.heap
  toMerge : ∀ p ∈ w.toMerge, w.heap.Mergeable p
  newQueue : ∀ h ∈ w.newQueue, w.heap.Standing h

theorem Swept.addToMerge (hw : Swept s w) (hp : w.heap.Mergeable p) :
    Swept s { w with toMerge := w.toMerge ++ [p] } := by
  refine ⟨hw.settled, fun x hx => ?_, hw.newQueue⟩
  rcases mem_append.mp hx with hx | hx
  · exact hw.toMerge x hx
  · rw [mem_singleton.mp hx]
    exact hp

theorem Swept.setHeap (hw : Swept s w) {t : Heap} (ht : Settled w.heap t) :
    Swept s { w with heap := t } :=
  ⟨hw.settled.trans ht, fun p hp => ht.mergeable (hw.toMerge p hp),
    fun h hh => ht.keepsStanding h (hw.newQueue h hh)⟩

theorem sweepChunk_spec (hw : Swept s w) (hq : w.heap.Standing queued) :
    Returns (Swept s) (sweepChunk frontier required w queued) := by
  have hinv := hw.settled.inv
  rw [sweepChunk, chunkFromHandle_eq hq.valid]
  show Returns _ (w.heap.regionManager.getHandle (w.heap.chunks queued).ptr >>= _)
  rw [hinv.toMapped.getHandle_eq hq.owns hq.aligned]
  cases hh : w.heap.handles (w.heap.chunks queued).ptr with
  | none => exact hw
  | some =>
    split
    · exact hw
    next huse =>
      -- the chunk is in a bin, so the slot is not out of date
      obtain ⟨b, hb⟩ : ∃ b, (w.heap.chunks queued).binNum = some b := by
        cases hb : (w.heap.chunks queued).binNum with
        | none => simp [hb] at huse
        | some b => exact ⟨b, rfl⟩
      have hp := mergeable_of_binned hinv hb
      have hr := (hinv.mem_iff.mp (hinv.binNum_iff.mp hb)).1
      split
      · exact hw.addToMerge hp
      split
      · have ht := Settled.setChunk_freedAtCount hinv hr 0
        exact (hw.setHeap ht).addToMerge (ht.mergeable hp)
      split
      · exact hw.addToMerge hp
      · refine ⟨hw.settled, hw.toMerge, fun j hj => ?_⟩
        rcases mem_append.mp hj with hj | hj
        · exact hw.newQueue j hj
        · rw [mem_singleton.mp hj]
          exact hinv.toMapped.standing (hinv.toMapped.registered hh)

theorem sweepChunks_spec (hs : s.Inv []) {queue : List ChunkHandle}
    (hq : ∀ h ∈ queue, s.Standing h) :
    Returns (Swept s) (sweepChunks frontier required { heap := s } queue) := by
  have hstart : Swept s { heap := s } :=
    ⟨.refl hs, nofun, nofun⟩
  apply Sat.foldlM hstart
  intro w queued hin hw
  exact sweepChunk_spec hw (hw.settled.keepsStanding queued (hq queued hin))

/-! ## The second loop -/

/-- What the second loop has come to from the heap `s`. -/
structure Merged (s : Heap) (w : Merging) : Prop where
  settled : Settled s w.heap
  queue : ∀ h ∈ w.queue, w.heap.Standing h

theorem Merged.addToQueue {w : Merging} (hw : Merged s w) {h : ChunkHandle}
    (hr : w.heap.Registered h) : ∀ j ∈ w.queue ++ [h], w.heap.Standing j := by
  intro j hj
  rcases mem_append.mp hj with hj | hj
  · exact hw.queue j hj
  · rw [mem_singleton.mp hj]
    exact hw.settled.inv.toMapped.standing hr

theorem mergeChunkAt_spec {w : Merging} (hw : Merged s w) (hp : w.heap.Mergeable p) :
    Returns (Merged s) (mergeChunkAt required w p) := by
  have hinv := hw.settled.inv
  rw [mergeChunkAt, hinv.toMapped.getHandle_eq hp.owns hp.aligned]
  cases hh : w.heap.handles p with
  | none => exact hw
  | some h =>
    have hr := hinv.toMapped.registered hh
    have hu := hp.not_inUse hinv.toMapped hh
    split
    · apply Sat.bind (removeFreeChunkFromBin_spec hinv hr hu not_mem_nil)
      intro t ht
      have hrt := (ht.2.inPlace.registered_iff h).mpr hr
      have hut : (t.chunks h).inUse = false := (ht.2.keepsUse.inUse h).trans hu
      apply Sat.bind (coalesceIntoBin_spec ht.1 hrt hut)
      intro ⟨newH, t'⟩ hpost
      obtain ⟨hset, hreg, -⟩ : Settled t t' ∧ t'.Registered newH ∧ _ := hpost
      have hset' : Settled w.heap t' :=
        ⟨hset.inv, ht.2.keepsUse.trans hset.keepsUse, ht.2.inPlace.keepsStanding.trans hset.keepsStanding,
          hset.owns_eq.trans ht.2.inPlace.owns_eq⟩
      have hmerged : Merged s { w with heap := t' } :=
        ⟨hw.settled.trans hset', fun j hj => hset'.keepsStanding j (hw.queue j hj)⟩
      show Returns _ (t'.chunkFromHandle newH >>= _)
      rw [chunkFromHandle_eq (hset.inv.valid hreg)]
      refine ⟨hmerged.settled, ?_⟩
      split
      · exact hmerged.addToQueue hreg
      · exact hmerged.queue
    · exact ⟨hw.settled, hw.addToQueue hr⟩

end State
end TfReading.Bfc
