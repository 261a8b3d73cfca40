import Mathlib.Tactic.Ring
import TfReading.HeapSimulator.BestFit

/-!
# Where a chunk is placed

`FindChunkCandidate` walks over the chunks in the order of their offsets.  Each gap that it looks
at is free of all of them, and when no gap is large enough the heap grows.
-/

namespace TfReading.HeapSimulator

open Util List

/-! ## Rounding -/

/-- The least multiple of `a` that is not below `v`. -/
def alignUp (v a : Int) : Int := (v + a - 1) / a * a

section Rounding

variable {a v w o : Int} (ha : 1 ≤ a)
include ha

theorem le_alignUp : v ≤ alignUp v a := by
  have h := Int.emod_add_mul_ediv (v + a - 1) a
  have hlt := Int.emod_lt_of_pos (v + a - 1) (show 0 < a by omega)
  rw [alignUp, Int.mul_comm]
  omega

theorem alignUp_lt : alignUp v a < v + a := by
  have h := Int.emod_add_mul_ediv (v + a - 1) a
  have hnonneg := Int.emod_nonneg (v + a - 1) (show a ≠ 0 by omega)
  rw [alignUp, Int.mul_comm]
  omega

omit ha in
theorem dvd_alignUp : a ∣ alignUp v a := Int.dvd_mul_left _ _

theorem alignUp_le (hw : a ∣ w) (hle : v ≤ w) : alignUp v a ≤ w := by
  obtain ⟨q, rfl⟩ := hw
  have hlt := alignUp_lt (v := v) ha
  rw [alignUp] at hlt ⊢
  have hq : (v + a - 1) / a < q + 1 := by
    by_contra hge
    have hmul : (q + 1) * a ≤ (v + a - 1) / a * a :=
      Int.mul_le_mul_of_nonneg_right (Int.not_lt.mp hge) (by omega)
    have hring : (q + 1) * a = a * q + a := by ring
    omega
  have hmul : (v + a - 1) / a * a ≤ q * a :=
    Int.mul_le_mul_of_nonneg_right (Int.lt_add_one_iff.mp hq) (by omega)
  rw [Int.mul_comm a q]
  exact hmul

theorem alignUp_add (ho : a ∣ o) : alignUp (o + v) a = o + alignUp v a := by
  obtain ⟨q, rfl⟩ := ho
  have hsplit : a * q + v + a - 1 = v + a - 1 + q * a := by ring
  rw [alignUp, alignUp, hsplit, Int.add_mul_ediv_right _ _ (by omega)]
  ring

theorem alignUp_nonneg (hv : 0 ≤ v) : 0 ≤ alignUp v a := Int.le_trans hv (le_alignUp ha)

theorem alignUp_zero : alignUp 0 a = 0 := by
  rw [alignUp, Int.ediv_eq_zero_of_lt (by omega) (by omega), Int.zero_mul]

theorem ceilOfRatio_mul (hv : 0 ≤ v) : ceilOfRatio v a * a = alignUp v a := by
  have hdiv : v.tdiv a = v / a := Int.tdiv_eq_ediv_of_nonneg hv
  have hq : 0 ≤ v / a := Int.ediv_nonneg hv (by omega)
  have hle : v / a * a ≤ v := Int.ediv_mul_le v (by omega)
  rw [ceilOfRatio, hdiv]
  split
  next h =>
    apply le_antisymm
    · have hpos : a ∣ alignUp v a := dvd_alignUp
      obtain ⟨q, hqa⟩ := hpos
      have hva := le_alignUp (v := v) ha
      have hstep : v / a < q := by
        by_contra hge
        have hmul : q * a ≤ v / a * a :=
          Int.mul_le_mul_of_nonneg_right (Int.not_lt.mp hge) (by omega)
        rw [hqa, Int.mul_comm a q] at hva
        omega
      rw [hqa, Int.mul_comm a q]
      exact Int.mul_le_mul_of_nonneg_right hstep (by omega)
    · apply alignUp_le ha (Int.dvd_mul_left _ _)
      have hmod := Int.emod_add_mul_ediv v a
      have hlt' := Int.emod_lt_of_pos v (show 0 < a by omega)
      have hring : (v / a + 1) * a = a * (v / a) + a := by ring
      omega
  next h =>
    have heq : v / a * a = v := by
      by_contra hne
      exact h ⟨hq, .inl ⟨by omega, lt_of_le_of_ne hle hne⟩⟩
    apply le_antisymm
    · rw [heq]
      exact le_alignUp ha
    · apply alignUp_le ha (Int.dvd_mul_left _ _)
      omega

theorem roundUpToNearest_eq (hv : 0 ≤ v) (hlt : alignUp v a < 2 ^ 63) :
    roundUpToNearest v a = alignUp v a := by
  have hnonneg := alignUp_nonneg ha hv
  rw [roundUpToNearest, ceilOfRatio_mul ha hv, toInt64_of_lt (by omega) hlt]

end Rounding

def BufferInterval.rounded {β : Type} (a : Int) (i : BufferInterval β) : Int :=
  if i.needAllocation then alignUp i.size a else 0

/-! ## Gaps -/

def Apart (c d : Chunk) : Prop := c.offset + c.size ≤ d.offset ∨ d.offset + d.size ≤ c.offset

/-- A chunk of the heap.  `room` bounds the space that all chunks so far may take. -/
structure InHeap (a heapSize room : Int) (c : Chunk) : Prop where
  nonneg : 0 ≤ c.offset
  size_pos : 0 < c.size
  aligned : a ∣ c.offset
  end_le : c.offset + c.size ≤ heapSize
  room : alignUp (c.offset + c.size) a ≤ room

structure FreeGap (a heapSize room size : Int) (busy : List Chunk) (gap : Chunk) : Prop where
  nonneg : 0 ≤ gap.offset
  aligned : a ∣ gap.offset
  le_room : gap.offset ≤ room
  end_le : gap.offset + gap.size ≤ heapSize
  fits : size ≤ gap.size
  apart : ∀ c ∈ busy, Apart c gap

/-- After some chunks: no gap yet or one that is free, and an offset to go on from. -/
structure Scanned (a heapSize room size : Int) (busy : List Chunk)
    (scanned : Int × ChunkCandidate) : Prop where
  nonneg : 0 ≤ scanned.1
  aligned : a ∣ scanned.1
  le_room : scanned.1 ≤ room
  heapSize_eq : scanned.2.heapSize = heapSize
  gap : scanned.2.chunk = ⟨-1, 2 ^ 63 - 1⟩ ∨ FreeGap a heapSize room size busy scanned.2.chunk

structure Placed (a heapSize room size : Int) (busy : List Chunk) (candidate : ChunkCandidate) :
    Prop where
  size_eq : candidate.chunk.size = size
  nonneg : 0 ≤ candidate.chunk.offset
  aligned : a ∣ candidate.chunk.offset
  le_room : candidate.chunk.offset ≤ room
  end_le : candidate.chunk.offset + size ≤ candidate.heapSize
  heapSize_le : heapSize ≤ candidate.heapSize
  heapSize_le_room : candidate.heapSize ≤ room + size
  apart : ∀ c ∈ busy, Apart c candidate.chunk

section Fit

variable {a heapSize room size : Int} {busy chunks : List Chunk} {candidate : ChunkCandidate}
  {scanned : Int × ChunkCandidate}

theorem useFreeChunkIfSmaller_eq {freeOffset freeSize : Int} (h : 0 ≤ freeOffset) :
    useFreeChunkIfSmaller heapSize size (-1) candidate freeOffset freeSize =
      if size ≤ freeSize ∧ freeSize < candidate.chunk.size then
        { candidate with chunk := ⟨freeOffset, freeSize⟩ }
      else candidate := by
  unfold useFreeChunkIfSmaller
  split
  next hsmall => rw [if_neg (by omega)]
  next hlarge =>
    have hno : ¬freeOffset ≤ -1 := by omega
    have hyes : size ≤ freeSize := Int.not_lt.mp hlarge
    simp only [hno, hyes, false_and, and_false, if_false, true_and, true_or,
      show (-1 : Int) < 0 by decide]

theorem FreeGap.placed (h : FreeGap a heapSize room size busy candidate.chunk)
    (hheap : candidate.heapSize = heapSize) (hle : heapSize ≤ room + size) :
    Placed a heapSize room size busy { candidate with chunk := { candidate.chunk with size } } where
  size_eq := rfl
  nonneg := h.nonneg
  aligned := h.aligned
  le_room := h.le_room
  end_le := by
    have hend := h.end_le
    have hfits := h.fits
    show candidate.chunk.offset + size ≤ candidate.heapSize
    omega
  heapSize_le := Int.le_of_eq hheap.symm
  heapSize_le_room := by
    show candidate.heapSize ≤ room + size
    omega
  apart := by
    intro c hc
    have hfits := h.fits
    rcases h.apart c hc with hapart | hapart
    · exact .inl hapart
    · right
      show candidate.chunk.offset + size ≤ c.offset
      omega

variable (ha : 1 ≤ a) (hbusy : ∀ c ∈ busy, InHeap a heapSize room c) (hroom : room < 2 ^ 63 - 1)
    {c : Chunk}
include ha hbusy hroom

theorem roundUp_chunkEnd (hc : c ∈ busy) :
    roundUpToNearest c.chunkEnd a = alignUp (c.offset + c.size) a := by
  have h := hbusy c hc
  have hle := le_alignUp (v := c.offset + c.size) ha
  have hnonneg : 0 ≤ c.offset + c.size := Int.add_nonneg h.nonneg (Int.le_of_lt h.size_pos)
  have hroomc := h.room
  rw [Chunk.chunkEnd, toInt64_of_lt (by omega) (by omega)]
  exact roundUpToNearest_eq ha hnonneg (by omega)

theorem Scanned.scanChunk (hs : Scanned a heapSize room size busy scanned) (hc : c ∈ busy)
    (hother : ∀ d ∈ busy, c.offset ≤ d.offset ∨ d.offset + d.size ≤ scanned.1) :
    Scanned a heapSize room size busy (scanChunk a heapSize size (-1) scanned c) := by
  have hin := hbusy c hc
  have hend := hin.end_le
  have hpos := hin.size_pos
  have hup := le_alignUp (v := c.offset + c.size) ha
  have hcroom := hin.room
  have hnonneg := hs.nonneg
  have hsub : scanned.1 < c.offset → toInt64 (c.offset - scanned.1) = c.offset - scanned.1 :=
    fun hlt => toInt64_of_lt (by omega) (by omega)
  unfold HeapSimulator.scanChunk
  rw [roundUp_chunkEnd ha hbusy hroom hc, useFreeChunkIfSmaller_eq hnonneg]
  constructor
  · exact Int.le_trans hnonneg (Int.le_max_left _ _)
  · rcases Int.le_total scanned.1 (alignUp (c.offset + c.size) a) with h | h
    · rw [Int.max_eq_right h]
      exact dvd_alignUp
    · rw [Int.max_eq_left h]
      exact hs.aligned
  · exact Int.max_le.mpr ⟨hs.le_room, hcroom⟩
  · split
    · split
      · exact hs.heapSize_eq
      · exact hs.heapSize_eq
    · exact hs.heapSize_eq
  · split
    next hlt =>
      split
      next hfits =>
        right
        refine ⟨hnonneg, hs.aligned, hs.le_room, ?_, hfits.1, ?_⟩
        · dsimp only
          omega
        · intro d hd
          rcases hother d hd with hge | hbehind
          · right
            dsimp only
            omega
          · exact .inl hbehind
      · exact hs.gap
    · exact hs.gap

theorem Scanned.scanChunks (hs : Scanned a heapSize room size busy scanned)
    (hmem : ∀ c ∈ chunks, c ∈ busy)
    (hsorted : chunks.Pairwise fun x y => x.offset ≤ y.offset)
    (hother : ∀ c ∈ busy, c ∈ chunks ∨ c.offset + c.size ≤ scanned.1) :
    Scanned a heapSize room size busy
        (chunks.foldl (HeapSimulator.scanChunk a heapSize size (-1)) scanned) ∧
      ∀ c ∈ busy, c.offset + c.size ≤
        (chunks.foldl (HeapSimulator.scanChunk a heapSize size (-1)) scanned).1 := by
  induction chunks generalizing scanned with
  | nil => exact ⟨hs, fun c hc => (hother c hc).resolve_left not_mem_nil⟩
  | cons c chunks ih =>
    have hc : c ∈ busy := hmem c mem_cons_self
    obtain ⟨hfirst, hrest⟩ := pairwise_cons.mp hsorted
    apply ih
    · apply hs.scanChunk ha hbusy hroom hc
      intro d hd
      rcases hother d hd with hd | hd
      · rcases mem_cons.mp hd with heq | hd
        · rw [heq]
          exact .inl (Int.le_refl _)
        · exact .inl (hfirst d hd)
      · exact .inr hd
    · exact fun d hd => hmem d (mem_cons_of_mem c hd)
    · exact hrest
    · intro d hd
      show _ ∨ _ ≤ max scanned.1 (roundUpToNearest c.chunkEnd a)
      rcases hother d hd with hd | hd
      · rcases mem_cons.mp hd with heq | hd
        · right
          rw [heq, roundUp_chunkEnd ha hbusy hroom hc]
          exact Int.le_trans (le_alignUp ha) (Int.le_max_right _ _)
        · exact .inl hd
      · exact .inr (Int.le_trans hd (Int.le_max_left _ _))

theorem fitChunk_spec (hsize : 0 < size) (hheap : 0 ≤ heapSize) (hheap' : heapSize ≤ room)
    (hfit : room + size < 2 ^ 63 - 1) (hperm : chunks.Perm busy)
    (hsorted : chunks.Pairwise fun x y => x.offset ≤ y.offset) :
    Placed a heapSize room size busy (fitChunk a heapSize size (-1) chunks) := by
  have hinit : Scanned a heapSize room size busy (0, ⟨⟨-1, 2 ^ 63 - 1⟩, heapSize⟩) :=
    ⟨Int.le_refl 0, Int.dvd_zero a, Int.le_trans hheap hheap', rfl, .inl rfl⟩
  obtain ⟨hs, hbehind⟩ := hinit.scanChunks ha hbusy hroom (fun c hc => hperm.mem_iff.mp hc) hsorted
    fun c hc => .inl (hperm.mem_iff.mpr hc)
  unfold fitChunk
  dsimp only
  generalize chunks.foldl (HeapSimulator.scanChunk a heapSize size (-1)) _ = scanned at hs hbehind ⊢
  have hnonneg := hs.nonneg
  have hle := hs.le_room
  have hsub : toInt64 (heapSize - scanned.1) = heapSize - scanned.1 :=
    toInt64_of_lt (by omega) (by omega)
  have hadd : toInt64 (scanned.1 + size) = scanned.1 + size := toInt64_of_lt (by omega) (by omega)
  rw [hsub, hadd, useFreeChunkIfSmaller_eq hnonneg, if_neg (show ¬heapSize ≤ -1 by omega)]
  split
  next hlast =>
    -- The range behind all chunks.
    have hgap : FreeGap a heapSize room size busy ⟨scanned.1, heapSize - scanned.1⟩ := by
      refine ⟨hnonneg, hs.aligned, hle, ?_, hlast.1, fun c hc => .inl (hbehind c hc)⟩
      dsimp only
      omega
    rw [if_neg (show ¬scanned.1 = -1 by omega)]
    exact FreeGap.placed hgap hs.heapSize_eq (by omega)
  next hlast =>
    rcases hs.gap with hnone | hgap
    · rw [hnone] at hlast
      dsimp only at hlast
      rw [if_pos (by rw [hnone])]
      -- No gap was large enough, so the last one was too small.
      refine ⟨rfl, hnonneg, hs.aligned, hle, Int.le_refl _, ?_, ?_, fun c hc => .inl (hbehind c hc)⟩
      · dsimp only
        omega
      · dsimp only
        omega
    · have hgnonneg := hgap.nonneg
      rw [if_neg (by omega)]
      exact hgap.placed hs.heapSize_eq (by omega)

end Fit

end TfReading.HeapSimulator
