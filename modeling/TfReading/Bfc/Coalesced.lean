import Mathlib.Data.Nat.Log
import TfReading.Bfc.Runs

/-!
# Free chunks are merged

Without a timing counter two free chunks of a region never touch, so a run of free bytes lies in one
chunk.  A chunk that is large enough is found in its bin, and a request fails only if no run of free
bytes is long enough for it.
-/

namespace TfReading.Bfc

open Outcome Heap Tiling

variable {sub : SubAllocator} {cfg : Config}

namespace Heap

variable {s : Heap} {h : ChunkHandle} {r : AllocationRegion} {a n : Nat}

def Free (s : Heap) (h : ChunkHandle) : Prop :=
  (s.chunks h).inUse = false ∧ (s.Registered h ∨ ∃ b, h ∈ s.bins b)

/-- Of two free chunks that start in one region, none begins where the other ends. -/
def Coalesced (s : Heap) : Prop :=
  ∀ h k, s.Free h → s.Free k → h ≠ k → ∀ r ∈ s.regionManager.regions,
    r.ptr ≤ (s.chunks h).ptr → (s.chunks k).ptr < r.endPtr →
      (s.chunks h).ptr + (s.chunks h).size ≠ (s.chunks k).ptr

structure FreeBytes (s : Heap) (r : AllocationRegion) (a n : Nat) : Prop where
  mem : r ∈ s.regionManager.regions
  pos : 0 < n
  left : r.ptr ≤ a
  right : a + n ≤ r.endPtr
  unused : ∀ h, (s.chunks h).inUse = true →
    (s.chunks h).ptr + (s.chunks h).size ≤ a ∨ a + n ≤ (s.chunks h).ptr

theorem Free.registered (hh : s.Free h) (hs : s.Inv []) : s.Registered h := by
  rcases hh.2 with hr | ⟨b, hb⟩
  · exact hr
  · exact hs.toBinned.registered hb

theorem Mapped.next_eq_some (hs : s.Mapped) (hr : r ∈ s.regionManager.regions)
    (hh : s.Registered h) (hlo : r.ptr ≤ (s.chunks h).ptr)
    (hhi : (s.chunks h).ptr + (s.chunks h).size < r.endPtr) :
    ∃ k, (s.chunks h).next = some k ∧ s.Registered k ∧
      (s.chunks k).ptr = (s.chunks h).ptr + (s.chunks h).size := by
  obtain ⟨k, hn, -⟩ := hs.tiled.next_eq_some ⟨r, hr, rfl, rfl⟩ hh hlo hhi
  exact ⟨k, hn, hs.next_registered hh hn⟩

theorem Tidy.coalesced (ht : s.Tidy []) (hs : s.Inv []) : s.Coalesced := by
  intro h k hh hk hne r hr hlo hhi heq
  have hhr := hh.registered hs
  have hkr := hk.registered hs
  obtain ⟨j, hn, hjr, hjp⟩ := hs.next_eq_some hr hhr hlo (heq ▸ hhi)
  have hjk : j = k := by
    by_contra hjk
    exact hjr.ptr_ne hkr hjk (hjp.trans heq)
  rcases ht.apart h k hhr hkr (hjk ▸ hn) hh.1 hk.1 with hmem | hmem <;> cases hmem

theorem Mapped.exists_chunk_at (hs : s.Mapped) (hr : r ∈ s.regionManager.regions)
    (h1 : r.ptr ≤ a) (h2 : a < r.endPtr) :
    ∃ h, s.Registered h ∧ r.ptr ≤ (s.chunks h).ptr ∧ (s.chunks h).ptr ≤ a ∧
      a < (s.chunks h).ptr + (s.chunks h).size := by
  obtain ⟨l, -, hfills, -, hmem⟩ := hs.tiled.exists_chain ⟨r, hr, rfl, rfl⟩
  obtain ⟨h, hl, hin⟩ := hfills.exists_mem h1 h2
  obtain ⟨d, hd, -, hh⟩ := (hmem h).mp hl
  exact ⟨h, hs.registered hh, hs.ptr_eq hh ▸ hd, hin⟩

theorem FreeBytes.exists_chunk (hb : s.FreeBytes r a n) (hs : s.Mapped) (ht : s.Tidy []) :
    ∃ h, s.Registered h ∧ (s.chunks h).inUse = false ∧ n ≤ (s.chunks h).size := by
  have hpos := hb.pos
  have hend := hb.right
  have hmeets : ∀ h, (s.chunks h).ptr < a + n → a < (s.chunks h).ptr + (s.chunks h).size →
      (s.chunks h).inUse = false := by
    intro h h1 h2
    by_contra hu
    have hout := hb.unused h (Bool.eq_true_of_not_eq_false hu)
    omega
  obtain ⟨h, hh, hlo, hle, hlt⟩ := hs.exists_chunk_at hb.mem hb.left (by omega)
  have hfree := hmeets h (by omega) hlt
  refine ⟨h, hh, hfree, ?_⟩
  by_contra hshort
  obtain ⟨k, hn, hk, hkp⟩ := hs.next_eq_some hb.mem hh hlo (by omega)
  have hmem := ht.apart h k hh hk hn hfree (hmeets k (by omega) (by omega))
  rcases hmem with hmem | hmem <;> cases hmem

end Heap

/-! ## The search in the bins -/

theorem binNumForSize_mono {m n : Nat} (h : m ≤ n) : binNumForSize m ≤ binNumForSize n := by
  rw [binNumForSize, binNumForSize, Nat.log2_eq_log_two, Nat.log2_eq_log_two,
    Nat.shiftRight_eq_div_pow, Nat.shiftRight_eq_div_pow]
  have hmax : max m 256 ≤ max n 256 := max_le_max_right 256 h
  exact min_le_min_left _ (Nat.log_mono_right (Nat.div_le_div_right hmax))

namespace State

variable {s s' : State sub} {q : Request} {h : ChunkHandle} {n : Nat}

/-- A free chunk that is large enough, without a timestamp, is found or another one before it. -/
theorem firstFit_ne_none {t : Heap} (ht : t.Inv []) (hh : t.Registered h)
    (hu : (t.chunks h).inUse = false) (hfreed : (t.chunks h).freedAtCount = 0)
    (hn : n ≤ (t.chunks h).size) (freedBefore : Nat) :
    firstFit t (binNumForSize n) n freedBefore ≠ none := by
  intro hnone
  have hbin := ht.mem_bin hh hu List.not_mem_nil
  have hmono := binNumForSize_mono hn
  have hlast : binNumForSize (t.chunks h).size < kNumBins :=
    lt_of_le_of_lt (Nat.min_le_left _ _) (by decide)
  have hb := List.findSome?_eq_none_iff.mp hnone (binNumForSize (t.chunks h).size) (by
    rw [List.mem_range'_1, Nat.add_sub_cancel' (Nat.lt_of_le_of_lt hmono hlast).le]
    exact ⟨hmono, hlast⟩)
  rw [Option.map_eq_none_iff, List.find?_eq_none] at hb
  refine hb h hbin ?_
  simp [fits, hfreed, hn]

theorem orElse_found {r : Option Nat × State sub} (hr : r.1.isSome = true)
    (f : State sub → Except Fault (Option Nat × State sub)) :
    Sat (fun _ => True) (fun r => r.1.isSome = true) (orElse r f) := by
  obtain ⟨o, t⟩ := r
  cases o with
  | none => cases hr
  | some => exact hr

theorem allocateRawInternal_found (hq : q.numBytes ≠ 0) (hqueue : s.timestampedChunks = [])
    (hfit : firstFit s.heap (binNumForSize (roundedBytes q.numBytes)) (roundedBytes q.numBytes)
      q.freedBefore ≠ none) :
    Sat (fun _ => True) (fun r => r.1.isSome = true) (s.allocateRawInternal cfg q) := by
  have htry : Sat (fun _ => True) (fun r => r.1.isSome = true) (s.tryFind cfg q) := by
    rw [tryFind, findChunkPtr]
    split
    next hnone => exact absurd hnone hfit
    next b h _ =>
      exact .bind (.any _) fun t _ => .bind (.any _) fun c _ =>
        .bind (.any _) fun u _ => .bind (.any _) fun c' _ => rfl
  have hfind : Sat (fun _ => True) (fun r => r.1.isSome = true) (s.findOrExtend cfg q) := by
    rw [findOrExtend, mergeSafeChunks, hqueue]
    exact htry.bind fun r hr => orElse_found hr _
  rw [allocateRawInternal, if_neg hq]
  exact (hfind.bind fun r hr => orElse_found hr _).bind fun r hr => orElse_found hr _

end State

namespace Session

variable {r : Session sub}

/-- Free chunks are merged in every run without a timing counter, and a request fails only if every
run of free bytes is too short for it, as long as fewer than `2 ^ 63` bytes are lent out at a
time. -/
theorem reachable_coalesced (hsmall : sub.Small) (hfrag : 0 < cfg.maxInternalFragmentation)
    (htiming : cfg.timingCounter = false) (hr : (runs sub cfg).Reachable r) :
    r.state.heap.Coalesced ∧
      ∀ (q : State.Request) s', q.numBytes ≠ 0 →
        r.state.allocateRawInternal cfg q = .ok (none, s') →
          ∀ region a n, r.state.heap.FreeBytes region a n → n < roundedBytes q.numBytes := by
  obtain ⟨hinv, hqueue, htidy⟩ := reachable_untimed hsmall hfrag htiming hr
  have hheap := hinv.state.heap
  refine ⟨htidy.coalesced hheap, fun q s' hq hcall region a n hbytes => ?_⟩
  by_contra hlong
  obtain ⟨h, hh, hu, hsize⟩ := hbytes.exists_chunk hheap.toMapped htidy
  have hfit := State.firstFit_ne_none hheap hh hu (htidy.untimed h hh)
    (le_trans (not_lt.mp hlong) hsize) q.freedBefore
  have hfound := (State.allocateRawInternal_found hq hqueue hfit).of_ok hcall
  cases hfound

theorem reachable_coalesced_oneSlot :
    ∃ r : Session oneSlot, (runs oneSlot untimed).Reachable r ∧ r.live = [4352] ∧
      r.state.heap.Coalesced := by
  obtain ⟨r, hr, hlive⟩ := exists_reachable oneSlot untimed
    [.allocateRaw ⟨64, 100, 0, 4⟩, .allocateRaw ⟨64, 300, 0, 4⟩, .deallocateRaw 4096 0]
    (fun r => decide (r.live = [4352])) (by decide +kernel)
  exact ⟨r, hr, of_decide_eq_true hlive,
    (reachable_coalesced oneSlot_small (by decide) rfl hr).1⟩

/-- The empty rest of the chunk that is split is free, and so is the first chunk of the region that
starts there.  The rest is linked behind its own chunk, and its address is in the other region. -/
theorem not_coalesced_of_noFragmentation : ∃ r : Session adjacentSlots,
    (runs adjacentSlots noFragmentation).Reachable r ∧ ¬r.state.heap.Coalesced := by
  obtain ⟨r, hr, hp⟩ := exists_reachable adjacentSlots noFragmentation
    [.allocateRaw ⟨64, 256, 0, 4⟩, .deallocateRaw (2 ^ 23) 0, .allocateRaw ⟨64, 2 ^ 22, 0, 64⟩]
    (fun r => decide (⟨2 ^ 23, 2 ^ 21⟩ ∈ r.state.heap.regionManager.regions ∧
      0 ∈ r.state.heap.bins 13 ∧ 2 ∈ r.state.heap.bins 0 ∧
      (r.state.heap.chunks 0).inUse = false ∧ (r.state.heap.chunks 2).inUse = false ∧
      (r.state.heap.chunks 0).ptr = 2 ^ 23 ∧ (r.state.heap.chunks 2).ptr = 2 ^ 23 ∧
      (r.state.heap.chunks 2).size = 0))
    (by decide +kernel)
  obtain ⟨hregion, h₀, h₂, hu₀, hu₂, hp₀, hp₂, hsize⟩ := of_decide_eq_true hp
  refine ⟨r, hr, fun hco => ?_⟩
  refine hco 2 0 ⟨hu₂, .inr ⟨0, h₂⟩⟩ ⟨hu₀, .inr ⟨13, h₀⟩⟩ (by decide) _ hregion ?_ ?_ ?_
  · exact hp₂.symm.le
  · rw [hp₀]
    decide
  · rw [hp₂, hsize, hp₀, Nat.add_zero]

end Session
end TfReading.Bfc
