import TfReading.Bfc.Heap
import TfReading.Library.Outcome
import TfReading.Library.TilingSpans

/-!
# The invariant of the heap

`Heap.Inv s holes` says that the chunks tile the regions, that the handle map knows exactly
the chunk starts, that the recycled slots are linked apart from them, and that a chunk is in
the bin of its size exactly if it is free.  `holes` are the free chunks that a call has in
hand between taking them out of a bin and putting them back or marking them used.
-/

namespace TfReading.Bfc

open Outcome Tiling List

/-! ## Regions -/

namespace RegionManager

def span (m : RegionManager) (lo hi : Nat) : Prop := ∃ r ∈ m.regions, r.ptr = lo ∧ r.endPtr = hi

def owns (m : RegionManager) (a : Nat) : Prop := ∃ r ∈ m.regions, r.ptr ≤ a ∧ a < r.endPtr

structure WellFormed (m : RegionManager) : Prop where
  sorted : m.regions.Pairwise fun r r' => r.endPtr ≤ r'.ptr
  pos : ∀ r ∈ m.regions, 0 < r.memorySize
  aligned : ∀ r ∈ m.regions, kMinAllocationSize ∣ r.ptr
  bounded : ∀ r ∈ m.regions, r.endPtr < wordSize

variable {m : RegionManager} {p : Nat} {r : AllocationRegion}

theorem find_region {l : List AllocationRegion}
    (hl : l.Pairwise fun r r' => r.endPtr ≤ r'.ptr) (hr : r ∈ l) (h1 : r.ptr ≤ p)
    (h2 : p < r.endPtr) : (l.find? fun r => decide (p < r.endPtr)) = some r := by
  induction l with
  | nil => cases hr
  | cons x t ih =>
    obtain ⟨hx, ht⟩ := pairwise_cons.mp hl
    rcases mem_cons.mp hr with rfl | hr
    · rw [find?_cons_of_pos (by simpa using h2)]
    · have hle := hx r hr
      rw [find?_cons_of_neg (by simp only [decide_eq_true_eq]; omega)]
      exact ih ht hr

theorem WellFormed.regionFor_eq (hm : m.WellFormed) (hr : r ∈ m.regions)
    (h1 : r.ptr ≤ p) (h2 : p < r.endPtr) : m.regionFor p = .ok r := by
  rw [regionFor, find_region hm.sorted hr h1 h2]

theorem WellFormed.nodup (hm : m.WellFormed) : m.regions.Nodup := by
  apply hm.sorted.imp_of_mem
  intro x y hx _ hxy heq
  have hpos := hm.pos x hx
  have hend : x.endPtr = x.ptr + x.memorySize := rfl
  rw [← heq] at hxy
  omega

theorem WellFormed.congr {m' : RegionManager} (hm : m.WellFormed) (heq : m'.regions = m.regions) :
    m'.WellFormed := by
  constructor <;> rw [heq]
  · exact hm.sorted
  · exact hm.pos
  · exact hm.aligned
  · exact hm.bounded

theorem slotFor_eq (hr : kMinAllocationSize ∣ r.ptr)
    (hp : kMinAllocationSize ∣ p) (h : r.ptr ≤ p) : r.slotFor p = .ok p := by
  rw [AllocationRegion.slotFor, if_pos h, Nat.mul_div_cancel' (Nat.dvd_sub hp hr)]
  rw [Nat.add_sub_cancel' h]

theorem WellFormed.getHandle_eq (hm : m.WellFormed) (ho : m.owns p)
    (hp : kMinAllocationSize ∣ p) : m.getHandle p = .ok (m.handles p) := by
  obtain ⟨r, hr, h1, h2⟩ := ho
  rw [getHandle, hm.regionFor_eq hr h1 h2]
  show (r.slotFor p >>= fun a => .ok (m.handles a)) = _
  rw [slotFor_eq (hm.aligned r hr) hp h1]
  rfl

theorem WellFormed.setHandle_eq (hm : m.WellFormed) (ho : m.owns p) (hp : kMinAllocationSize ∣ p)
    (h : Option ChunkHandle) :
    m.setHandle p h = .ok { m with handles := Function.update m.handles p h } := by
  obtain ⟨r, hr, h1, h2⟩ := ho
  rw [setHandle, hm.regionFor_eq hr h1 h2]
  show (r.slotFor p >>= fun a => .ok { m with handles := Function.update m.handles a h }) = _
  rw [slotFor_eq (hm.aligned r hr) hp h1]
  rfl

end RegionManager

/-! ## The heap -/

theorem check_true {b : Bool} (h : b = true) : check b = .ok () := by
  rw [check, if_pos h]

def Chunk.block (c : Chunk) : Block ChunkHandle := ⟨c.ptr, c.size, c.prev, c.next⟩

namespace Heap

def block (s : Heap) (h : ChunkHandle) : Block ChunkHandle := (s.chunks h).block

def handles (s : Heap) : Nat → Option ChunkHandle := s.regionManager.handles

def owns (s : Heap) (a : Nat) : Prop := s.regionManager.owns a

def Registered (s : Heap) (h : ChunkHandle) : Prop := s.handles (s.chunks h).ptr = some h

structure Vacant (s : Heap) (h : ChunkHandle) : Prop where
  valid : h < s.numChunks
  not_inUse : (s.chunks h).inUse = false
  binNum : (s.chunks h).binNum = none
  not_registered : ∀ a, s.handles a ≠ some h

structure FreeList (s : Heap) (l : List ChunkHandle) : Prop where
  walk : Walk (fun h => (s.chunks h).next) s.freeChunksList l
  nodup : l.Nodup
  vacant : ∀ h ∈ l, s.Vacant h

structure Mapped (s : Heap) : Prop where
  regions : s.regionManager.WellFormed
  tiled : Tiled s.block s.handles s.regionManager.span
  aligned : ∀ {a h}, s.handles a = some h → kMinAllocationSize ∣ a
  valid : ∀ {a h}, s.handles a = some h → h < s.numChunks
  inUse_registered : ∀ {h}, (s.chunks h).inUse = true → s.Registered h

structure Binned (s : Heap) (holes : List ChunkHandle) : Prop where
  sorted : ∀ b, (s.bins b).Pairwise fun h k => s.chunkComparator h k = true
  mem_iff : ∀ {b h}, h ∈ s.bins b ↔
    s.Registered h ∧ (s.chunks h).inUse = false ∧ h ∉ holes ∧ binNumForSize (s.chunks h).size = b
  binNum_iff : ∀ {b h}, (s.chunks h).binNum = some b ↔ h ∈ s.bins b

structure Inv (s : Heap) (holes : List ChunkHandle) : Prop extends Mapped s, Binned s holes where
  recycled : ∃ l, s.FreeList l

/-- What a call that allocates and frees nothing leaves as it was. -/
structure KeepsUse (s s' : Heap) : Prop where
  numChunks : s.numChunks ≤ s'.numChunks
  inUse : ∀ h, (s'.chunks h).inUse = (s.chunks h).inUse
  size : ∀ h, (s.chunks h).inUse = true → (s'.chunks h).size = (s.chunks h).size
  ptr : ∀ h, (s.chunks h).inUse = true → (s'.chunks h).ptr = (s.chunks h).ptr

/-- The address in the chunk slot `h`, which may be out of date, is one that a chunk could
start at. -/
structure Standing (s : Heap) (h : ChunkHandle) : Prop where
  valid : h < s.numChunks
  owns : s.owns (s.chunks h).ptr
  aligned : kMinAllocationSize ∣ (s.chunks h).ptr

/-- Chunk slots that stand for owned memory go on doing so. -/
def KeepsStanding (s s' : Heap) : Prop := ∀ h, s.Standing h → s'.Standing h

/-- Free chunks are merged with their free neighbours, except for those in `holes`, and no chunk
carries a timestamp. -/
structure Tidy (s : Heap) (holes : List ChunkHandle) : Prop where
  untimed : ∀ h, s.Registered h → (s.chunks h).freedAtCount = 0
  apart : ∀ h k, s.Registered h → s.Registered k → (s.chunks h).next = some k →
    (s.chunks h).inUse = false → (s.chunks k).inUse = false → h ∈ holes ∨ k ∈ holes

def Closed (s : Heap) (h : ChunkHandle) : Prop :=
  ∀ k, s.Registered k → (s.chunks h).next = some k → (s.chunks k).inUse = true

variable {s s' s'' : Heap} {holes holes' l : List ChunkHandle} {h k : ChunkHandle} {a : Nat}
    {P : ChunkHandle → Prop}

theorem Tidy.mono (ht : s.Tidy holes) (hsub : holes ⊆ holes') : s.Tidy holes' where
  untimed := ht.untimed
  apart i j hi hj hn hif hjf :=
    (ht.apart i j hi hj hn hif hjf).imp (fun hmem => hsub hmem) fun hmem => hsub hmem

theorem Tidy.close (ht : s.Tidy [h]) (hright : s.Closed h)
    (hleft : ∀ k, s.Registered k → (s.chunks k).next = some h → (s.chunks k).inUse = true) :
    s.Tidy [] where
  untimed := ht.untimed
  apart i j hi hj hn hif hjf := by
    rcases ht.apart i j hi hj hn hif hjf with hmem | hmem
    · rw [mem_singleton.mp hmem] at hn
      rw [hright j hj hn] at hjf
      cases hjf
    · rw [mem_singleton.mp hmem] at hn
      rw [hleft i hi hn] at hif
      cases hif

theorem KeepsUse.refl (s : Heap) : KeepsUse s s :=
  ⟨le_rfl, fun _ => rfl, fun _ _ => rfl, fun _ _ => rfl⟩

theorem KeepsUse.trans (h1 : KeepsUse s s') (h2 : KeepsUse s' s'') : KeepsUse s s'' where
  numChunks := le_trans h1.numChunks h2.numChunks
  inUse h := (h2.inUse h).trans (h1.inUse h)
  size h hu := (h2.size h ((h1.inUse h).trans hu)).trans (h1.size h hu)
  ptr h hu := (h2.ptr h ((h1.inUse h).trans hu)).trans (h1.ptr h hu)

theorem KeepsUse.of_idle (P : ChunkHandle → Prop) (hn : s.numChunks ≤ s'.numChunks)
    (hidle : ∀ h, P h → (s.chunks h).inUse = false ∧ (s'.chunks h).inUse = false)
    (hsame : ∀ h, ¬P h → (s'.chunks h).inUse = (s.chunks h).inUse ∧
      (s'.chunks h).size = (s.chunks h).size ∧ (s'.chunks h).ptr = (s.chunks h).ptr) :
    KeepsUse s s' := by
  have hbusy : ∀ h, (s.chunks h).inUse = true → ¬P h := by
    intro h hu hp
    rw [(hidle h hp).1] at hu
    cases hu
  refine ⟨hn, fun h => ?_, fun h hu => (hsame h (hbusy h hu)).2.1,
    fun h hu => (hsame h (hbusy h hu)).2.2⟩
  by_cases hp : P h
  · rw [(hidle h hp).1, (hidle h hp).2]
  · exact (hsame h hp).1

theorem Standing.of_ptr_eq (h : s.Standing k) (hn : s.numChunks ≤ s'.numChunks)
    (howns : s'.owns = s.owns) (hptr : (s'.chunks k).ptr = (s.chunks k).ptr) : s'.Standing k :=
  ⟨lt_of_lt_of_le h.valid hn, by rw [howns, hptr]; exact h.owns, hptr ▸ h.aligned⟩

theorem KeepsStanding.refl (s : Heap) : KeepsStanding s s := fun _ => id

theorem KeepsStanding.trans (h1 : KeepsStanding s s') (h2 : KeepsStanding s' s'') :
    KeepsStanding s s'' :=
  fun h hh => h2 h (h1 h hh)

/-! ## Reading the invariant -/

theorem chunkFromHandle_eq (hh : h < s.numChunks) : s.chunkFromHandle h = .ok (s.chunks h) :=
  if_pos hh

theorem Mapped.ptr_eq (hs : s.Mapped) (ha : s.handles a = some h) : (s.chunks h).ptr = a :=
  hs.tiled.ptr_eq ha

theorem Mapped.registered (hs : s.Mapped) (ha : s.handles a = some h) : s.Registered h :=
  hs.tiled.registered ha

theorem Mapped.owns (hs : s.Mapped) (ha : s.handles a = some h) : s.owns a := by
  obtain ⟨lo, hi, ⟨r, hr, rfl, rfl⟩, h1, h2⟩ := hs.tiled.inside ha
  have hpos := hs.tiled.size_pos ha
  exact ⟨r, hr, h1, by omega⟩

theorem Mapped.standing (hs : s.Mapped) (hr : s.Registered h) : s.Standing h :=
  ⟨hs.valid hr, hs.owns hr, hs.aligned hr⟩

theorem setHandle_eq (hw : s.regionManager.WellFormed) (ho : s.owns a) (ha : kMinAllocationSize ∣ a)
    (o : Option ChunkHandle) :
    s.setHandle a o = .ok { s with
      regionManager := { s.regionManager with
        handles := Function.update s.regionManager.handles a o } } := by
  rw [setHandle, hw.setHandle_eq ho ha]
  rfl

theorem Mapped.getHandle_eq (hs : s.Mapped) (ho : s.owns a) (ha : kMinAllocationSize ∣ a) :
    s.regionManager.getHandle a = .ok (s.handles a) :=
  hs.regions.getHandle_eq ho ha

theorem Mapped.next_registered (hs : s.Mapped) (hr : s.Registered h)
    (hn : (s.chunks h).next = some k) :
    s.Registered k ∧ (s.chunks k).ptr = (s.chunks h).ptr + (s.chunks h).size := by
  have hk := ((hs.tiled.next_iff hr).mp hn).1
  exact ⟨hs.registered hk, hs.ptr_eq hk⟩

theorem Mapped.prev_registered (hs : s.Mapped) (hr : s.Registered h)
    (hp : (s.chunks h).prev = some k) : s.Registered k :=
  ((hs.tiled.prev_iff hr).mp hp).1

theorem Mapped.next_iff_prev (hs : s.Mapped) (hr : s.Registered h) (hk : s.Registered k) :
    (s.chunks h).next = some k ↔ (s.chunks k).prev = some h :=
  hs.tiled.next_iff_prev hr hk

theorem Mapped.ne_next (hs : s.Mapped) (hr : s.Registered h)
    (hn : (s.chunks h).next = some k) : k ≠ h := by
  rintro rfl
  have hp := (hs.next_registered hr hn).2
  have hpos := hs.tiled.size_pos hr
  change 0 < (s.chunks k).size at hpos
  omega

theorem Mapped.end_lt (hs : s.Mapped) (hr : s.Registered h) :
    (s.chunks h).ptr + (s.chunks h).size < wordSize := by
  obtain ⟨lo, hi, ⟨r, hr, rfl, rfl⟩, h1, h2⟩ := hs.tiled.inside hr
  exact lt_of_le_of_lt h2 (hs.regions.bounded r hr)

theorem Binned.registered {b : BinNum} (hs : s.Binned holes) (hb : h ∈ s.bins b) :
    s.Registered h :=
  (hs.mem_iff.mp hb).1

theorem Binned.mem_bin (hs : s.Binned holes) (hr : s.Registered h)
    (hu : (s.chunks h).inUse = false) (hh : h ∉ holes) :
    h ∈ s.bins (binNumForSize (s.chunks h).size) :=
  hs.mem_iff.mpr ⟨hr, hu, hh, rfl⟩

theorem Binned.binNum_eq_none (hs : s.Binned holes)
    (hno : (s.chunks h).inUse = true ∨ h ∈ holes ∨ ¬s.Registered h) :
    (s.chunks h).binNum = none := by
  cases hb : (s.chunks h).binNum with
  | none => rfl
  | some =>
    obtain ⟨hr, hu, hh, -⟩ := hs.mem_iff.mp (hs.binNum_iff.mp hb)
    rcases hno with hno | hno | hno
    · rw [hu] at hno
      cases hno
    · exact absurd hno hh
    · exact absurd hr hno

theorem Vacant.not_mem_bins (hs : s.Binned holes) (hv : s.Vacant h) (b : BinNum) :
    h ∉ s.bins b :=
  fun hb => hv.not_registered _ (hs.registered hb)

/-! ## Frames -/

/-- Bins stay right when the chunks outside of `P` keep what the bins depend on, and those in `P`
neither were in a bin nor come to belong in one. -/
theorem Binned.frame (hs : s.Binned holes) (hbins : s'.bins = s.bins)
    (hoff : ∀ b h, h ∈ s.bins b → ¬P h)
    (hother : ∀ h, ¬P h → (s'.chunks h).size = (s.chunks h).size ∧
      (s'.chunks h).ptr = (s.chunks h).ptr ∧ (s'.chunks h).inUse = (s.chunks h).inUse ∧
      (s'.chunks h).binNum = (s.chunks h).binNum)
    (hreg : ∀ h, ¬P h → (s'.Registered h ↔ s.Registered h))
    (hholes : ∀ h, ¬P h → (h ∈ holes' ↔ h ∈ holes))
    (hnew : ∀ h, P h → (s'.chunks h).binNum = none ∧
      (s'.Registered h → (s'.chunks h).inUse = false → h ∈ holes')) :
    s'.Binned holes' := by
  constructor
  · intro b
    rw [hbins]
    refine (hs.sorted b).imp_of_mem fun {x y} hx hy hxy => ?_
    obtain ⟨hxs, hxp, -⟩ := hother x (hoff b x hx)
    obtain ⟨hys, hyp, -⟩ := hother y (hoff b y hy)
    rw [chunkComparator] at hxy ⊢
    rw [hxs, hxp, hys, hyp]
    exact hxy
  · intro b h
    rw [hbins]
    by_cases hp : P h
    · exact ⟨fun hb => absurd hp (hoff b h hb), fun ⟨hr, hu, hh, _⟩ =>
        absurd ((hnew h hp).2 hr hu) hh⟩
    · obtain ⟨hsz, -, hu, -⟩ := hother h hp
      rw [hsz, hu, hreg h hp, hholes h hp]
      exact hs.mem_iff
  · intro b h
    rw [hbins]
    by_cases hp : P h
    · rw [(hnew h hp).1]
      exact ⟨nofun, fun hb => absurd hp (hoff b h hb)⟩
    · rw [(hother h hp).2.2.2]
      exact hs.binNum_iff

/-- Only slots in `P` change hands, and these are free before and after. -/
structure Reuses (P : ChunkHandle → Prop) (s s' : Heap) : Prop where
  numChunks : s.numChunks ≤ s'.numChunks
  bins : s'.bins = s.bins
  idle : ∀ h, P h → (s.chunks h).inUse = false ∧ (s'.chunks h).inUse = false
  other : ∀ h, ¬P h → (s'.chunks h).size = (s.chunks h).size ∧
    (s'.chunks h).ptr = (s.chunks h).ptr ∧ (s'.chunks h).inUse = (s.chunks h).inUse ∧
    (s'.chunks h).binNum = (s.chunks h).binNum
  registered : ∀ h, ¬P h → (s'.Registered h ↔ s.Registered h)

theorem Reuses.keepsUse (hr : Reuses P s s') : KeepsUse s s' :=
  .of_idle P hr.numChunks hr.idle fun h hh =>
    ⟨(hr.other h hh).2.2.1, (hr.other h hh).1, (hr.other h hh).2.1⟩

theorem Reuses.inUse_registered (hr : Reuses P s s') (hs : s.Mapped)
    (hu : (s'.chunks h).inUse = true) : s'.Registered h := by
  have hh : ¬P h := fun hp => by simp [(hr.idle h hp).2] at hu
  rw [(hr.other h hh).2.2.1] at hu
  exact (hr.registered h hh).mpr (hs.inUse_registered hu)

theorem FreeList.frame (hl : s.FreeList l) (hhead : s'.freeChunksList = s.freeChunksList)
    (hnum : s.numChunks ≤ s'.numChunks) (hchunk : ∀ h ∈ l, s'.chunks h = s.chunks h)
    (hreg : ∀ h ∈ l, ∀ a, s'.handles a ≠ some h) : s'.FreeList l := by
  refine ⟨?_, hl.nodup, fun h hh => ⟨?_, ?_, ?_, hreg h hh⟩⟩
  · rw [hhead]
    exact hl.walk.congr fun h hh => by rw [hchunk h hh]
  · exact lt_of_lt_of_le (hl.vacant h hh).valid hnum
  · rw [hchunk h hh]
    exact (hl.vacant h hh).not_inUse
  · rw [hchunk h hh]
    exact (hl.vacant h hh).binNum

end Heap
end TfReading.Bfc
