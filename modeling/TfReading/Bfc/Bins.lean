import TfReading.Bfc.Invariant

/-!
# Moving chunks into and out of bins

The three operations on bins change one chunk's `binNum` and the bins, and nothing else.
`Rebinned` says so once; what is left for each of them is the bin it changes.
-/

namespace TfReading.Bfc

open Outcome Tiling Function List SortedSet

/-- The computation returns, with a result that has `post`. -/
abbrev Returns {α : Type} (post : α → Prop) (x : Except Fault α) : Prop := Sat (fun _ => False) post x

namespace Heap

variable {s s' : Heap} {holes : List ChunkHandle} {h k x y : ChunkHandle} {b : BinNum}

/-! ## The order of a bin -/

theorem chunkComparator_iff : s.chunkComparator x y = true ↔ (s.chunks x).size < (s.chunks y).size ∨
      ((s.chunks x).size = (s.chunks y).size ∧ (s.chunks x).ptr < (s.chunks y).ptr) := by
  rw [chunkComparator]
  split
  next hne =>
    rw [decide_eq_true_eq]
    exact ⟨.inl, fun hor => hor.resolve_right fun he => hne he.1⟩
  next heq =>
    rw [decide_eq_true_eq]
    have heq := Decidable.not_not.mp heq
    exact ⟨fun hlt => .inr ⟨heq, hlt⟩, fun hor => (hor.resolve_left (by omega)).2⟩

theorem chunkComparator_irrefl (x : ChunkHandle) : s.chunkComparator x x = false := by
  simp [chunkComparator]

theorem chunkComparator_total (hne : (s.chunks x).ptr ≠ (s.chunks y).ptr) :
    s.chunkComparator x y = true ∨ s.chunkComparator y x = true := by
  rw [chunkComparator_iff, chunkComparator_iff]
  omega

theorem Registered.ptr_ne (hr : s.Registered h) (hk : s.Registered k) (hne : h ≠ k) :
    (s.chunks h).ptr ≠ (s.chunks k).ptr := by
  intro heq
  rw [Registered, heq, hk] at hr
  exact hne (Option.some.inj hr).symm

/-! ## One chunk changes in place -/

structure InPlace (s s' : Heap) (h : ChunkHandle) : Prop where
  numChunks : s'.numChunks = s.numChunks
  freeChunksList : s'.freeChunksList = s.freeChunksList
  regionManager : s'.regionManager = s.regionManager
  rest : ∀ k, k ≠ h → s'.chunks k = s.chunks k
  block : s'.block h = s.block h

namespace InPlace

variable (hb : InPlace s s' h)
include hb

theorem block_eq (k : ChunkHandle) : s'.block k = s.block k := by
  by_cases hk : k = h
  · rw [hk, hb.block]
  · rw [Heap.block, hb.rest k hk]
    rfl

theorem ptr_eq (k : ChunkHandle) : (s'.chunks k).ptr = (s.chunks k).ptr :=
  congrArg Block.ptr (hb.block_eq k)

theorem size_eq (k : ChunkHandle) : (s'.chunks k).size = (s.chunks k).size :=
  congrArg Block.size (hb.block_eq k)

theorem next_eq (k : ChunkHandle) : (s'.chunks k).next = (s.chunks k).next :=
  congrArg Block.next (hb.block_eq k)

theorem handles_eq : s'.handles = s.handles := congrArg RegionManager.handles hb.regionManager

theorem registered_iff (k : ChunkHandle) : s'.Registered k ↔ s.Registered k := by
  rw [Registered, Registered, hb.ptr_eq, hb.handles_eq]

theorem comparator_eq : s'.chunkComparator = s.chunkComparator := by
  funext x y
  rw [chunkComparator, chunkComparator, hb.size_eq, hb.size_eq, hb.ptr_eq, hb.ptr_eq]

theorem mapped (hr : s.Registered h) (hs : s.Mapped) : s'.Mapped where
  regions := by
    rw [hb.regionManager]
    exact hs.regions
  tiled := by
    rw [hb.regionManager]
    exact hs.tiled.congr (fun c => by rw [hb.handles_eq]) fun _ k _ => hb.block_eq k
  aligned := by
    rw [hb.handles_eq]
    exact hs.aligned
  valid := by
    rw [hb.handles_eq, hb.numChunks]
    exact hs.valid
  inUse_registered := by
    intro k hk
    rw [hb.registered_iff]
    by_cases hkh : k = h
    · exact hkh ▸ hr
    · rw [hb.rest k hkh] at hk
      exact hs.inUse_registered hk

theorem recycled (hr : s.Registered h) (hl : ∃ l, s.FreeList l) : ∃ l, s'.FreeList l := by
  obtain ⟨l, hl⟩ := hl
  refine ⟨l, hl.frame hb.freeChunksList hb.numChunks.symm.le (fun k hk => ?_)
    fun k hk => ?_⟩
  · refine hb.rest k ?_
    rintro rfl
    exact (hl.vacant k hk).not_registered _ hr
  · rw [hb.handles_eq]
    exact (hl.vacant k hk).not_registered

theorem owns_eq : s'.owns = s.owns := congrArg RegionManager.owns hb.regionManager

theorem keepsStanding : KeepsStanding s s' := fun k hk =>
  hk.of_ptr_eq hb.numChunks.ge hb.owns_eq (hb.ptr_eq k)

end InPlace

/-! ## Only bins change -/

structure Rebinned (s s' : Heap) (h : ChunkHandle) : Prop where
  numChunks : s'.numChunks = s.numChunks
  freeChunksList : s'.freeChunksList = s.freeChunksList
  regionManager : s'.regionManager = s.regionManager
  rest : ∀ k, k ≠ h → s'.chunks k = s.chunks k
  chunk : s'.chunks h = { s.chunks h with binNum := (s'.chunks h).binNum }

namespace Rebinned

variable (hb : Rebinned s s' h)
include hb

theorem inPlace : InPlace s s' h :=
  { hb with
    block := by
      rw [block, hb.chunk]
      rfl }

theorem fields (k : ChunkHandle) : (s'.chunks k).inUse = (s.chunks k).inUse ∧
    (s'.chunks k).freedAtCount = (s.chunks k).freedAtCount := by
  by_cases hk : k = h
  · subst hk
    rw [hb.chunk]
    exact ⟨rfl, rfl⟩
  · rw [hb.rest k hk]
    exact ⟨rfl, rfl⟩

theorem keepsUse : KeepsUse s s' where
  numChunks := hb.numChunks.symm.le
  inUse k := (hb.fields k).1
  size k _ := hb.inPlace.size_eq k
  ptr k _ := hb.inPlace.ptr_eq k

theorem tidy (ht : s.Tidy holes) : s'.Tidy holes where
  untimed k hk := (hb.fields k).2.trans (ht.untimed k ((hb.inPlace.registered_iff k).mp hk))
  apart i j hi hj hn hif hjf := by
    rw [hb.inPlace.registered_iff] at hi hj
    rw [hb.inPlace.next_eq] at hn
    rw [(hb.fields _).1] at hif hjf
    exact ht.apart i j hi hj hn hif hjf

end Rebinned

/-! ## Taking a chunk out -/

theorem Inv.remove (hs : s.Inv holes) (hr : s.Registered h) (hb : Rebinned s s' h)
    (hbin : (s'.chunks h).binNum = none)
    (hmem : ∀ b k, k ∈ s'.bins b ↔ k ∈ s.bins b ∧ k ≠ h)
    (hsorted : ∀ b, (s'.bins b).Sublist (s.bins b)) : s'.Inv (h :: holes) := by
  have hin := hb.inPlace
  refine ⟨hin.mapped hr hs.toMapped, ⟨?_, ?_, ?_⟩, hin.recycled hr hs.recycled⟩
  · intro b
    rw [hin.comparator_eq]
    exact (hs.sorted b).sublist (hsorted b)
  · intro b k
    rw [hmem, hs.mem_iff, hin.registered_iff, (hb.fields k).1, hin.size_eq, mem_cons, not_or]
    constructor
    · rintro ⟨⟨h1, h2, h3, h4⟩, hne⟩
      exact ⟨h1, h2, ⟨hne, h3⟩, h4⟩
    · rintro ⟨h1, h2, ⟨hne, h3⟩, h4⟩
      exact ⟨⟨h1, h2, h3, h4⟩, hne⟩
  · intro b k
    rw [hmem]
    by_cases hk : k = h
    · subst hk
      simp [hbin]
    · rw [hb.rest k hk, hs.binNum_iff]
      exact ⟨fun hm => ⟨hm, hk⟩, And.left⟩

theorem Binned.bin_unique {b' : BinNum} (hs : s.Binned holes) (hb : h ∈ s.bins b)
    (hb' : h ∈ s.bins b') : b = b' :=
  (hs.mem_iff.mp hb).2.2.2.symm.trans (hs.mem_iff.mp hb').2.2.2

theorem removeFreeChunkIterFromBin_spec (hs : s.Inv holes) (hb : h ∈ s.bins b) :
    Returns (fun s' => s'.Inv (h :: holes) ∧ Rebinned s s' h)
      (s.removeFreeChunkIterFromBin b h) := by
  obtain ⟨hr, hu, hh, hsz⟩ := hs.mem_iff.mp hb
  have hbin := hs.binNum_iff.mpr hb
  rw [removeFreeChunkIterFromBin, chunkFromHandle_eq (hs.valid hr)]
  show Returns _ (check _ >>= _)
  rw [check_true (by simp [hu, hbin])]
  have hreb : Rebinned s { s.setChunk h { s.chunks h with binNum := none } with
      bins := update s.bins b ((s.bins b).erase h) } h :=
    ⟨rfl, rfl, rfl, fun k hk => update_of_ne hk _ _, by simp [setChunk]⟩
  have hnodup : (s.bins b).Nodup := (hs.sorted b).imp fun {x y} hxy => by
    rintro rfl
    rw [chunkComparator_irrefl] at hxy
    cases hxy
  refine ⟨hs.remove hr hreb ?_ ?_ ?_, hreb⟩
  · simp [setChunk]
  · intro b' k
    by_cases hbb : b' = b
    · subst hbb
      simp only [update_self]
      rw [hnodup.mem_erase_iff]
      exact and_comm
    · simp only [update_of_ne hbb]
      refine ⟨fun hk => ⟨hk, ?_⟩, And.left⟩
      rintro rfl
      exact hbb (hs.toBinned.bin_unique hk hb)
  · intro b'
    by_cases hbb : b' = b
    · subst hbb
      simp only [update_self]
      exact erase_sublist
    · simp only [update_of_ne hbb]
      exact .refl _

theorem removeFreeChunkFromBin_eq (hv : h < s.numChunks) (hu : (s.chunks h).inUse = false)
    (hbin : (s.chunks h).binNum = some b) (hb : h ∈ s.bins b) :
    s.removeFreeChunkFromBin h = .ok { s.setChunk h { s.chunks h with binNum := none } with
      bins := update s.bins b (erase s.chunkComparator h (s.bins b)) } := by
  rw [removeFreeChunkFromBin, chunkFromHandle_eq hv]
  simp only [bind, Except.bind, hbin]
  rw [check_true (by simp [hu, contains_of_mem (chunkComparator_irrefl h) hb])]

theorem mem_erase_bins (hout : ∀ b', h ∈ s.bins b' → b' = b)
    (hptr : ∀ k, k ∈ s.bins b → k ≠ h → (s.chunks h).ptr ≠ (s.chunks k).ptr) (b' : BinNum) :
    k ∈ update s.bins b (erase s.chunkComparator h (s.bins b)) b' ↔
      k ∈ s.bins b' ∧ k ≠ h := by
  by_cases hbb : b' = b
  · subst hbb
    rw [update_self]
    exact mem_erase (chunkComparator_irrefl h) fun z hz hne =>
      chunkComparator_total (hptr z hz hne)
  · rw [update_of_ne hbb]
    refine ⟨fun hk => ⟨hk, fun hkh => hbb (hout b' (hkh ▸ hk))⟩, And.left⟩

theorem erase_bins_sublist (b' : BinNum) :
    (update s.bins b (erase s.chunkComparator h (s.bins b)) b').Sublist
      (s.bins b') := by
  by_cases hbb : b' = b
  · subst hbb
    rw [update_self]
    exact filter_sublist
  · rw [update_of_ne hbb]

theorem removeFreeChunkFromBin_spec (hs : s.Inv holes) (hr : s.Registered h)
    (hu : (s.chunks h).inUse = false) (hh : h ∉ holes) :
    Returns (fun s' => s'.Inv (h :: holes) ∧ Rebinned s s' h) (s.removeFreeChunkFromBin h) := by
  have hb := hs.mem_bin hr hu hh
  have hbin := hs.binNum_iff.mpr hb
  generalize binNumForSize (s.chunks h).size = b at hb hbin
  rw [removeFreeChunkFromBin_eq (hs.valid hr) hu hbin hb]
  have hreb : Rebinned s { s.setChunk h { s.chunks h with binNum := none } with
      bins := update s.bins b (erase s.chunkComparator h (s.bins b)) } h :=
    ⟨rfl, rfl, rfl, fun k hk => update_of_ne hk _ _, by simp [setChunk]⟩
  refine ⟨hs.remove hr hreb ?_ ?_ ?_, hreb⟩
  · simp [setChunk]
  · exact fun b' k => mem_erase_bins (fun b'' hb'' => hs.toBinned.bin_unique hb'' hb)
      (fun k hk hne => hr.ptr_ne (hs.toBinned.registered hk) hne.symm) b'
  · exact fun b' => erase_bins_sublist b'

/-! ## Putting a chunk in -/

theorem insertFreeChunkIntoBin_spec (hs : s.Inv (h :: holes)) (hr : s.Registered h)
    (hu : (s.chunks h).inUse = false) (hh : h ∉ holes) :
    Returns (fun s' => s'.Inv holes ∧ Rebinned s s' h) (s.insertFreeChunkIntoBin h) := by
  have hbin := hs.binNum_eq_none (.inr (.inl mem_cons_self))
  rw [insertFreeChunkIntoBin, chunkFromHandle_eq (hs.valid hr)]
  show Returns _ (check _ >>= _)
  rw [check_true (by simp [hu, hbin])]
  generalize hb : binNumForSize (s.chunks h).size = b
  let s1 := s.setChunk h { s.chunks h with binNum := some b }
  have hreb : ∀ bins, Rebinned s { s1 with bins := bins } h := fun bins =>
    ⟨rfl, rfl, rfl, fun k hk => update_of_ne hk _ _, by simp [s1, setChunk]⟩
  change Returns _ (.ok { s1 with bins := update s.bins b (insert s1.chunkComparator h (s.bins b)) })
  rw [show s1.chunkComparator = _ from (hreb s.bins).inPlace.comparator_eq]
  have hreb := hreb (update s.bins b (insert s.chunkComparator h (s.bins b)))
  have hout : ∀ b, h ∉ s.bins b := fun b hm => (hs.mem_iff.mp hm).2.2.1 mem_cons_self
  have hnew : ∀ k, k ∈ insert s.chunkComparator h (s.bins b) ↔ k = h ∨ k ∈ s.bins b := by
    intro k
    refine mem_insert fun z hz => chunkComparator_total
      (hr.ptr_ne (hs.toBinned.registered hz) ?_)
    rintro rfl
    exact hout b hz
  have hmem : ∀ b' k, k ∈ update s.bins b (insert s.chunkComparator h (s.bins b)) b' ↔
      (k = h ∧ b' = b) ∨ k ∈ s.bins b' := by
    intro b' k
    by_cases hbb : b' = b
    · subst hbb
      rw [update_self, hnew]
      simp
    · rw [update_of_ne hbb]
      simp [hbb]
  have hin := hreb.inPlace
  refine ⟨⟨hin.mapped hr hs.toMapped, ⟨?_, ?_, ?_⟩, hin.recycled hr hs.recycled⟩, hreb⟩
  · intro b'
    rw [hin.comparator_eq]
    by_cases hbb : b' = b
    · subst hbb
      simp only [update_self]
      refine sorted_insert (fun x y z hxy hyz => ?_) (hs.sorted b')
      rw [chunkComparator_iff] at *
      omega
    · simp only [update_of_ne hbb]
      exact hs.sorted b'
  · intro b' k
    rw [hmem, hin.registered_iff, (hreb.fields k).1, hin.size_eq, hs.mem_iff, mem_cons, not_or]
    by_cases hk : k = h
    · subst hk
      simp only [hr, hu, hh, hb, true_and, not_true_eq_false, false_and, and_false, or_false,
        not_false_eq_true]
      exact eq_comm
    · simp [hk]
  · intro b' k
    rw [hmem]
    by_cases hk : k = h
    · subst hk
      simp only [s1, setChunk, update_self, hout b', Option.some.injEq, true_and, or_false]
      exact eq_comm
    · rw [hreb.rest k hk, hs.binNum_iff]
      simp [hk]

end Heap
end TfReading.Bfc
