import TfReading.Bfc.Bins

/-!
# Splitting and merging chunks

`SplitInto` and `MergedInto` are the effects of `SplitChunk` and `Merge` on a heap, chunk by
chunk.  They keep the invariant because the blocks are cut and joined as the tiling allows.
-/

namespace TfReading.Bfc

open Outcome Tiling Function List

namespace Heap

variable {s s' t : Heap} {holes l : List ChunkHandle} {h h' j k x : ChunkHandle} {n : Nat}
    {c : Chunk} {ig : Bool}

/-- From the heap `s` a call has come to `t`, with the free chunk `h` in hand. -/
structure InHand (s t : Heap) (h : ChunkHandle) : Prop where
  inv : t.Inv [h]
  keepsUse : KeepsUse s t
  keepsStanding : KeepsStanding s t
  owns_eq : t.owns = s.owns
  registered : t.Registered h
  not_inUse : (t.chunks h).inUse = false

/-- From the heap `s` a call has come to `t`, with all free chunks in their bins. -/
structure Settled (s t : Heap) : Prop where
  inv : t.Inv []
  keepsUse : KeepsUse s t
  keepsStanding : KeepsStanding s t
  owns_eq : t.owns = s.owns

theorem InHand.refl (hs : s.Inv [h]) (hr : s.Registered h) (hu : (s.chunks h).inUse = false) :
    InHand s s h :=
  ⟨hs, .refl s, .refl s, rfl, hr, hu⟩

theorem InHand.trans (h1 : InHand s s' h') (h2 : InHand s' t h) :
    InHand s t h :=
  ⟨h2.inv, h1.keepsUse.trans h2.keepsUse, h1.keepsStanding.trans h2.keepsStanding,
    h2.owns_eq.trans h1.owns_eq, h2.registered, h2.not_inUse⟩

theorem Rebinned.inHand (h1 : Rebinned s s' h') (h2 : InHand s' t h) :
    InHand s t h :=
  ⟨h2.inv, h1.keepsUse.trans h2.keepsUse, h1.inPlace.keepsStanding.trans h2.keepsStanding,
    h2.owns_eq.trans h1.inPlace.owns_eq, h2.registered, h2.not_inUse⟩

theorem Settled.trans (h1 : Settled s s') (h2 : Settled s' t) : Settled s t :=
  ⟨h2.inv, h1.keepsUse.trans h2.keepsUse, h1.keepsStanding.trans h2.keepsStanding,
    h2.owns_eq.trans h1.owns_eq⟩

/-! ## Chunk slots -/

structure Fresh (s : Heap) (h : ChunkHandle) : Prop where
  vacant : s.Vacant h
  off_list : ∃ l, s.FreeList l ∧ h ∉ l

/-- `AllocateChunk` touches no slot but the one it returns. -/
structure Allocated (s s' : Heap) (h : ChunkHandle) : Prop where
  numChunks : s.numChunks ≤ s'.numChunks
  regionManager : s'.regionManager = s.regionManager
  bins : s'.bins = s.bins
  rest : ∀ k, k ≠ h → s'.chunks k = s.chunks k
  unregistered : ∀ a, s.handles a ≠ some h
  ptr : h < s.numChunks → s'.chunks h = s.chunks h

section

variable (ha : Allocated s s' h)

include ha

theorem Allocated.reuses (hs : s.Mapped) (hu : (s'.chunks h).inUse = false) :
    Reuses (· = h) s s' where
  numChunks := ha.numChunks
  bins := ha.bins
  idle := by
    rintro k rfl
    refine ⟨?_, hu⟩
    cases huse : (s.chunks k).inUse with
    | false => rfl
    | true => exact absurd (hs.inUse_registered huse) (ha.unregistered _)
  other k hk := by
    rw [ha.rest k hk]
    exact ⟨rfl, rfl, rfl, rfl⟩
  registered k hk := by
    rw [Registered, ha.rest k hk, handles, ha.regionManager]
    rfl

theorem Allocated.owns_eq : s'.owns = s.owns :=
  congrArg RegionManager.owns ha.regionManager

theorem Allocated.keepsStanding : KeepsStanding s s' := by
  intro k hk
  have hch : s'.chunks k = s.chunks k := by
    by_cases hkh : k = h
    · subst hkh
      exact ha.ptr hk.valid
    · exact ha.rest k hkh
  exact hk.of_ptr_eq ha.numChunks ha.owns_eq (congrArg Chunk.ptr hch)

theorem Allocated.mapped (hs : s.Mapped)
    (hu : (s'.chunks h).inUse = false) : s'.Mapped := by
  have hhan : s'.handles = s.handles := congrArg RegionManager.handles ha.regionManager
  have hsame : ∀ {c j}, s.handles c = some j → s'.chunks j = s.chunks j := fun {c j} hc =>
    ha.rest j fun hj => ha.unregistered c (hj ▸ hc)
  constructor
  · rw [ha.regionManager]
    exact hs.regions
  · rw [ha.regionManager]
    refine hs.tiled.congr (fun c => by rw [hhan]) fun c j hc => ?_
    rw [block, hsame hc]
    rfl
  · rw [hhan]
    exact hs.aligned
  · intro a j hj
    rw [hhan] at hj
    exact lt_of_lt_of_le (hs.valid hj) ha.numChunks
  · exact (ha.reuses hs hu).inUse_registered hs

theorem Allocated.tidy (ht : s.Tidy holes) : s'.Tidy holes := by
  have hhan : s'.handles = s.handles := congrArg RegionManager.handles ha.regionManager
  have hsame : ∀ {j}, s'.Registered j → s'.chunks j = s.chunks j ∧ s.Registered j := by
    intro j hj
    rw [Registered, hhan] at hj
    have hch := ha.rest j fun hjh => ha.unregistered _ (hjh ▸ hj)
    rw [hch] at hj
    exact ⟨hch, hj⟩
  constructor
  · intro j hj
    rw [(hsame hj).1]
    exact ht.untimed j (hsame hj).2
  · intro i j hi hj hn hif hjf
    rw [(hsame hi).1] at hn hif
    rw [(hsame hj).1] at hjf
    exact ht.apart i j (hsame hi).2 (hsame hj).2 hn hif hjf

theorem Allocated.binned (hs : s.Inv holes) (hu : (s'.chunks h).inUse = false)
    (hbin : (s'.chunks h).binNum = none) : s'.Binned holes := by
  have hr := ha.reuses hs.toMapped hu
  refine hs.toBinned.frame hr.bins ?_ hr.other hr.registered (fun _ _ => .rfl) ?_
  · rintro b j hj rfl
    exact ha.unregistered _ (hs.toBinned.registered hj)
  · rintro j rfl
    refine ⟨hbin, fun hreg => ?_⟩
    rw [Registered, handles, ha.regionManager] at hreg
    exact absurd hreg (ha.unregistered _)

end

theorem allocateChunk_spec (hs : s.Inv holes) :
    Returns (fun r => r.2.Inv holes ∧ r.2.Fresh r.1 ∧ Allocated s r.2 r.1) s.allocateChunk := by
  obtain ⟨l, hl⟩ := hs.recycled
  rw [allocateChunk]
  cases l with
  | nil =>
    have hhead : s.freeChunksList = none := hl.walk
    split
    next hsome =>
      rw [hhead] at hsome
      cases hsome
    have hfresh : ∀ a, s.handles a ≠ some s.numChunks := fun a ha =>
      lt_irrefl _ (hs.valid ha)
    let s1 : Heap := { s with
      numChunks := s.numChunks + 1
      chunks := update s.chunks s.numChunks {} }
    have ha : Allocated s s1 s.numChunks :=
      ⟨Nat.le_succ _, rfl, rfl, fun k hk => update_of_ne hk _ _, hfresh,
        fun hlt => absurd hlt (lt_irrefl _)⟩
    have hnew : s1.chunks s.numChunks = {} := update_self ..
    have hu : (s1.chunks s.numChunks).inUse = false := hnew ▸ rfl
    have hbin : (s1.chunks s.numChunks).binNum = none := hnew ▸ rfl
    have hlist : s1.FreeList [] := ⟨hhead, nodup_nil, nofun⟩
    exact ⟨⟨ha.mapped hs.toMapped hu, ha.binned hs hu hbin, [], hlist⟩,
      ⟨⟨Nat.lt_succ_self _, hu, hbin, hfresh⟩, [], hlist, by simp⟩, ha⟩
  | cons h t =>
    obtain ⟨hhead, hwalk⟩ := hl.walk
    obtain ⟨hnot, hnodup⟩ := nodup_cons.mp hl.nodup
    have hv := hl.vacant h mem_cons_self
    rw [hhead]
    show Returns _ (s.chunkFromHandle h >>= _)
    rw [chunkFromHandle_eq hv.valid]
    let s1 : Heap := { s with freeChunksList := (s.chunks h).next }
    have ha : Allocated s s1 h :=
      ⟨le_rfl, rfl, rfl, fun _ _ => rfl, hv.not_registered, fun _ => rfl⟩
    have hvacant : ∀ k ∈ h :: t, s1.Vacant k := fun k hk =>
      let ⟨hvalid, hu, hbin, hnot⟩ := hl.vacant k hk
      ⟨hvalid, hu, hbin, hnot⟩
    have hlist : s1.FreeList t := ⟨hwalk, hnodup, fun k hk => hvacant k (mem_cons_of_mem h hk)⟩
    exact ⟨⟨ha.mapped hs.toMapped hv.not_inUse, ha.binned hs hv.not_inUse hv.binNum, t, hlist⟩,
      ⟨hvacant h mem_cons_self, t, hlist, hnot⟩, ha⟩

theorem deleteChunk_eq (hw : s.regionManager.WellFormed) (hv : h < s.numChunks)
    (ho : s.regionManager.owns (s.chunks h).ptr) (ha : kMinAllocationSize ∣ (s.chunks h).ptr) :
    s.deleteChunk h = .ok { s with
      chunks := update s.chunks h
        { s.chunks h with allocationId := -1, binNum := none, next := s.freeChunksList }
      freeChunksList := some h
      regionManager := { s.regionManager with
        handles := update s.regionManager.handles (s.chunks h).ptr none } } := by
  rw [deleteChunk, chunkFromHandle_eq hv]
  show (s.setHandle _ _ >>= _) = _
  rw [setHandle_eq hw ho ha]
  show deallocateChunk _ h = _
  rw [deallocateChunk, chunkFromHandle_eq (by exact hv)]
  rfl

/-! ## Links to the left -/

theorem setPrev_eq {o : Option ChunkHandle} {p : ChunkHandle}
    (ho : ∀ j, o = some j → j < s.numChunks) :
    s.setPrev o p = .ok { s with
      chunks := fun j => if o = some j then { s.chunks j with prev := some p } else s.chunks j } := by
  cases o with
  | none => simp [setPrev]
  | some j =>
    rw [setPrev, chunkFromHandle_eq (ho j rfl)]
    show .ok _ = Except.ok _
    congr 1
    rw [setChunk]
    congr 1
    funext i
    by_cases hi : i = j
    · subst hi
      simp
    · rw [update_of_ne hi, if_neg (by simpa using Ne.symm hi)]

def SameButPrev (c c' : Chunk) : Prop := c' = { c with prev := c'.prev }

namespace SameButPrev

variable {c c' : Chunk} (hc : SameButPrev c c')
include hc

theorem size : c'.size = c.size := by rw [hc]
theorem ptr : c'.ptr = c.ptr := by rw [hc]
theorem inUse : c'.inUse = c.inUse := by rw [hc]; rfl
theorem binNum : c'.binNum = c.binNum := by rw [hc]
theorem next : c'.next = c.next := by rw [hc]
theorem freedAtCount : c'.freedAtCount = c.freedAtCount := by rw [hc]
theorem kept : c'.size = c.size ∧ c'.ptr = c.ptr ∧ c'.inUse = c.inUse ∧ c'.binNum = c.binNum :=
  ⟨hc.size, hc.ptr, hc.inUse, hc.binNum⟩

end SameButPrev

theorem owns_congr (h : t.regionManager.regions = s.regionManager.regions) : t.owns = s.owns := by
  funext a
  rw [owns, owns, RegionManager.owns, RegionManager.owns, h]

theorem span_congr (h : t.regionManager.regions = s.regionManager.regions) :
    t.regionManager.span = s.regionManager.span := by
  funext lo hi
  rw [RegionManager.span, RegionManager.span, h]

/-! ## `SplitChunk` -/

structure SplitInto (s t : Heap) (h k : ChunkHandle) (n : Nat) : Prop where
  fresh : s.Fresh k
  registered : s.Registered h
  not_inUse : (s.chunks h).inUse = false
  pos : 0 < n
  lt : n < (s.chunks h).size
  aligned : kMinAllocationSize ∣ n
  numChunks : t.numChunks = s.numChunks
  freeChunksList : t.freeChunksList = s.freeChunksList
  bins : t.bins = s.bins
  regions : t.regionManager.regions = s.regionManager.regions
  handles : t.handles = Function.update s.handles ((s.chunks h).ptr + n) (some k)
  left : t.chunks h = { s.chunks h with size := n, next := some k }
  right : t.block k =
    ⟨(s.chunks h).ptr + n, (s.chunks h).size - n, some h, (s.chunks h).next⟩
  right_inUse : (t.chunks k).inUse = false
  right_binNum : (t.chunks k).binNum = none
  right_freedAtCount : (t.chunks k).freedAtCount = (s.chunks h).freedAtCount
  neighbour : ∀ j, j ≠ h → j ≠ k → (s.chunks h).next = some j →
    t.chunks j = { s.chunks j with prev := some k }
  rest : ∀ j, j ≠ h → j ≠ k → (s.chunks h).next ≠ some j → t.chunks j = s.chunks j

namespace SplitInto

variable (hst : SplitInto s t h k n)
include hst

theorem other (hh : j ≠ h) (hk : j ≠ k) :
    SameButPrev (s.chunks j) (t.chunks j) := by
  by_cases hj : (s.chunks h).next = some j
  · rw [SameButPrev, hst.neighbour j hh hk hj]
  · rw [SameButPrev, hst.rest j hh hk hj]

theorem owns_eq : t.owns = s.owns := owns_congr hst.regions

theorem ne : k ≠ h := by
  rintro rfl
  exact hst.fresh.vacant.not_registered _ hst.registered

theorem tiled (hs : s.Inv holes) : Tiled t.block t.handles t.regionManager.span := by
  rw [span_congr hst.regions]
  refine Tiled.Split.tiled (h := h) (k := k) (a := (s.chunks h).ptr) (n := n) ?_ hs.tiled
  refine ⟨hst.registered, hst.fresh.vacant.not_registered, hst.pos, hst.lt, ?_, hst.right, ?_, ?_, ?_, ?_⟩
  · rw [block, hst.left]
    rfl
  · intro j hh hk hj
    rw [block, hst.neighbour j hh hk hj]
    rfl
  · intro j hh hk hj
    rw [block, hst.rest j hh hk hj]
    rfl
  · rw [hst.handles, update_self]
  · intro c hc
    rw [hst.handles, update_of_ne hc]

theorem registered_other (hs : s.Inv holes) (hjh : j ≠ h) (hjk : j ≠ k) :
    t.Registered j ↔ s.Registered j := by
  rw [Registered, (hst.other hjh hjk).ptr, hst.handles]
  by_cases hp : (s.chunks j).ptr = (s.chunks h).ptr + n
  · -- nothing starts where the new chunk will
    have hfree := hs.tiled.gap hst.registered (Nat.lt_add_of_pos_right hst.pos)
      (Nat.add_lt_add_left hst.lt _)
    rw [Registered, hp, update_self, hfree]
    simp [hjk.symm]
  · rw [update_of_ne hp]
    rfl

theorem registered_left : t.Registered h := by
  have hne : (s.chunks h).ptr ≠ (s.chunks h).ptr + n :=
    (Nat.lt_add_of_pos_right hst.pos).ne
  rw [Registered, hst.left, hst.handles, update_of_ne hne]
  exact hst.registered

theorem registered_right : t.Registered k := by
  have hptr : (t.chunks k).ptr = (s.chunks h).ptr + n := congrArg Block.ptr hst.right
  rw [Registered, hptr, hst.handles, update_self]

theorem reuses (hs : s.Inv holes) : Reuses (fun j => j = h ∨ j = k) s t where
  numChunks := hst.numChunks.ge
  bins := hst.bins
  idle j hj := by
    rcases hj with rfl | rfl
    · rw [hst.left]
      exact ⟨hst.not_inUse, hst.not_inUse⟩
    · exact ⟨hst.fresh.vacant.not_inUse, hst.right_inUse⟩
  other j hj := (hst.other (not_or.mp hj).1 (not_or.mp hj).2).kept
  registered j hj := hst.registered_other hs (not_or.mp hj).1 (not_or.mp hj).2

theorem mapped (hs : s.Inv holes) : t.Mapped where
  regions := hs.regions.congr hst.regions
  tiled := hst.tiled hs
  aligned := by
    intro c j hc
    rw [hst.handles] at hc
    by_cases hcn : c = (s.chunks h).ptr + n
    · rw [hcn]
      exact Nat.dvd_add (hs.aligned hst.registered) hst.aligned
    · rw [update_of_ne hcn] at hc
      exact hs.aligned hc
  valid := by
    intro c j hc
    rw [hst.handles] at hc
    rw [hst.numChunks]
    by_cases hcn : c = (s.chunks h).ptr + n
    · rw [hcn, update_self] at hc
      exact Option.some.inj hc ▸ hst.fresh.vacant.valid
    · rw [update_of_ne hcn] at hc
      exact hs.valid hc
  inUse_registered := (hst.reuses hs).inUse_registered hs.toMapped

theorem binned (hs : s.Inv holes) (hh : h ∈ holes) : t.Binned (k :: holes) := by
  have hr := hst.reuses hs
  refine hs.toBinned.frame hr.bins ?_ hr.other hr.registered (fun j hj => ?_) ?_
  · rintro b j hj (rfl | rfl)
    · exact (hs.mem_iff.mp hj).2.2.1 hh
    · exact hst.fresh.vacant.not_mem_bins hs.toBinned b hj
  · simp [(not_or.mp hj).2]
  · rintro j (rfl | rfl)
    · rw [hst.left]
      exact ⟨hs.binNum_eq_none (.inr (.inl hh)), fun _ _ => mem_cons_of_mem k hh⟩
    · exact ⟨hst.right_binNum, fun _ _ => mem_cons_self⟩

/-- Of the two parts, the left one is next to a free chunk.  The right one is not, because the whole
was not. -/
theorem tidy (hs : s.Inv holes) (ht : s.Tidy []) : t.Tidy [h] := by
  have hnew : ∀ {i}, s.Registered i → (s.chunks i).next ≠ some k := fun hi hn =>
    hst.fresh.vacant.not_registered _ (hs.next_registered hi hn).1
  constructor
  · intro j hj
    by_cases hjh : j = h
    · rw [hjh, hst.left]
      exact ht.untimed h hst.registered
    · by_cases hjk : j = k
      · rw [hjk, hst.right_freedAtCount]
        exact ht.untimed h hst.registered
      · rw [(hst.other hjh hjk).freedAtCount]
        exact ht.untimed j ((hst.registered_other hs hjh hjk).mp hj)
  · intro i j hi hj hn hif hjf
    by_contra hno
    obtain ⟨hih, hjh⟩ := not_or.mp hno
    rw [mem_singleton] at hih hjh
    -- both neighbours were chunks before
    have hjs : ∀ {i}, s.Registered i → (s.chunks i).next = some j →
        s.Registered j ∧ (s.chunks j).inUse = false := by
      intro i hi hn
      have hjk : j ≠ k := fun hjk => hnew hi (hjk ▸ hn)
      rw [(hst.other hjh hjk).inUse] at hjf
      exact ⟨(hst.registered_other hs hjh hjk).mp hj, hjf⟩
    by_cases hik : i = k
    · have hn' : (s.chunks h).next = some j := by
        rw [← hn, hik]
        exact (congrArg Block.next hst.right).symm
      obtain ⟨hj, hjf⟩ := hjs hst.registered hn'
      simpa using ht.apart h j hst.registered hj hn' hst.not_inUse hjf
    · have hi := (hst.registered_other hs hih hik).mp hi
      rw [(hst.other hih hik).next] at hn
      rw [(hst.other hih hik).inUse] at hif
      obtain ⟨hj, hjf⟩ := hjs hi hn
      simpa using ht.apart i j hi hj hn hif hjf

theorem recycled (hs : s.Inv holes) : ∃ l, t.FreeList l := by
  obtain ⟨l, hl, hkl⟩ := hst.fresh.off_list
  refine ⟨l, hl.frame hst.freeChunksList hst.numChunks.symm.le (fun j hj => ?_)
    fun j hj a => ?_⟩
  · have hv := hl.vacant j hj
    refine hst.rest j ?_ ?_ fun hnext => ?_
    · rintro rfl
      exact hv.not_registered _ hst.registered
    · rintro rfl
      exact hkl hj
    · exact hv.not_registered _ (hs.next_registered hst.registered hnext).1
  · rw [hst.handles]
    by_cases hc : a = (s.chunks h).ptr + n
    · rw [hc, update_self]
      rintro ⟨rfl⟩
      exact hkl hj
    · rw [update_of_ne hc]
      exact (hl.vacant j hj).not_registered a

theorem keepsStanding (hs : s.Inv holes) : KeepsStanding s t := by
  intro j hj
  by_cases hjh : j = h
  · rw [hjh]
    exact (hst.mapped hs).standing hst.registered_left
  · by_cases hjk : j = k
    · rw [hjk]
      exact (hst.mapped hs).standing hst.registered_right
    · exact hj.of_ptr_eq hst.numChunks.ge hst.owns_eq (hst.other hjh hjk).ptr

end SplitInto

theorem SplitInto.insert_spec (hst : SplitInto s t h k n) (hs : s.Inv [h]) :
    Returns (fun t' => InHand s t' h ∧ (t'.chunks h).ptr = (s.chunks h).ptr ∧
      (t'.chunks h).size = n ∧ (s.Tidy [] → t'.Tidy [h])) (t.insertFreeChunkIntoBin k) := by
  have hkh := hst.ne
  have hkr := hst.registered_right
  have hinv : t.Inv [k, h] := ⟨hst.mapped hs, hst.binned hs mem_cons_self, hst.recycled hs⟩
  refine (insertFreeChunkIntoBin_spec hinv hkr hst.right_inUse (by simpa using hkh)).imp (fun _ => id) ?_
  rintro t' ⟨hinv', hreb⟩
  have hin := hreb.inPlace
  refine ⟨⟨hinv', (hst.reuses hs).keepsUse.trans hreb.keepsUse,
    (hst.keepsStanding hs).trans hin.keepsStanding, hin.owns_eq.trans hst.owns_eq,
    (hin.registered_iff h).mpr hst.registered_left, ?_⟩, ?_, ?_,
    fun ht => hreb.tidy (hst.tidy hs ht)⟩
  · rw [hreb.rest h hkh.symm, hst.left]
    exact hst.not_inUse
  · rw [hin.ptr_eq, hst.left]
  · rw [hin.size_eq, hst.left]

theorem splitChunk_spec (hs : s.Inv [h]) (hr : s.Registered h)
    (hu : (s.chunks h).inUse = false) (hpos : 0 < n) (hlt : n < (s.chunks h).size)
    (ha : kMinAllocationSize ∣ n) :
    Returns (fun t => InHand s t h ∧ (t.chunks h).ptr = (s.chunks h).ptr ∧
      (t.chunks h).size = n ∧ (s.Tidy [] → t.Tidy [h])) (s.splitChunk h n) := by
  refine (allocateChunk_spec hs).bind ?_
  intro ⟨k, s1⟩ hpost
  obtain ⟨hs1, hf, halloc⟩ : s1.Inv [h] ∧ s1.Fresh k ∧ Allocated s s1 k := hpost
  have hkeep := (halloc.reuses hs.toMapped hf.vacant.not_inUse).keepsUse
  have hhk : h ≠ k := by
    rintro rfl
    exact halloc.unregistered _ hr
  have hchunk := halloc.rest h hhk
  have hr1 : s1.Registered h := by
    rw [Registered, hchunk, handles, halloc.regionManager]
    exact hr
  rw [← hchunk] at hu hlt
  have hbin := hs1.binNum_eq_none (.inr (.inl mem_cons_self))
  have hend := hs1.end_lt hr1
  have howns : s1.owns ((s1.chunks h).ptr + n) := by
    obtain ⟨lo, hi, ⟨r, hmem, rfl, rfl⟩, h1, h2⟩ := hs1.tiled.inside hr1
    change _ + (s1.chunks h).size ≤ _ at h2
    exact ⟨r, hmem, by omega, by omega⟩
  have hsize : ((s1.chunks h).size + wordSize - n) % wordSize = (s1.chunks h).size - n := by
    rw [show (s1.chunks h).size + wordSize - n = ((s1.chunks h).size - n) + wordSize by omega,
      Nat.add_mod_right, Nat.mod_eq_of_lt (by omega)]
  show Returns _ (s1.chunkFromHandle h >>= _)
  rw [chunkFromHandle_eq (hs1.valid hr1)]
  show Returns _ (check _ >>= _)
  rw [check_true (by simp [hu, hbin])]
  rw [chunkFromHandle_eq hf.vacant.valid]
  rw [setHandle_eq hs1.regions howns (Nat.dvd_add (hs1.aligned hr1) ha)]
  show Returns _ (setPrev _ _ _ >>= _)
  rw [setPrev_eq (by exact fun j hj => hs1.valid (hs1.next_registered hr1 hj).1)]
  have hnh : (s1.chunks h).next ≠ some h := fun hn => hs1.ne_next hr1 hn rfl
  have hnk : (s1.chunks h).next ≠ some k := fun hn =>
    hf.vacant.not_registered _ (hs1.next_registered hr1 hn).1
  refine .imp (SplitInto.insert_spec (n := n) ?_ hs1) (fun _ => id) ?_
  · refine ⟨hf, hr1, hu, hpos, hlt, ha, rfl, rfl, rfl, rfl, rfl, ?_, ?_, ?_, ?_, ?_, ?_, ?_⟩
    · simp [setChunk, hnh]
    · simp [block, Chunk.block, setChunk, hnk, update_of_ne hhk.symm, hsize]
    · simp [setChunk, hnk, update_of_ne hhk.symm, Chunk.inUse]
    · simp [setChunk, hnk, update_of_ne hhk.symm, hf.vacant.binNum]
    · simp [setChunk, hnk, update_of_ne hhk.symm]
    · intro j hjh hjk hj
      simp [setChunk, hj, hjh, hjk]
    · intro j hjh hjk hj
      simp [setChunk, hj, hjh, hjk]
  · rintro t ⟨hand, hptr, hsz, htidy⟩
    have hand1 : InHand s s1 h := ⟨hs1, hkeep, halloc.keepsStanding, halloc.owns_eq, hr1, hu⟩
    exact ⟨hand1.trans hand, hptr.trans (by rw [hchunk]), hsz,
      fun ht => htidy (halloc.tidy ht)⟩

/-! ## `Merge` -/

structure MergedInto (s t : Heap) (h k : ChunkHandle) : Prop where
  registered : s.Registered h
  link : (s.chunks h).next = some k
  not_inUse : (s.chunks h).inUse = false
  gone_not_inUse : (s.chunks k).inUse = false
  numChunks : t.numChunks = s.numChunks
  freeChunksList : t.freeChunksList = some k
  bins : t.bins = s.bins
  regions : t.regionManager.regions = s.regionManager.regions
  handles : t.handles = Function.update s.handles (s.chunks k).ptr none
  left : t.block h = ⟨(s.chunks h).ptr, (s.chunks h).size + (s.chunks k).size, (s.chunks h).prev,
    (s.chunks k).next⟩
  left_inUse : (t.chunks h).inUse = false
  left_binNum : (t.chunks h).binNum = (s.chunks h).binNum
  left_freedAtCount : (t.chunks h).freedAtCount =
    max (s.chunks h).freedAtCount (s.chunks k).freedAtCount
  gone : t.chunks k =
    { s.chunks k with allocationId := -1, binNum := none, next := s.freeChunksList }
  neighbour : ∀ j, j ≠ h → j ≠ k → (s.chunks k).next = some j →
    t.chunks j = { s.chunks j with prev := some h }
  rest : ∀ j, j ≠ h → j ≠ k → (s.chunks k).next ≠ some j → t.chunks j = s.chunks j

namespace MergedInto

variable (hst : MergedInto s t h k)
include hst

theorem other (hh : j ≠ h) (hk : j ≠ k) :
    SameButPrev (s.chunks j) (t.chunks j) := by
  by_cases hj : (s.chunks k).next = some j
  · rw [SameButPrev, hst.neighbour j hh hk hj]
  · rw [SameButPrev, hst.rest j hh hk hj]

theorem left_ptr : (t.chunks h).ptr = (s.chunks h).ptr := congrArg Block.ptr hst.left

theorem owns_eq : t.owns = s.owns := owns_congr hst.regions

theorem keepsStanding : KeepsStanding s t := by
  intro j hj
  have hptr : (t.chunks j).ptr = (s.chunks j).ptr := by
    by_cases hjh : j = h
    · rw [hjh]
      exact hst.left_ptr
    · by_cases hjk : j = k
      · rw [hjk, hst.gone]
      · exact (hst.other hjh hjk).ptr
  exact hj.of_ptr_eq hst.numChunks.ge hst.owns_eq hptr

variable (hs : s.Mapped)
include hs

theorem gone_registered : s.Registered k := (hs.next_registered hst.registered hst.link).1

theorem ne : k ≠ h := hs.ne_next hst.registered hst.link

theorem tiled : Tiled t.block t.handles t.regionManager.span := by
  have hptr := (hs.next_registered hst.registered hst.link).2
  rw [span_congr hst.regions]
  refine Tiled.Join.tiled (h := h) (k := k) (a := (s.chunks h).ptr) ?_ hs.tiled
  refine ⟨hst.registered, hst.link, hst.left, ?_, ?_, ?_, ?_⟩
  · intro j hh hk hj
    rw [block, hst.neighbour j hh hk hj]
    rfl
  · intro j hh hk hj
    rw [block, hst.rest j hh hk hj]
    rfl
  · rw [hst.handles, hptr]
    exact update_self ..
  · intro c hc
    rw [hst.handles, hptr]
    exact update_of_ne hc ..

theorem registered_other (hjh : j ≠ h) (hjk : j ≠ k) :
    t.Registered j ↔ s.Registered j := by
  rw [Registered, (hst.other hjh hjk).ptr, hst.handles]
  by_cases hp : (s.chunks j).ptr = (s.chunks k).ptr
  · rw [hp, update_self, Registered, hp, hst.gone_registered hs]
    simp [hjk.symm]
  · rw [update_of_ne hp]
    rfl

theorem registered_left : t.Registered h := by
  have hne := hst.registered.ptr_ne (hst.gone_registered hs) (hst.ne hs).symm
  rw [Registered, hst.left_ptr, hst.handles, update_of_ne hne]
  exact hst.registered

theorem handles_some {c : Nat} (hc : t.handles c = some j) :
    s.handles c = some j ∧ j ≠ k := by
  rw [hst.handles] at hc
  by_cases hck : c = (s.chunks k).ptr
  · rw [hck, update_self] at hc
    cases hc
  · rw [update_of_ne hck] at hc
    refine ⟨hc, ?_⟩
    rintro rfl
    exact hck (hs.ptr_eq hc).symm

theorem reuses : Reuses (fun j => j = h ∨ j = k) s t where
  numChunks := hst.numChunks.ge
  bins := hst.bins
  idle j hj := by
    rcases hj with rfl | rfl
    · exact ⟨hst.not_inUse, hst.left_inUse⟩
    · rw [hst.gone]
      exact ⟨hst.gone_not_inUse, rfl⟩
  other j hj := (hst.other (not_or.mp hj).1 (not_or.mp hj).2).kept
  registered j hj := hst.registered_other hs (not_or.mp hj).1 (not_or.mp hj).2

theorem mapped : t.Mapped where
  regions := hs.regions.congr hst.regions
  tiled := hst.tiled hs
  aligned := fun hc => hs.aligned (hst.handles_some hs hc).1
  valid := fun hc => hst.numChunks ▸ hs.valid (hst.handles_some hs hc).1
  inUse_registered := (hst.reuses hs).inUse_registered hs

theorem binned (hb : s.Binned holes) (hh : ∀ j, j ∈ holes ↔ j = h ∨ j = k) : t.Binned [h] := by
  have hr := hst.reuses hs
  refine hb.frame hr.bins (fun b j hj hor => ?_) hr.other hr.registered (fun j hj => ?_) ?_
  · exact (hb.mem_iff.mp hj).2.2.1 ((hh _).mpr hor)
  · simp [hh j, not_or.mp hj]
  · rintro j (rfl | rfl)
    · rw [hst.left_binNum]
      exact ⟨hb.binNum_eq_none (.inr (.inl ((hh _).mpr (.inl rfl)))), fun _ _ => mem_cons_self⟩
    · rw [hst.gone]
      exact ⟨rfl, fun hreg => absurd rfl (hst.handles_some hs hreg).2⟩

theorem tidy (ht : s.Tidy [x]) (hx : x = h ∨ x = k) : t.Tidy [h] := by
  have hkr := hst.gone_registered hs
  have hne : ∀ {j}, t.Registered j → j ≠ k := fun hj => (hst.handles_some hs hj).2
  constructor
  · intro j hj
    by_cases hjh : j = h
    · rw [hjh, hst.left_freedAtCount, ht.untimed h hst.registered, ht.untimed k hkr]
      rfl
    · rw [(hst.other hjh (hne hj)).freedAtCount]
      exact ht.untimed j ((hst.registered_other hs hjh (hne hj)).mp hj)
  · intro i j hi hj hn hif hjf
    by_contra hno
    obtain ⟨hih, hjh⟩ := not_or.mp hno
    rw [mem_singleton] at hih hjh
    have hio := hst.other hih (hne hi)
    have hjo := hst.other hjh (hne hj)
    rw [hio.next] at hn
    rw [hio.inUse] at hif
    rw [hjo.inUse] at hjf
    have hmem := ht.apart i j ((hst.registered_other hs hih (hne hi)).mp hi)
      ((hst.registered_other hs hjh (hne hj)).mp hj) hn hif hjf
    rw [mem_singleton, mem_singleton] at hmem
    rcases hmem with rfl | rfl
    · exact hx.elim hih (hne hi)
    · exact hx.elim hjh (hne hj)

/-- What precedes the merged chunk has preceded the left one. -/
theorem before (hj : t.Registered j) (hn : (t.chunks j).next = some h) :
    j ≠ k ∧ s.Registered j ∧ (s.chunks j).next = some h := by
  have hjk := (hst.handles_some hs hj).2
  have hjh : j ≠ h := fun hjh =>
    (hst.mapped hs).ne_next (hjh ▸ hj) (hjh ▸ hn) rfl
  rw [(hst.other hjh hjk).next] at hn
  exact ⟨hjk, (hst.registered_other hs hjh hjk).mp hj, hn⟩

/-- What follows the merged chunk has followed the right one. -/
theorem closed (hright : s.Closed k) : t.Closed h := by
  intro j hj hn
  have hn' : (s.chunks k).next = some j := by
    rw [← hn]
    exact (congrArg Block.next hst.left).symm
  have hjr := (hs.next_registered (hst.gone_registered hs) hn').1
  have hju := hright j hjr hn'
  rw [(hst.reuses hs).keepsUse.inUse]
  exact hju

theorem recycled (hl : ∃ l, s.FreeList l) : ∃ l, t.FreeList l := by
  obtain ⟨l, hl⟩ := hl
  have hkr := hst.gone_registered hs
  have hne : ∀ j ∈ l, ∀ i, s.Registered i → j ≠ i := by
    rintro j hj i hi rfl
    exact (hl.vacant j hj).not_registered _ hi
  have hsame : ∀ j ∈ l, t.chunks j = s.chunks j := fun j hj =>
    hst.rest j (hne j hj h hst.registered) (hne j hj k hkr) fun hnext =>
      hne j hj j (hs.next_registered hkr hnext).1 rfl
  refine ⟨k :: l, ⟨hst.freeChunksList, ?_⟩, ?_, ?_⟩
  · simp only [hst.gone]
    exact hl.walk.congr fun j hj => by rw [hsame j hj]
  · exact nodup_cons.mpr ⟨fun hin => hne k hin k hkr rfl, hl.nodup⟩
  · intro j hj
    rcases mem_cons.mp hj with rfl | hj
    · refine ⟨hst.numChunks ▸ hs.valid hkr, ?_, ?_, fun a ha => (hst.handles_some hs ha).2 rfl⟩
      · rw [hst.gone]
        rfl
      · rw [hst.gone]
    · have hv := hl.vacant j hj
      refine ⟨hst.numChunks ▸ hv.valid, ?_, ?_, fun a ha =>
        hv.not_registered a (hst.handles_some hs ha).1⟩
      · rw [hsame j hj]
        exact hv.not_inUse
      · rw [hsame j hj]
        exact hv.binNum

end MergedInto

theorem merge_spec (hs : s.Inv holes) (hr : s.Registered h) (hlink : (s.chunks h).next = some k)
    (hu : (s.chunks h).inUse = false) (hku : (s.chunks k).inUse = false)
    (hh : ∀ j, j ∈ holes ↔ j = h ∨ j = k) :
    Returns (fun t => InHand s t h ∧ MergedInto s t h k) (s.merge h k) := by
  obtain ⟨hkr, hkptr⟩ := hs.next_registered hr hlink
  have hne := hs.ne_next hr hlink
  have hprev := (hs.next_iff_prev hr hkr).mp hlink
  have hend := hs.end_lt hkr
  -- the chunk behind `k` is neither of the two
  have hnh : (s.chunks k).next ≠ some h := by
    intro hn
    have hp := (hs.next_registered hkr hn).2
    have hpos := hs.tiled.size_pos hr
    change 0 < (s.chunks h).size at hpos
    omega
  have hnk : (s.chunks k).next ≠ some k := fun hn => hs.ne_next hkr hn rfl
  have hsize : ((s.chunks h).size + (s.chunks k).size) % wordSize =
      (s.chunks h).size + (s.chunks k).size := Nat.mod_eq_of_lt (by omega)
  suffices hmerge : ∃ t, s.merge h k = .ok t ∧ MergedInto s t h k by
    obtain ⟨t, ht, hst⟩ := hmerge
    rw [ht]
    exact ⟨⟨⟨hst.mapped hs.toMapped, hst.binned hs.toMapped hs.toBinned hh,
        hst.recycled hs.toMapped hs.recycled⟩, (hst.reuses hs.toMapped).keepsUse, hst.keepsStanding,
      hst.owns_eq, hst.registered_left hs.toMapped, hst.left_inUse⟩, hst⟩
  rw [merge, chunkFromHandle_eq (hs.valid hr)]
  rw [chunkFromHandle_eq (hs.valid hkr)]
  show ∃ t, (check _ >>= _) = _ ∧ _
  rw [check_true (by simp [hu, hku])]
  show ∃ t, (check _ >>= _) = _ ∧ _
  rw [check_true (by simp [hprev])]
  rw [setPrev_eq (by exact fun j hj => hs.valid (hs.next_registered hkr hj).1)]
  show ∃ t, (chunkFromHandle _ h >>= _) = _ ∧ _
  rw [chunkFromHandle_eq (by exact hs.valid hr)]
  show ∃ t, deleteChunk _ k = _ ∧ _
  rw [deleteChunk_eq (by exact hs.regions) (by exact hs.valid hkr)
    (by simpa [setChunk, hne, hnk, owns] using hs.owns hkr)
    (by simpa [setChunk, hne, hnk] using hs.aligned hkr)]
  refine ⟨_, rfl, hr, hlink, hu, hku, rfl, rfl, rfl, rfl, ?_, ?_, ?_, ?_, ?_, ?_, ?_, ?_⟩
  · simp [setChunk, handles, hne, hnk]
  · simp [setChunk, block, Chunk.block, hne.symm, hnh, hsize]
  · simpa [setChunk, hne.symm, hnh, Chunk.inUse] using hu
  · simp [setChunk, hne.symm, hnh]
  · simp [setChunk, hne.symm, hnh]
  · simp [setChunk, hne, hnk]
  · intro j hjh hjk hj
    simp [setChunk, hj, hjh, hjk]
  · intro j hjh hjk hj
    simp [setChunk, hj, hjh, hjk]

/-! ## `TryToCoalesce` -/

theorem mergeable_inUse (hm : mergeable c ig = true) : c.inUse = false := by
  rw [mergeable, Bool.and_eq_true] at hm
  simpa using hm.1

theorem inUse_of_not_mergeable (hm : ¬mergeable c ig = true)
    (hc : c.freedAtCount = 0) : c.inUse = true := by
  simpa [mergeable, hc] using hm

/-- Of the chunk in hand and a free neighbour `n`, `h` is the left one and stays. -/
theorem removeAndMerge_spec {n : ChunkHandle} (hs : s.Inv [x]) (hr : s.Registered h)
    (hlink : (s.chunks h).next = some k) (hu : (s.chunks h).inUse = false)
    (hku : (s.chunks k).inUse = false) (hx : (h = x ∧ k = n) ∨ (h = n ∧ k = x)) :
    Returns (fun t => InHand s t h ∧ (s.Tidy [x] → t.Tidy [h]) ∧ (s.Closed k → t.Closed h) ∧
        ∀ j, t.Registered j → (t.chunks j).next = some h →
          j ≠ k ∧ s.Registered j ∧ (s.chunks j).next = some h)
      (s.removeFreeChunkFromBin n >>= fun s => s.merge h k) := by
  have hkr := (hs.next_registered hr hlink).1
  have hkh := hs.ne_next hr hlink
  have hn : s.Registered n ∧ (s.chunks n).inUse = false ∧ n ≠ x := by
    rcases hx with ⟨rfl, rfl⟩ | ⟨rfl, rfl⟩
    · exact ⟨hkr, hku, hkh⟩
    · exact ⟨hr, hu, .symm hkh⟩
  refine (removeFreeChunkFromBin_spec hs hn.1 hn.2.1 (by simpa using hn.2.2)).bind ?_
  rintro s1 ⟨hs1, hreb⟩
  refine (merge_spec hs1 ((hreb.inPlace.registered_iff h).mpr hr) ?_ ?_ ?_ fun j => ?_).imp
    (fun _ => id) fun t ht => ?_
  · rw [hreb.inPlace.next_eq]
    exact hlink
  · rw [(hreb.fields h).1]
    exact hu
  · rw [(hreb.fields k).1]
    exact hku
  · rw [mem_cons, mem_singleton]
    rcases hx with ⟨rfl, rfl⟩ | ⟨rfl, rfl⟩
    · exact or_comm
    · rfl
  · obtain ⟨ht, hst⟩ := ht
    refine ⟨hreb.inHand ht, fun htidy => ?_, fun hc => ?_, fun j hj hn => ?_⟩
    · exact hst.tidy hs1.toMapped (hreb.tidy htidy) (hx.imp (fun h => h.1.symm) fun h => h.2.symm)
    · refine hst.closed hs1.toMapped fun j hj hn => ?_
      rw [hreb.inPlace.next_eq] at hn
      rw [(hreb.fields j).1]
      exact hc j ((hreb.inPlace.registered_iff j).mp hj) hn
    · obtain ⟨hjk, hj, hn⟩ := hst.before hs1.toMapped hj hn
      rw [hreb.inPlace.next_eq] at hn
      exact ⟨hjk, (hreb.inPlace.registered_iff j).mp hj, hn⟩

variable {ig : Bool} (hs : s.Inv [h]) (hr : s.Registered h) (hu : (s.chunks h).inUse = false)
include hs hr hu

theorem mergeNext_spec :
    Returns (fun t => InHand s t h ∧ (s.Tidy [h] → t.Tidy [h] ∧ t.Closed h)) (s.mergeNext h ig) := by
  rw [mergeNext, chunkFromHandle_eq (hs.valid hr)]
  simp only [bind, Except.bind]
  cases hn : (s.chunks h).next with
  | none =>
    refine ⟨.refl hs hr hu, fun ht => ⟨ht, fun j _ hj => ?_⟩⟩
    rw [hn] at hj
    cases hj
  | some k =>
    obtain ⟨hkr, hkp⟩ := hs.next_registered hr hn
    show Returns _ (s.chunkFromHandle k >>= _)
    rw [chunkFromHandle_eq (hs.valid hkr)]
    show Returns _ (if mergeable (s.chunks k) ig = true then _ else _)
    split
    next hm =>
      refine (removeAndMerge_spec hs hr hn hu (mergeable_inUse hm) (.inl ⟨rfl, rfl⟩)).imp
        (fun _ => id) fun t ⟨ht, htidy, hclosed, _⟩ => ⟨ht, fun hs' => ⟨htidy hs', hclosed ?_⟩⟩
      -- two free chunks in a row were neither of them in hand
      intro j hj hkj
      by_contra hjf
      have hmem := hs'.apart k j hkr hj hkj (mergeable_inUse hm) (Bool.eq_false_iff.mpr hjf)
      rw [mem_singleton, mem_singleton] at hmem
      rcases hmem with rfl | rfl
      · exact hs.ne_next hr hn rfl
      · have hp := (hs.next_registered hkr hkj).2
        have hpos := hs.tiled.size_pos hr
        change 0 < (s.chunks j).size at hpos
        omega
    next hm =>
      refine ⟨.refl hs hr hu, fun ht => ⟨ht, fun j hj hnj => ?_⟩⟩
      rw [hn, Option.some.injEq] at hnj
      rw [← hnj]
      exact inUse_of_not_mergeable hm (ht.untimed k hkr)

theorem mergePrev_spec :
    Returns (fun r => InHand s r.2 r.1 ∧ (s.Tidy [h] → s.Closed h → r.2.Tidy []))
      (s.mergePrev h ig) := by
  rw [mergePrev, chunkFromHandle_eq (hs.valid hr)]
  erw [pure_bind]
  cases hp : (s.chunks h).prev with
  | none =>
    refine ⟨.refl hs hr hu, fun ht hc => ht.close hc fun j hj hn => ?_⟩
    rw [hs.next_iff_prev hj hr, hp] at hn
    cases hn
  | some k =>
    have hkr := hs.prev_registered hr hp
    have hn := (hs.next_iff_prev hkr hr).mpr hp
    show Returns _ (s.chunkFromHandle k >>= _)
    rw [chunkFromHandle_eq (hs.valid hkr)]
    show Returns _ (if mergeable (s.chunks k) ig = true then _ else _)
    split
    next hm =>
      have hmerge := removeAndMerge_spec hs hkr hn (mergeable_inUse hm) hu (.inr ⟨rfl, rfl⟩)
      rw [← bind_assoc]
      refine hmerge.bind fun t ⟨ht, htidy, hclosed, hbefore⟩ => ⟨ht, fun hs' hc => ?_⟩
      refine (htidy hs').close (hclosed hc) fun j hj hnj => ?_
      obtain ⟨hjh, hj, hnj⟩ := hbefore j hj hnj
      rw [ht.keepsUse.inUse]
      by_contra hjf
      have hmem := hs'.apart j k hj hkr hnj (Bool.eq_false_iff.mpr hjf) (mergeable_inUse hm)
      rw [mem_singleton, mem_singleton] at hmem
      exact hmem.elim hjh (hs.ne_next hkr hn).symm
    next hm =>
      refine ⟨.refl hs hr hu, fun ht hc => ht.close hc fun j hj hnj => ?_⟩
      rw [hs.next_iff_prev hj hr, hp, Option.some.injEq] at hnj
      rw [← hnj]
      exact inUse_of_not_mergeable hm (ht.untimed k hkr)

theorem tryToCoalesce_spec :
    Returns (fun r => InHand s r.2 r.1 ∧ (s.Tidy [h] → r.2.Tidy [])) (s.tryToCoalesce h ig) := by
  rw [tryToCoalesce, chunkFromHandle_eq (hs.valid hr)]
  show Returns _ (if _ then _ else _)
  split
  next htime =>
    refine ⟨.refl hs hr hu, fun ht => ?_⟩
    simp [ht.untimed h hr] at htime
  · refine (mergeNext_spec hs hr hu).bind fun t ⟨ht, hnext⟩ => ?_
    refine (mergePrev_spec ht.inv ht.registered ht.not_inUse).imp (fun _ => id)
      fun r ⟨hr, hprev⟩ => ⟨ht.trans hr, fun hs' => hprev (hnext hs').1 (hnext hs').2⟩

theorem coalesceIntoBin_spec :
    Returns (fun r => Settled s r.2 ∧ r.2.Registered r.1 ∧ (s.Tidy [h] → r.2.Tidy []))
      (s.coalesceIntoBin h ig) := by
  refine (tryToCoalesce_spec hs hr hu).bind ?_
  intro ⟨k, t⟩ hpost
  obtain ⟨ht, htidy⟩ : InHand s t k ∧ (s.Tidy [h] → t.Tidy []) := hpost
  refine .bind (insertFreeChunkIntoBin_spec ht.inv ht.registered ht.not_inUse (by simp))
    fun t' ht' => ?_
  exact ⟨⟨ht'.1, ht.keepsUse.trans ht'.2.keepsUse, ht.keepsStanding.trans ht'.2.inPlace.keepsStanding,
      ht'.2.inPlace.owns_eq.trans ht.owns_eq⟩,
    (ht'.2.inPlace.registered_iff k).mpr ht.registered, fun hs' => ht'.2.tidy (htidy hs')⟩

end Heap
end TfReading.Bfc
