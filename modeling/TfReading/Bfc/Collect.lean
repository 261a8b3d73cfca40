import TfReading.Bfc.Regions

/-!
# Giving a region back

`DeallocateRegions` walks along the chunks of a region and deletes them one by one.  While it
does, the region is half gone and the invariant of the heap does not hold.  `Deleted s t done`
says how far the walk from the heap `s` has come instead.
-/

namespace TfReading.Bfc

open Outcome Tiling List Function

namespace Heap

variable {s s' t : Heap} {l done : List ChunkHandle} {h k : ChunkHandle} {a : Nat}
variable {r : AllocationRegion} {o : Option ChunkHandle} {fuel : Nat}

/-! ## Free regions -/

def Unused (s : Heap) (r : AllocationRegion) : Prop :=
  ∀ d j, r.ptr ≤ d → d < r.endPtr → s.handles d = some j → (s.chunks j).inUse = false

structure ChunksOf (s : Heap) (r : AllocationRegion) (l : List ChunkHandle) : Prop where
  walk : Walk (fun j => (s.chunks j).next) (s.handles r.ptr) l
  nodup : l.Nodup
  mem_iff : ∀ j, j ∈ l ↔ ∃ d, r.ptr ≤ d ∧ d < r.endPtr ∧ s.handles d = some j

theorem Mapped.exists_chunksOf (hs : s.Mapped) (hr : r ∈ s.regionManager.regions) :
    ∃ l, s.ChunksOf r l := by
  obtain ⟨l, hwalk, -, hnodup, hmem⟩ := hs.tiled.exists_chain ⟨r, hr, rfl, rfl⟩
  exact ⟨l, hwalk, hnodup, hmem⟩

theorem ChunksOf.registered (hl : s.ChunksOf r l) (hs : s.Mapped) (hh : h ∈ l) :
    s.Registered h := by
  obtain ⟨d, -, -, hd⟩ := (hl.mem_iff h).mp hh
  exact hs.registered hd

theorem ChunksOf.length_le (hl : s.ChunksOf r l) (hs : s.Mapped) : l.length ≤ s.numChunks :=
  length_le_numChunks hl.nodup fun _ hj => hs.valid (hl.registered hs hj)

theorem ptr_mem (hs : s.Mapped) (hr : r ∈ s.regionManager.regions) :
    s.owns r.ptr ∧ kMinAllocationSize ∣ r.ptr := by
  refine ⟨⟨r, hr, le_rfl, ?_⟩, hs.regions.aligned r hr⟩
  exact Nat.lt_add_of_pos_right (hs.regions.pos r hr)

theorem anyUse_eq (hw : Walk (fun j => (s.chunks j).next) o l) (hv : ∀ j ∈ l, j < s.numChunks)
    (hf : l.length ≤ fuel) : s.anyUse fuel o = .ok (l.any fun j => (s.chunks j).inUse) := by
  induction l generalizing o fuel with
  | nil =>
    have ho : o = none := hw
    rw [ho]
    cases fuel <;> rfl
  | cons h t ih =>
    obtain ⟨ho, hw⟩ := hw
    rw [ho]
    cases fuel with
    | zero => cases hf
    | succ =>
      rw [anyUse, chunkFromHandle_eq (hv h mem_cons_self)]
      show (if (s.chunks h).inUse = true then _ else _) = _
      rw [any_cons]
      split
      next hu => rw [hu, Bool.true_or]
      next hu =>
        rw [Bool.eq_false_iff.mpr hu, Bool.false_or]
        exact ih hw (fun j hj => hv j (mem_cons_of_mem h hj)) (Nat.le_of_succ_le_succ hf)

theorem freeRegions_spec (hs : s.Mapped) {rs : List AllocationRegion}
    (hrs : ∀ r ∈ rs, r ∈ s.regionManager.regions) :
    Returns (fun free => ∀ r ∈ free, r ∈ rs ∧ s.Unused r) (s.freeRegions rs) := by
  induction rs with
  | nil => exact nofun
  | cons x rs ih =>
    obtain ⟨hx, hrs⟩ := forall_mem_cons.mp hrs
    obtain ⟨l, hl⟩ := hs.exists_chunksOf hx
    obtain ⟨ho, ha⟩ := ptr_mem hs hx
    rw [freeRegions, hs.getHandle_eq ho ha]
    show Returns _ (s.anyUse s.numChunks (s.handles x.ptr) >>= _)
    rw [anyUse_eq hl.walk (fun j hj => hs.valid (hl.registered hs hj)) (hl.length_le hs)]
    refine (ih hrs).bind fun free hfree => ?_
    have hrest : ∀ r ∈ free, r ∈ x :: rs ∧ s.Unused r :=
      fun r hr => (hfree r hr).imp_left (mem_cons_of_mem x)
    cases hany : l.any fun j => (s.chunks j).inUse with
    | true => exact hrest
    | false =>
      refine forall_mem_cons.mpr ⟨⟨mem_cons_self, fun d j h1 h2 hd => ?_⟩, hrest⟩
      have hj := any_eq_false.mp hany j ((hl.mem_iff j).mpr ⟨d, h1, h2, hd⟩)
      exact Bool.eq_false_iff.mpr hj

/-! ## The walk -/

/-- Of the chunks of `s`, those of `done` have been deleted. -/
structure Deleted (s t : Heap) (done : List ChunkHandle) : Prop where
  numChunks : t.numChunks = s.numChunks
  regions : t.regionManager.regions = s.regionManager.regions
  handles_gone : ∀ j ∈ done, t.handles (s.chunks j).ptr = none
  handles_rest : ∀ a, (∀ j ∈ done, (s.chunks j).ptr ≠ a) → t.handles a = s.handles a
  rest : ∀ j, j ∉ done → t.chunks j = s.chunks j
  ptr : ∀ j, (t.chunks j).ptr = (s.chunks j).ptr
  gone : ∀ j ∈ done, (t.chunks j).inUse = false ∧ (t.chunks j).binNum = none
  sublist : ∀ b, (t.bins b).Sublist (s.bins b)
  mem_bins : ∀ b j, j ∈ t.bins b ↔ j ∈ s.bins b ∧ j ∉ done
  free : ∃ l, Walk (fun j => (t.chunks j).next) t.freeChunksList l ∧ l.Nodup ∧
    ∀ j ∈ l, s.Vacant j ∨ j ∈ done

theorem Deleted.refl (hs : s.Inv []) : Deleted s s [] := by
  obtain ⟨l, hl⟩ := hs.recycled
  constructor
  case free => exact ⟨l, hl.walk, hl.nodup, fun j hj => .inl (hl.vacant j hj)⟩
  all_goals simp

theorem Deleted.cons (hd : Deleted s t done) (hr : s.Registered h) (hh : h ∉ done) {u : Heap}
    (hnum : u.numChunks = t.numChunks) (hreg : u.regionManager.regions = t.regionManager.regions)
    (hhan : u.handles = update t.handles (s.chunks h).ptr none)
    (hch : u.chunks = update t.chunks h
      { s.chunks h with allocationId := -1, binNum := none, next := t.freeChunksList })
    (hfree : u.freeChunksList = some h) (hsub : ∀ b, (u.bins b).Sublist (t.bins b))
    (hmem : ∀ b j, j ∈ u.bins b ↔ j ∈ t.bins b ∧ j ≠ h) : Deleted s u (h :: done) := by
  have hself : u.chunks h =
      { s.chunks h with allocationId := -1, binNum := none, next := t.freeChunksList } := by
    rw [hch, update_self]
  have hother : ∀ j, j ≠ h → u.chunks j = t.chunks j := fun j hj => by
    rw [hch, update_of_ne hj]
  constructor
  case numChunks => exact hnum.trans hd.numChunks
  case regions => exact hreg.trans hd.regions
  case handles_gone =>
    intro j hj
    rw [hhan]
    by_cases hp : (s.chunks j).ptr = (s.chunks h).ptr
    · rw [hp, update_self]
    · rw [update_of_ne hp]
      refine hd.handles_gone j ((mem_cons.mp hj).resolve_left ?_)
      intro hjh
      exact hp (by rw [hjh])
  case handles_rest =>
    intro a ha
    rw [hhan, update_of_ne (ha h mem_cons_self).symm]
    exact hd.handles_rest a fun j hj => ha j (mem_cons_of_mem h hj)
  case rest =>
    intro j hj
    obtain ⟨hjh, hjd⟩ := not_or.mp (mt mem_cons.mpr hj)
    rw [hother j hjh]
    exact hd.rest j hjd
  case ptr =>
    intro j
    by_cases hjh : j = h
    · rw [hjh, hself]
    · rw [hother j hjh]
      exact hd.ptr j
  case gone =>
    intro j hj
    by_cases hjh : j = h
    · rw [hjh, hself]
      exact ⟨rfl, rfl⟩
    · rw [hother j hjh]
      exact hd.gone j ((mem_cons.mp hj).resolve_left hjh)
  case sublist => exact fun b => (hsub b).trans (hd.sublist b)
  case mem_bins =>
    intro b j
    rw [hmem, hd.mem_bins, mem_cons, not_or, and_assoc]
    exact and_congr_right fun _ => and_comm
  case free =>
    obtain ⟨l, hwalk, hnodup, hl⟩ := hd.free
    have hhl : h ∉ l := by
      intro hin
      rcases hl h hin with hv | hin
      · exact hv.not_registered _ hr
      · exact hh hin
    refine ⟨h :: l, ⟨hfree, ?_⟩, nodup_cons.mpr ⟨hhl, hnodup⟩, ?_⟩
    · simp only [hself]
      refine hwalk.congr fun j hj => ?_
      rw [hother j fun hjh => hhl (hjh ▸ hj)]
    · exact forall_mem_cons.mpr ⟨.inr mem_cons_self,
        fun j hj => (hl j hj).imp_right (mem_cons_of_mem h)⟩

theorem Deleted.step (hd : Deleted s t done) (hs : s.Inv []) (hr : s.Registered h)
    (hu : (s.chunks h).inUse = false) (hh : h ∉ done) :
    Returns (fun t' => Deleted s t' (h :: done))
      (t.removeFreeChunkFromBin h >>= fun t => t.deleteChunk h) := by
  have hb := hs.mem_bin hr hu not_mem_nil
  have hbin := hs.binNum_iff.mpr hb
  generalize binNumForSize (s.chunks h).size = b at hb hbin
  have hch := hd.rest h hh
  have hv : h < t.numChunks := hd.numChunks ▸ hs.valid hr
  have hw := hs.regions.congr hd.regions
  have ho : t.regionManager.owns (s.chunks h).ptr := by
    rw [RegionManager.owns, hd.regions]
    exact hs.owns hr
  rw [removeFreeChunkFromBin_eq hv (hch ▸ hu) (hch ▸ hbin) ((hd.mem_bins b h).mpr ⟨hb, hh⟩)]
  show Returns _ (deleteChunk _ h)
  rw [deleteChunk_eq (by exact hw) (by exact hv) (by simpa [setChunk, hch] using ho)
    (by simpa [setChunk, hch] using hs.aligned hr)]
  refine hd.cons hr hh rfl rfl ?_ ?_ rfl (fun b' => erase_bins_sublist b') fun b' j => ?_
  · simp [handles, setChunk, hch]
  · simp [setChunk, hch]
  · refine mem_erase_bins (fun b'' hb'' => ?_) (fun k hk hne => ?_) b'
    · exact hs.toBinned.bin_unique ((hd.mem_bins b'' h).mp hb'').1 hb
    · rw [hd.ptr, hd.ptr]
      exact hr.ptr_ne (hs.toBinned.registered ((hd.mem_bins b k).mp hk).1) hne.symm

theorem deleteChunks_spec (hs : s.Inv [])
    (hd : Deleted s t done) (hw : Walk (fun j => (s.chunks j).next) o l) (hf : l.length ≤ fuel)
    (hnodup : l.Nodup) (hl : ∀ j ∈ l, s.Registered j ∧ (s.chunks j).inUse = false ∧ j ∉ done) :
    Returns (fun t' => Deleted s t' (l.reverse ++ done)) (deleteChunks fuel o t) := by
  induction l generalizing o fuel t done with
  | nil =>
    have ho : o = none := hw
    rw [ho]
    cases fuel <;> exact hd
  | cons h rest ih =>
    obtain ⟨ho, hw⟩ := hw
    obtain ⟨hnot, hnodup⟩ := nodup_cons.mp hnodup
    obtain ⟨⟨hr, hu, hh⟩, hl⟩ := forall_mem_cons.mp hl
    rw [ho]
    cases fuel with
    | zero => cases hf
    | succ =>
      have hch := hd.rest h hh
      have hbin := hs.binNum_iff.mpr (hs.mem_bin hr hu not_mem_nil)
      rw [deleteChunks, chunkFromHandle_eq (by rw [hd.numChunks]; exact hs.valid hr)]
      show Returns _ (t.removeIfBinned h (t.chunks h) >>= _)
      rw [removeIfBinned, if_pos (by rw [hch, hbin]; rfl)]
      rw [← bind_assoc]
      refine (hd.step hs hr hu hh).bind fun t' ht' => ?_
      rw [reverse_cons, append_assoc]
      refine ih ht' (hch ▸ hw) (Nat.le_of_succ_le_succ hf) hnodup fun j hj => ?_
      obtain ⟨hjr, hju, hjd⟩ := hl j hj
      refine ⟨hjr, hju, fun hin => ?_⟩
      rcases mem_cons.mp hin with rfl | hin
      · exact hnot hj
      · exact hjd hin

/-! ## The heap without the region -/

theorem mem_removed (hw : s.regionManager.WellFormed)
    (hregions : t.regionManager.regions = s.regionManager.regions) (x : AllocationRegion) :
    x ∈ (t.regionManager.removeAllocationRegion r).regions ↔
      x ∈ s.regionManager.regions ∧ x ≠ r := by
  show x ∈ t.regionManager.regions.erase r ↔ _
  rw [hregions, hw.nodup.mem_erase_iff, and_comm]

abbrev dropRegion (t : Heap) (r : AllocationRegion) : Heap :=
  { t with regionManager := t.regionManager.removeAllocationRegion r }

section Removed

variable (hd : Deleted s t done) (hs : s.Inv []) (hr : r ∈ s.regionManager.regions)
    (hmem : ∀ j, j ∈ done ↔ ∃ d, r.ptr ≤ d ∧ d < r.endPtr ∧ s.handles d = some j) {j : ChunkHandle}

include hs hmem in
theorem mem_done_iff (hc : s.handles a = some j) :
    j ∈ done ↔ r.ptr ≤ a ∧ a < r.endPtr := by
  rw [hmem]
  constructor
  · rintro ⟨d, h1, h2, hd⟩
    rw [← hs.tiled.addr_unique hd hc]
    exact ⟨h1, h2⟩
  · exact fun h => ⟨a, h.1, h.2, hc⟩

include hd hs hr in
theorem Deleted.span_iff (x y : Nat) :
    (t.regionManager.removeAllocationRegion r).span x y ↔
      s.regionManager.span x y ∧ x ≠ r.ptr := by
  have hw := hs.regions
  have hrm := mem_removed (r := r) hw hd.regions
  constructor
  · rintro ⟨z, hz, rfl, rfl⟩
    obtain ⟨hz, hne⟩ := (hrm z).mp hz
    exact ⟨⟨z, hz, rfl, rfl⟩, fun hp => hne (hw.ptr_inj hr hz hp)⟩
  · rintro ⟨⟨z, hz, rfl, rfl⟩, hp⟩
    exact ⟨z, (hrm z).mpr ⟨hz, fun hzr => hp (by rw [hzr])⟩, rfl, rfl⟩

include hd hs hmem

theorem Deleted.handles_inside (h1 : r.ptr ≤ a) (h2 : a < r.endPtr) : t.handles a = none := by
  cases hc : s.handles a with
  | some j =>
    have hj := (hmem j).mpr ⟨a, h1, h2, hc⟩
    rw [← hs.ptr_eq hc]
    exact hd.handles_gone j hj
  | none =>
    rw [hd.handles_rest a, hc]
    intro j hj hp
    obtain ⟨d, -, -, hd⟩ := (hmem j).mp hj
    rw [hs.ptr_eq hd] at hp
    rw [← hp, hd] at hc
    cases hc

theorem Deleted.handles_outside (ha : ¬(r.ptr ≤ a ∧ a < r.endPtr)) : t.handles a = s.handles a := by
  refine hd.handles_rest a fun j hj hp => ?_
  obtain ⟨d, h1, h2, hd⟩ := (hmem j).mp hj
  rw [hs.ptr_eq hd] at hp
  exact ha (hp ▸ ⟨h1, h2⟩)

/-- What is still registered lies outside of the region and is as it was. -/
theorem Deleted.handles_some (hc : t.handles a = some j) :
    s.handles a = some j ∧ j ∉ done := by
  have ha : ¬(r.ptr ≤ a ∧ a < r.endPtr) := by
    intro ha
    rw [hd.handles_inside hs hmem ha.1 ha.2] at hc
    cases hc
  rw [hd.handles_outside hs hmem ha] at hc
  exact ⟨hc, fun hj => ha ((mem_done_iff hs hmem hc).mp hj)⟩

theorem Deleted.registered_iff :
    t.Registered j ↔ s.Registered j ∧ j ∉ done := by
  constructor
  · intro hj
    rw [Registered, hd.ptr] at hj
    exact hd.handles_some hs hmem hj
  · rintro ⟨hj, hno⟩
    rw [Registered, hd.ptr, hd.handles_outside hs hmem fun ha =>
      hno ((mem_done_iff hs hmem hj).mpr ha)]
    exact hj

theorem Deleted.tidy (ht : s.Tidy []) : (t.dropRegion r).Tidy [] where
  untimed j hj := by
    obtain ⟨hj, hno⟩ := (hd.registered_iff hs hmem).mp hj
    exact (congrArg Chunk.freedAtCount (hd.rest j hno)).trans (ht.untimed j hj)
  apart i j hi hj hn hif hjf := by
    obtain ⟨hi, hino⟩ := (hd.registered_iff hs hmem).mp hi
    obtain ⟨hj, hjno⟩ := (hd.registered_iff hs hmem).mp hj
    rw [show t.chunks i = _ from hd.rest i hino] at hn hif
    rw [show t.chunks j = _ from hd.rest j hjno] at hjf
    exact ht.apart i j hi hj hn hif hjf

theorem Deleted.mem_bins_iff {b : BinNum} : j ∈ t.bins b ↔
    t.Registered j ∧ (t.chunks j).inUse = false ∧ j ∉ ([] : List ChunkHandle) ∧
      binNumForSize (t.chunks j).size = b := by
  rw [hd.mem_bins, hs.mem_iff, hd.registered_iff hs hmem]
  by_cases hj : j ∈ done
  · simp [hj]
  · rw [hd.rest j hj]
    simp [hj]

theorem Deleted.freeList : ∃ l, (t.dropRegion r).FreeList l := by
  obtain ⟨l, hwalk, hnodup, hl⟩ := hd.free
  refine ⟨l, hwalk, hnodup, fun j hj => ?_⟩
  by_cases hin : j ∈ done
  · obtain ⟨d, -, -, hc⟩ := (hmem j).mp hin
    refine ⟨hd.numChunks ▸ hs.valid hc, (hd.gone j hin).1, (hd.gone j hin).2, fun a ha => ?_⟩
    exact (hd.handles_some hs hmem ha).2 hin
  · have hv := (hl j hj).resolve_right hin
    have hch := hd.rest j hin
    refine ⟨hd.numChunks ▸ hv.valid, hch ▸ hv.not_inUse, hch ▸ hv.binNum, fun a ha => ?_⟩
    exact hv.not_registered a (hd.handles_some hs hmem ha).1

omit hs in
theorem Deleted.keepsUse (hun : s.Unused r) : KeepsUse s (t.dropRegion r) := by
  refine .of_idle (· ∈ done) hd.numChunks.ge (fun j hj => ⟨?_, (hd.gone j hj).1⟩) fun j hj => ?_
  · obtain ⟨d, h1, h2, hc⟩ := (hmem j).mp hj
    exact hun d j h1 h2 hc
  · rw [hd.rest j hj]
    exact ⟨rfl, rfl, rfl⟩

include hr

theorem Deleted.tiled :
    Tiled t.block t.handles (t.regionManager.removeAllocationRegion r).span := by
  refine Tiled.Dropped.tiled (?_ : Tiled.Dropped _ _ _ _ _ _ r.ptr r.endPtr) hs.tiled
  refine ⟨⟨r, hr, rfl, rfl⟩, hd.span_iff hs hr, fun c h1 h2 => hd.handles_inside hs hmem h1 h2,
    fun c hc => hd.handles_outside hs hmem hc, fun c j hc hj => ?_⟩
  rw [block, hd.rest j fun hin => hc ((mem_done_iff hs hmem hj).mp hin)]
  rfl

theorem Deleted.inv : (t.dropRegion r).Inv [] := by
  constructor
  case toMapped =>
    constructor
    case regions =>
      have hw := hs.regions
      have hsub : ((t.regionManager.removeAllocationRegion r).regions).Sublist
          s.regionManager.regions := by
        rw [← hd.regions]
        exact erase_sublist
      exact ⟨hw.sorted.sublist hsub, fun x hx => hw.pos x (hsub.subset hx),
        fun x hx => hw.aligned x (hsub.subset hx), fun x hx => hw.bounded x (hsub.subset hx)⟩
    case tiled => exact hd.tiled hs hr hmem
    case aligned => exact fun hc => hs.aligned (hd.handles_some hs hmem hc).1
    case valid => exact fun hc => hd.numChunks ▸ hs.valid (hd.handles_some hs hmem hc).1
    case inUse_registered =>
      intro j hj
      have hno : j ∉ done := by
        intro hin
        rw [show _ = _ from (hd.gone j hin).1] at hj
        cases hj
      have hju : (s.chunks j).inUse = true := hd.rest j hno ▸ hj
      exact (hd.registered_iff hs hmem).mpr ⟨hs.inUse_registered hju, hno⟩
  case toBinned =>
    constructor
    case sorted =>
      intro b
      refine ((hs.sorted b).sublist (hd.sublist b)).imp_of_mem fun {x y} hx hy hxy => ?_
      rw [chunkComparator] at hxy ⊢
      rw [show t.chunks x = _ from hd.rest x ((hd.mem_bins b x).mp hx).2,
        show t.chunks y = _ from hd.rest y ((hd.mem_bins b y).mp hy).2]
      exact hxy
    case mem_iff => exact hd.mem_bins_iff hs hmem
    case binNum_iff =>
      intro b j
      rw [hd.mem_bins]
      by_cases hj : j ∈ done
      · simp [hj, (hd.gone j hj).2]
      · rw [hd.rest j hj, hs.binNum_iff]
        simp [hj]
  case recycled => exact hd.freeList hs hmem

end Removed

theorem removeRegion_owns (hs : s.Inv []) (hr : r ∈ s.regionManager.regions)
    (hregions : t.regionManager.regions = s.regionManager.regions) :
    (t.regionManager.removeAllocationRegion r).owns a ↔
      s.owns a ∧ ¬(r.ptr ≤ a ∧ a < r.endPtr) := by
  have hw := hs.regions
  have hrm := mem_removed (r := r) hw hregions
  constructor
  · rintro ⟨z, hz, h1, h2⟩
    obtain ⟨hz, hne⟩ := (hrm z).mp hz
    refine ⟨⟨z, hz, h1, h2⟩, fun h => hne ?_⟩
    have heq := hw.regionFor_eq hr h.1 h.2
    rw [hw.regionFor_eq hz h1 h2] at heq
    exact Except.ok.inj heq
  · rintro ⟨⟨z, hz, h1, h2⟩, hno⟩
    exact ⟨z, (hrm z).mpr ⟨hz, fun hzr => hno (hzr ▸ ⟨h1, h2⟩)⟩, h1, h2⟩

theorem deleteRegion_spec (hs : s.Inv []) (hr : r ∈ s.regionManager.regions) (hun : s.Unused r) :
    Returns (fun t => (t.dropRegion r).Inv [] ∧ KeepsUse s (t.dropRegion r) ∧
      (s.Tidy [] → (t.dropRegion r).Tidy []) ∧
      (∀ j, (t.chunks j).ptr = (s.chunks j).ptr) ∧
      (∀ a, (t.regionManager.removeAllocationRegion r).owns a ↔
        s.owns a ∧ ¬(r.ptr ≤ a ∧ a < r.endPtr)) ∧
      (∀ x, x ∈ (t.regionManager.removeAllocationRegion r).regions ↔
        x ∈ s.regionManager.regions ∧ x ≠ r) ∧
      ∀ a j, t.handles a = some j → s.handles a = some j)
      (deleteChunks s.numChunks (s.handles r.ptr) s) := by
  obtain ⟨l, hl⟩ := hs.exists_chunksOf hr
  have hmem : ∀ j, j ∈ l.reverse ++ [] ↔
      ∃ d, r.ptr ≤ d ∧ d < r.endPtr ∧ s.handles d = some j := by
    intro j
    rw [append_nil, mem_reverse]
    exact hl.mem_iff j
  refine (deleteChunks_spec hs (.refl hs) hl.walk (hl.length_le hs.toMapped) hl.nodup
    fun j hj => ?_).imp (fun _ => id) fun t hd => ?_
  · obtain ⟨d, h1, h2, hc⟩ := (hl.mem_iff j).mp hj
    exact ⟨hl.registered hs.toMapped hj, hun d j h1 h2 hc, not_mem_nil⟩
  · refine ⟨hd.inv hs hr hmem, hd.keepsUse hmem hun, hd.tidy hs hmem, hd.ptr,
      fun a => removeRegion_owns hs hr hd.regions, mem_removed hs.regions hd.regions,
      fun a j hc => (hd.handles_some hs hmem hc).1⟩

end Heap
end TfReading.Bfc
