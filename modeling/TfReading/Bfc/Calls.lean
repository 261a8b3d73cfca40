import TfReading.Bfc.Timestamps

/-!
# The calls of the allocator

`State.Inv` is what holds between two calls.  Each part of `AllocateRawInternal` keeps it:
`Advanced` says so of the parts that only move free memory around, and `Allocates` of those
that may hand out a chunk.  A call either returns or does not end (`Ends`), it does not fail.
-/

namespace TfReading.Bfc

open Outcome Heap List Sat

abbrev Ends {α : Type} (post : α → Prop) (x : Except Fault α) : Prop :=
  Sat (fun e => e = .noReturn) post x

theorem Returns.ends {α : Type} {post : α → Prop} {x : Except Fault α} (hx : Returns post x) :
    Ends post x :=
  .imp hx (fun _ => False.elim) fun _ => id

/-- Fewer than `2 ^ 63` bytes are lent out at any time. -/
def SubAllocator.Small (sub : SubAllocator) : Prop :=
  ∀ (a : sub.State) (F : Finset Nat), (∀ c ∈ F, sub.owns a c) → F.card < 2 ^ 63

theorem toInt64_eq {n : Nat} (hn : n < 2 ^ 63) : toInt64 n = n := by
  rw [toInt64, wordSize, Int.bmod_def]
  omega

namespace State

variable {sub : SubAllocator} {cfg : Config} {s s' s'' : State sub} {h : ChunkHandle} {n : Nat}
    {gone : AllocationRegion → Prop} {r : Option Nat × State sub} {a a' : sub.State} {t : Heap}
    {memory : Option (Nat × Nat)} {o : Option Nat}

structure Inv (s : State sub) : Prop where
  heap : s.heap.Inv []
  owned : ∀ a, s.heap.owns a → sub.owns s.subAllocator a
  nextAllocationId : 0 < s.nextAllocationId
  bytesInUse : s.stats.bytesInUse = s.heap.bytesInUse
  queued : ∀ h ∈ s.timestampedChunks, s.heap.Standing h

def Untimed (s : State sub) : Prop := s.timestampedChunks = [] ∧ s.heap.Tidy []

/-- From `s` a call has come to `s'`, and has handed out or taken back no chunk. -/
structure Advanced (s s' : State sub) : Prop where
  inv : s'.Inv
  keepsUse : KeepsUse s.heap s'.heap
  untimed : s.Untimed → s'.Untimed

structure Allocates (s : State sub) (r : Option Nat × State sub) : Prop where
  inv : r.2.Inv
  untimed : s.Untimed → r.2.Untimed
  kept : ∀ h, (s.heap.chunks h).inUse = true →
    (r.2.heap.chunks h).inUse = true ∧ (r.2.heap.chunks h).ptr = (s.heap.chunks h).ptr
  found : ∀ p, r.1 = some p → (∃ h, (r.2.heap.chunks h).inUse = true ∧ (r.2.heap.chunks h).ptr = p) ∧
    ∀ h, (s.heap.chunks h).inUse = true → (s.heap.chunks h).ptr ≠ p

theorem Advanced.refl (hs : s.Inv) : Advanced s s := ⟨hs, KeepsUse.refl _, id⟩

theorem Advanced.allocates (hs : Advanced s s') : Allocates s (none, s') where
  inv := hs.inv
  untimed := hs.untimed
  kept h hh := ⟨(hs.keepsUse.inUse h).trans hh, hs.keepsUse.ptr h hh⟩
  found p hp := by cases hp

theorem Allocates.trans (h1 : Allocates s (o, s')) (h2 : Allocates s' r) : Allocates s r where
  inv := h2.inv
  untimed hu := h2.untimed (h1.untimed hu)
  kept h hh := by
    obtain ⟨hu, hp⟩ := h1.kept h hh
    exact ⟨(h2.kept h hu).1, (h2.kept h hu).2.trans hp⟩
  found p hp := by
    refine ⟨(h2.found p hp).1, fun h hh => ?_⟩
    obtain ⟨hu, hptr⟩ := h1.kept h hh
    rw [← show (s'.heap.chunks h).ptr = _ from hptr]
    exact (h2.found p hp).2 h hu

structure Serves (n : Nat) (s : State sub) (r : Option Nat × State sub) : Prop
    extends Allocates s r where
  served : ∀ p, r.1 = some p → ∃ h, (s.heap.chunks h).inUse = false ∧
    (r.2.heap.chunks h).inUse = true ∧ (r.2.heap.chunks h).ptr = p ∧ n ≤ (r.2.heap.chunks h).size

theorem Advanced.serves (hs : Advanced s s') : Serves n s (none, s') :=
  ⟨hs.allocates, nofun⟩

theorem Allocates.then_serves (h1 : Allocates s (o, s')) (h2 : Serves n s' r) : Serves n s r := by
  refine ⟨h1.trans h2.toAllocates, fun p hp => ?_⟩
  obtain ⟨h, hfree, hrest⟩ := h2.served p hp
  refine ⟨h, Bool.eq_false_iff.mpr fun hu => ?_, hrest⟩
  exact Bool.eq_false_iff.mp hfree (h1.kept h hu).1

/-! ## Sizes -/

theorem bytesInUse_lt (hsmall : sub.Small) (ht : t.Mapped)
    (howned : ∀ c, t.owns c → sub.owns a c) : t.bytesInUse < 2 ^ 63 := by
  obtain ⟨F, hcard, hF⟩ := ht.exists_bytes_inUse
  rw [← hcard]
  exact hsmall a F fun c hc => howned c (hF c hc)

theorem size_lt (hsmall : sub.Small) (ht : t.Mapped)
    (howned : ∀ c, t.owns c → sub.owns a c) (hr : t.Registered h) : (t.chunks h).size < 2 ^ 63 := by
  obtain ⟨F, hcard, hF⟩ := ht.exists_bytes {h} fun j hj => Finset.mem_singleton.mp hj ▸ hr
  rw [Finset.sum_singleton] at hcard
  rw [← hcard]
  exact hsmall a F fun c hc => howned c (hF c hc)

/-! ## `FindChunkPtr` -/

theorem firstFit_some {b0 b : BinNum} {freedBefore : Nat}
    (hfit : firstFit t b0 n freedBefore = some (b, h)) : h ∈ t.bins b ∧ n ≤ (t.chunks h).size := by
  obtain ⟨b', -, hb'⟩ := exists_of_findSome?_eq_some hfit
  obtain ⟨j, hj, heq⟩ := Option.map_eq_some_iff.mp hb'
  cases heq
  have hfits := find?_some hj
  rw [fits, Bool.and_eq_true, decide_eq_true_eq] at hfits
  exact ⟨mem_of_find?_eq_some hj, hfits.2⟩

/-- Without wrap-around a chunk is only split if something is left over. -/
theorem lt_of_splits (hfrag : 0 < cfg.maxInternalFragmentation) (hpos : 0 < n) {size : Nat}
    (hle : n ≤ size) (hsize : size < 2 ^ 63) (hsplit : splits cfg size n = true) : n < size := by
  rw [splits, Bool.or_eq_true, decide_eq_true_eq, decide_eq_true_eq] at hsplit
  have hword : wordSize = 2 ^ 64 := rfl
  rcases hsplit with hsplit | hsplit
  · rw [Nat.mod_eq_of_lt (by omega)] at hsplit
    omega
  · have hsub : size + wordSize - n = size - n + wordSize := by omega
    rw [hsub, Nat.add_mod_right, Nat.mod_eq_of_lt (by omega)] at hsplit
    omega

theorem splitIfLarge_spec (hfrag : 0 < cfg.maxInternalFragmentation) (ht : t.Inv [h])
    (hr : t.Registered h) (hu : (t.chunks h).inUse = false) (hpos : 0 < n)
    (ha : kMinAllocationSize ∣ n) (hle : n ≤ (t.chunks h).size) (hsize : (t.chunks h).size < 2 ^ 63) :
    Returns (fun t' => InHand t t' h ∧ n ≤ (t'.chunks h).size ∧ (t.Tidy [] → t'.Tidy [h]))
      (splitIfLarge cfg t h (t.chunks h).size n) := by
  rw [splitIfLarge]
  split
  next hsplit =>
    have hlt := lt_of_splits hfrag hpos hle hsize hsplit
    exact (splitChunk_spec ht hr hu hpos hlt ha).imp (fun _ => id) fun t' ht' =>
      ⟨ht'.1, ht'.2.2.1.symm.le, ht'.2.2.2⟩
  · exact ⟨.refl ht hr hu, hle, fun ht => ht.mono (nil_subset _)⟩

theorem Inv.inUse_of_next (hs : s.Inv) {c : Chunk} (hc : c.allocationId = s.nextAllocationId) :
    c.inUse = true := by
  have hid := hs.nextAllocationId
  rw [Chunk.inUse, bne_iff_ne, hc]
  omega

theorem Inv.markUsed (hs : s.Inv) (hsmall : sub.Small) (ht : InHand s.heap t h) (requested : Nat) :
    Inv { s with
      heap := t.setChunk h
        { t.chunks h with requestedSize := requested, allocationId := s.nextAllocationId }
      nextAllocationId := s.nextAllocationId + 1
      stats := s.stats.addChunk (t.chunks h).size } := by
  let c : Chunk :=
    { t.chunks h with requestedSize := requested, allocationId := s.nextAllocationId }
  have huse : c.inUse = true := hs.inUse_of_next rfl
  have hinv : (t.setChunk h c).Inv [] := by
    refine ht.inv.setChunk_unbinned ht.registered rfl
      (ht.inv.binNum_eq_none (.inr (.inl mem_cons_self))) ?_ ?_ (.inl huse)
    · intro b hb
      exact (ht.inv.mem_iff.mp hb).2.2.1 mem_cons_self
    · intro j hj
      simp [hj]
  have howned : ∀ a, t.owns a → sub.owns s.subAllocator a := by
    rw [ht.owns_eq]
    exact hs.owned
  have hsum := bytesInUse_setChunk (c := c) (ht.inv.valid ht.registered)
  have hlt := bytesInUse_lt hsmall hinv.toMapped howned
  rw [bytesOf, bytesOf, if_neg (by rw [ht.not_inUse]; exact Bool.false_ne_true), if_pos huse,
    ht.keepsUse.bytesInUse_eq hs.heap.toMapped, Nat.add_zero] at hsum
  constructor
  · exact hinv
  · exact howned
  · exact Int.lt_add_one_of_le hs.nextAllocationId.le
  · show toInt64 (s.stats.bytesInUse + (t.chunks h).size) = _
    rw [hs.bytesInUse, ← Int.natCast_add, ← show _ = s.heap.bytesInUse + (t.chunks h).size from hsum]
    exact toInt64_eq hlt
  · intro j hj
    exact (inPlace_setChunk (by rfl)).keepsStanding j (ht.keepsStanding j (hs.queued j hj))

theorem findChunkPtr_spec (hs : s.Inv) (hsmall : sub.Small)
    (hfrag : 0 < cfg.maxInternalFragmentation) (hpos : 0 < n) (ha : kMinAllocationSize ∣ n)
    (b0 : BinNum) {numBytes : Nat} (hn : numBytes ≤ n) (freedBefore : Nat) :
    Returns (Serves numBytes s) (s.findChunkPtr cfg b0 n numBytes freedBefore) := by
  rw [findChunkPtr]
  split
  · exact (Advanced.refl hs).serves
  next b h hfit =>
    obtain ⟨hb, hle⟩ := firstFit_some hfit
    obtain ⟨hr, hu, -, -⟩ := hs.heap.mem_iff.mp hb
    apply bind (removeFreeChunkIterFromBin_spec hs.heap hb)
    intro t ht
    have hrt := (ht.2.inPlace.registered_iff h).mpr hr
    have hut : (t.chunks h).inUse = false := (ht.2.keepsUse.inUse h).trans hu
    have hsz : (t.chunks h).size = (s.heap.chunks h).size := ht.2.inPlace.size_eq h
    rw [chunkFromHandle_eq (ht.1.valid hrt)]
    apply bind (splitIfLarge_spec hfrag ht.1 hrt hut hpos ha (hsz ▸ hle)
      (hsz ▸ size_lt hsmall hs.heap.toMapped hs.owned hr))
    intro u hpost
    obtain ⟨hhand, hroom, htidy⟩ := hpost
    have hin := ht.2.inHand hhand
    rw [chunkFromHandle_eq (hin.inv.valid hin.registered)]
    have hne : ∀ j, (s.heap.chunks j).inUse = true → j ≠ h := by
      intro j hj hjh
      rw [hjh, hu] at hj
      cases hj
    refine ⟨⟨hs.markUsed hsmall hin numBytes, fun hun => ⟨hun.1, ?_⟩, ?_, ?_⟩, ?_⟩
    · exact (htidy (ht.2.tidy hun.2)).setChunk rfl rfl
        (fun j hj hjh => absurd (mem_singleton.mp hj) hjh) (.inl (hs.inUse_of_next rfl))
    · intro j hj
      rw [setChunk_of_ne (hne j hj)]
      exact ⟨(hin.keepsUse.inUse j).trans hj, hin.keepsUse.ptr j hj⟩
    · intro p hp
      cases hp
      constructor
      · refine ⟨h, ?_⟩
        rw [setChunk_self]
        exact ⟨hs.inUse_of_next rfl, rfl⟩
      · intro j hj hjp
        have hju : (u.chunks j).inUse = true := (hin.keepsUse.inUse j).trans hj
        have hjr := hin.inv.inUse_registered hju
        rw [← hin.keepsUse.ptr j hj] at hjp
        exact hjr.ptr_ne hin.registered (hne j hj) hjp
    · intro p hp
      cases hp
      refine ⟨h, hu, ?_⟩
      rw [setChunk_self]
      exact ⟨hs.inUse_of_next rfl, rfl, le_trans hn hroom⟩

/-! ## `Extend` -/

theorem growAllocation_spec (rounds curr : Nat) :
    Ends (fun c => n ≤ c) (growAllocation n rounds curr) := by
  induction rounds generalizing curr with
  | zero => exact rfl
  | succ rounds ih =>
    rw [growAllocation]
    split
    · exact ih _
    next hlt => exact not_lt.mp hlt

/-- What the sub-allocator has done when it was asked for `n` bytes or more. -/
def Lent (n : Nat) (a a' : sub.State) : Option (Nat × Nat) → Prop
  | none => ∀ c, sub.owns a' c ↔ sub.owns a c
  | some (p, m) => kMinAllocationSize ∣ p ∧ n ≤ m ∧ p + m < wordSize ∧
      (∀ c, p ≤ c → c < p + m → ¬sub.owns a c) ∧
      ∀ c, sub.owns a' c ↔ sub.owns a c ∨ (p ≤ c ∧ c < p + m)

theorem alloc_lent {alignment bytes : Nat}
    (hn : n ≤ bytes) (halloc : sub.alloc a alignment bytes = (memory, a')) : Lent n a a' memory := by
  cases memory with
  | none => exact sub.alloc_none halloc
  | some =>
    obtain ⟨-, hp, -, hm, hend, hfree, howns⟩ := sub.alloc_some halloc
    exact ⟨hp, le_trans hn hm, hend, hfree, howns⟩

/-- A failure before changes nothing. -/
theorem Lent.after {a'' : sub.State}
    (hfail : Lent n a a' none) (h : Lent n a' a'' memory) : Lent n a a'' memory := by
  cases memory with
  | none => exact fun c => (h c).trans (hfail c)
  | some =>
    obtain ⟨hp, hm, hend, hfree, howns⟩ := h
    exact ⟨hp, hm, hend, fun c h1 h2 => mt (hfail c).mpr (hfree c h1 h2),
      fun c => (howns c).trans (or_congr_left (hfail c))⟩

theorem backpedal_spec (alignment rounds bytes : Nat) (a : sub.State) :
    Ends (fun r => Lent n a r.2 r.1) (backpedal alignment n rounds bytes a) := by
  induction rounds generalizing bytes a with
  | zero => exact rfl
  | succ rounds ih =>
    rw [backpedal]
    split
    · exact fun c => .rfl
    next hlt =>
      have hle := not_lt.mp hlt
      split
      next memory a' halloc => exact alloc_lent hle halloc
      next a' halloc =>
        exact (ih _ a').imp (fun _ => id) fun r hr => (alloc_lent hle halloc).after hr

theorem requestMemory_spec (alignment rounds : Nat) {bytes : Nat} (hn : n ≤ bytes) :
    Ends (fun r => Lent n s.subAllocator r.2.subAllocator r.1 ∧
      ∃ b, r.2 = { s with startedBackpedal := b, subAllocator := r.2.subAllocator })
      (s.requestMemory alignment n bytes rounds) := by
  rw [requestMemory]
  split
  next memory a halloc => exact ⟨alloc_lent hn halloc, s.startedBackpedal, rfl⟩
  next a halloc =>
    split
    · exact ⟨alloc_lent hn halloc, s.startedBackpedal, rfl⟩
    · apply bind (backpedal_spec alignment rounds bytes a)
      intro ⟨memory, a'⟩ hr
      exact ⟨(alloc_lent hn halloc).after hr, true, rfl⟩

theorem Inv.addMemory (hs : s.Inv) (hpos : 0 < n) {p m : Nat}
    (hlent : Lent n s.subAllocator a (some (p, m))) (curr total : Nat) (b : Bool) :
    Returns (fun t => Advanced s { s with
        heap := t, currRegionAllocationBytes := curr, totalRegionAllocatedBytes := total,
        startedBackpedal := b, subAllocator := a })
      (s.heap.addMemory sub.supportsCoalescing p m) := by
  obtain ⟨hp, hm, hend, hfree, howns⟩ := hlent
  have hg : s.heap.Granted p m :=
    ⟨hp, lt_of_lt_of_le hpos hm, hend, fun c h1 h2 => mt (hs.owned c) (hfree c h1 h2)⟩
  apply (addMemory_spec hs.heap hg sub.supportsCoalescing).imp fun _ => id
  intro t ht
  obtain ⟨hinv, hkeep, hstand, htidy, ho⟩ := ht
  refine ⟨⟨hinv, fun c hc => ?_, hs.nextAllocationId, ?_, fun h hh => ?_⟩, hkeep,
    fun hu => ⟨hu.1, htidy hu.2⟩⟩
  · exact (howns c).mpr (((ho c).mp hc).imp_left (hs.owned c))
  · rw [hkeep.bytesInUse_eq hs.heap.toMapped]
    exact hs.bytesInUse
  · exact hstand h (hs.queued h hh)

theorem extend_spec (hs : s.Inv) (hpos : 0 < n) (alignment rounds : Nat) :
    Ends (fun r => Advanced s r.2) (s.extend cfg alignment n rounds) := by
  rw [extend]
  split
  · exact .refl hs
  next havail =>
    apply bind (growAllocation_spec rounds _)
    intro curr hcurr
    have hbytes : n ≤ min curr (availableBytes cfg s) := Nat.le_min.mpr ⟨hcurr, not_lt.mp havail⟩
    apply bind (requestMemory_spec alignment rounds hbytes)
    intro ⟨memory, s1⟩ hpost
    obtain ⟨hlent, b, hs1⟩ : Lent n s.subAllocator s1.subAllocator memory ∧ ∃ b, s1 = _ := hpost
    cases memory with
    | none =>
      have howned : ∀ a, s.heap.owns a → sub.owns s1.subAllocator a :=
        fun a ha => (hlent a).mpr (hs.owned a ha)
      generalize s1.subAllocator = a at hs1 howned
      rw [hs1]
      exact ⟨{ hs with owned := howned }, .refl _, id⟩
    | some pm =>
      generalize s1.subAllocator = a at hs1 hlent
      subst hs1
      exact (hs.addMemory hpos hlent _ _ b).ends.bind fun t ht => ht

/-! ## `DeallocateFreeRegions` -/

structure Collected (s s' : State sub) (gone : AllocationRegion → Prop) : Prop where
  heap : s'.heap.Inv []
  owned : (∀ a, s.heap.owns a → sub.owns s.subAllocator a) →
    ∀ a, s'.heap.owns a → sub.owns s'.subAllocator a
  keepsUse : KeepsUse s.heap s'.heap
  tidy : s.heap.Tidy [] → s'.heap.Tidy []
  stats : s'.stats = s.stats
  nextAllocationId : s'.nextAllocationId = s.nextAllocationId
  queue : s'.timestampedChunks = s.timestampedChunks
  ptr : ∀ j, (s'.heap.chunks j).ptr = (s.heap.chunks j).ptr
  owns : ∀ a, s.heap.owns a → (∀ r, gone r → ¬(r.ptr ≤ a ∧ a < r.endPtr)) → s'.heap.owns a
  regions : ∀ r ∈ s.heap.regionManager.regions, ¬gone r → r ∈ s'.heap.regionManager.regions
  handles : ∀ a j, s'.heap.handles a = some j → s.heap.handles a = some j

theorem Collected.refl (hs : s.heap.Inv []) (gone : AllocationRegion → Prop) :
    Collected s s gone :=
  ⟨hs, fun h => h, .refl _, id, rfl, rfl, rfl, fun _ => rfl, fun _ ha _ => ha,
    fun _ hr _ => hr, fun _ _ => id⟩

theorem Collected.trans {g1 g2 : AllocationRegion → Prop} (h1 : Collected s s' g1)
    (h2 : Collected s' s'' g2) (hgone : ∀ r, g1 r ∨ g2 r → gone r) : Collected s s'' gone where
  heap := h2.heap
  owned ho := h2.owned (h1.owned ho)
  keepsUse := h1.keepsUse.trans h2.keepsUse
  tidy ht := h2.tidy (h1.tidy ht)
  stats := h2.stats.trans h1.stats
  nextAllocationId := h2.nextAllocationId.trans h1.nextAllocationId
  queue := h2.queue.trans h1.queue
  ptr j := (h2.ptr j).trans (h1.ptr j)
  owns a ha hno := h2.owns a (h1.owns a ha fun r hr => hno r (hgone r (.inl hr)))
    fun r hr => hno r (hgone r (.inr hr))
  regions r hr hno := h2.regions r (h1.regions r hr fun hg => hno (hgone r (.inl hg)))
    fun hg => hno (hgone r (.inr hg))
  handles a j hj := h1.handles a j (h2.handles a j hj)

theorem Collected.unused (hc : Collected s s' gone)
    {r : AllocationRegion} (hr : s.heap.Unused r) : s'.heap.Unused r := by
  intro d j h1 h2 hd
  rw [hc.keepsUse.inUse]
  exact hr d j h1 h2 (hc.handles d j hd)

theorem deallocateRegion_spec (hs : s.heap.Inv []) {r : AllocationRegion}
    (hr : r ∈ s.heap.regionManager.regions) (hun : s.heap.Unused r) :
    Returns (fun s' => Collected s s' fun x => x = r) (s.deallocateRegion r) := by
  obtain ⟨ho, ha⟩ := ptr_mem hs.toMapped hr
  rw [deallocateRegion, hs.toMapped.getHandle_eq ho ha]
  apply bind (deleteRegion_spec hs hr hun)
  intro t ht
  obtain ⟨hinv, hkeep, htidy, hptr, howns, hregions, hhandles⟩ := ht
  refine ⟨hinv, fun hsub a hat => ?_, hkeep, htidy, rfl, rfl, rfl, hptr, fun a has hno => ?_,
    fun x hx hne => ?_, hhandles⟩
  · obtain ⟨has, hout⟩ := (howns a).mp hat
    exact (sub.free_owns _ _ _ _).mpr ⟨hsub a has, hout⟩
  · exact (howns a).mpr ⟨has, hno r rfl⟩
  · exact (hregions x).mpr ⟨hx, hne⟩

/-- The loop over the regions, by induction on those still to be looked at. -/
theorem deallocateRegions_spec (hs : s.heap.Inv []) (ptrs : List Nat) {rs : List AllocationRegion}
    (hnodup : rs.Nodup) (hrs : ∀ r ∈ rs, r ∈ s.heap.regionManager.regions)
    (hun : ∀ r ∈ rs, r.ptr ∈ ptrs → s.heap.Unused r) :
    Returns (fun s' => Collected s s' fun r => r ∈ rs ∧ r.ptr ∈ ptrs)
      (deallocateRegions ptrs rs s) := by
  induction rs generalizing s with
  | nil => exact .refl hs _
  | cons r rest ih =>
    obtain ⟨hnot, hnodup⟩ := nodup_cons.mp hnodup
    have hr := hrs r mem_cons_self
    rw [deallocateRegions]
    split
    next hin =>
      apply bind (deallocateRegion_spec hs hr (hun r mem_cons_self hin))
      intro s1 h1
      have hrest : ∀ x ∈ rest, x ∈ s1.heap.regionManager.regions := by
        intro x hx
        apply h1.regions x (hrs x (mem_cons_of_mem r hx))
        intro hxr
        exact hnot (hxr ▸ hx)
      apply (ih h1.heap hnodup hrest fun x hx hp =>
        h1.unused (hun x (mem_cons_of_mem r hx) hp)).imp fun _ => id
      intro s2 h2
      apply h1.trans h2
      intro x hx
      rcases hx with hx | hx
      · rw [hx]
        exact ⟨mem_cons_self, hin⟩
      · exact ⟨mem_cons_of_mem r hx.1, hx.2⟩
    · apply (ih hs hnodup (fun x hx => hrs x (mem_cons_of_mem r hx))
        fun x hx => hun x (mem_cons_of_mem r hx)).imp fun _ => id
      intro s2 h2
      exact (Collected.refl hs fun _ => False).trans h2 fun x hx =>
        ⟨mem_cons_of_mem r (hx.resolve_left id).1, (hx.resolve_left id).2⟩

/-- No queued handle holds an address in a region that `DeallocateFreeRegions` would hand back. -/
def QueueClear (s : State sub) : Prop :=
  ∀ r ∈ s.heap.regionManager.regions, s.heap.Unused r → ∀ h ∈ s.timestampedChunks,
    ¬(r.ptr ≤ (s.heap.chunks h).ptr ∧ (s.heap.chunks h).ptr < r.endPtr)

theorem Collected.advanced (hs : s.Inv) (hc : Collected s s' gone)
    (hclear : ∀ r, gone r → ∀ h ∈ s.timestampedChunks,
      ¬(r.ptr ≤ (s.heap.chunks h).ptr ∧ (s.heap.chunks h).ptr < r.endPtr)) : Advanced s s' := by
  refine ⟨⟨hc.heap, hc.owned hs.owned, ?_, ?_, ?_⟩, hc.keepsUse, ?_⟩
  · rw [hc.nextAllocationId]
    exact hs.nextAllocationId
  · rw [hc.stats, hc.keepsUse.bytesInUse_eq hs.heap.toMapped]
    exact hs.bytesInUse
  · intro h hh
    rw [hc.queue] at hh
    have hst := hs.queued h hh
    refine ⟨lt_of_lt_of_le hst.valid hc.keepsUse.numChunks, ?_, ?_⟩
    · rw [hc.ptr]
      exact hc.owns _ hst.owns fun r hr => hclear r hr h hh
    · rw [hc.ptr]
      exact hst.aligned
  · exact fun hu => ⟨hc.queue.trans hu.1, hc.tidy hu.2⟩

theorem deallocateFreeRegions_spec (hs : s.Inv)
    (hclear : ∀ s', s.deallocateFreeRegions cfg n = .ok (true, s') → s.QueueClear) :
    Returns (fun r => Advanced s r.2) (s.deallocateFreeRegions cfg n) := by
  have hall : ∀ r ∈ s.heap.regionManager.regions, r ∈ s.heap.regionManager.regions := fun _ => id
  obtain ⟨free, hfree, hun⟩ := (freeRegions_spec hs.heap.toMapped hall).exists_ok
  rw [deallocateFreeRegions, hfree] at hclear ⊢
  split
  next hgc =>
    rw [if_pos hgc] at hclear
    show Returns _ (if _ then _ else _)
    split
    · exact .refl hs
    next hzero =>
      split
      · exact .refl hs
      next hroom =>
        have hunused : ∀ r ∈ s.heap.regionManager.regions, r.ptr ∈ free.map (·.ptr) →
            s.heap.Unused r := by
          intro r hr hp
          obtain ⟨x, hx, hxr⟩ := mem_map.mp hp
          rw [← hs.heap.regions.ptr_inj hr (hun x hx).1 hxr]
          exact (hun x hx).2
        obtain ⟨s1, hs1, hc⟩ := (deallocateRegions_spec hs.heap (free.map (·.ptr))
          hs.heap.regions.nodup hall hunused).exists_ok
        rw [hs1]
        have hqueue : s.QueueClear := by
          apply hclear s1
          show (if _ then _ else _) = _
          rw [if_neg hzero, if_neg hroom, hs1]
          rfl
        exact hc.advanced hs fun r hr => hqueue r hr.1 (hunused r hr.1 hr.2)
  · exact .refl hs

/-! ## `MergeTimestampedChunks` -/

theorem mergeTimestampedChunks_spec (hs : s.Inv) (required : Nat) :
    Returns (fun r => r.2.Inv ∧ KeepsUse s.heap r.2.heap) (s.mergeTimestampedChunks required) := by
  apply Sat.bind (sweepChunks_spec hs.heap hs.queued)
  intro w hw
  have hstart : Merged w.heap ⟨w.heap, w.newQueue, required == 0⟩ :=
    ⟨.refl hw.settled.inv, hw.newQueue⟩
  apply Sat.bind (.foldlM hstart fun m p hp hm =>
    mergeChunkAt_spec hm (hm.settled.mergeable (hw.toMerge p hp)))
  intro m hm
  have hset := hw.settled.trans hm.settled
  refine ⟨⟨hset.inv, ?_, hs.nextAllocationId, ?_, hm.queue⟩, hset.keepsUse⟩
  · rw [hset.owns_eq]
    exact hs.owned
  · rw [hset.keepsUse.bytesInUse_eq hs.heap.toMapped]
    exact hs.bytesInUse

theorem mergeSafeChunks_spec (hs : s.Inv) : Returns (Advanced s) s.mergeSafeChunks := by
  rw [mergeSafeChunks]
  split
  · exact .refl hs
  next hne =>
    apply bind (mergeTimestampedChunks_spec hs 0)
    intro ⟨_, s1⟩ hpost
    refine ⟨hpost.1, hpost.2, fun hu => ?_⟩
    rw [hu.1] at hne
    exact absurd rfl hne

/-! ## `AllocateRawInternal` -/

theorem roundedBytes_dvd (bytes : Nat) : kMinAllocationSize ∣ roundedBytes bytes :=
  Nat.dvd_mul_right _ _

theorem le_roundedBytes {bytes : Nat} (hle : bytes ≤ 2 ^ 64 - 256) : bytes ≤ roundedBytes bytes := by
  have hk : kMinAllocationSize = 256 := rfl
  have hw : wordSize = 2 ^ 64 := rfl
  rw [roundedBytes, hk, hw]
  omega

theorem roundedBytes_pos {bytes : Nat} (hpos : 0 < bytes) (hle : bytes ≤ 2 ^ 64 - 256) :
    0 < roundedBytes bytes :=
  lt_of_lt_of_le hpos (le_roundedBytes hle)

def Request.Sized (q : Request) : Prop := 0 < q.numBytes ∧ q.numBytes ≤ 2 ^ 64 - 256

/-- If the request comes to hand regions back, no queued handle holds an address in one. -/
def GcSafe (cfg : Config) (s : State sub) (q : Request) : Prop :=
  ∀ s₁ s₂, s.findWithoutCollecting cfg q = .ok (none, s₁) →
    s₁.deallocateFreeRegions cfg (roundedBytes q.numBytes) = .ok (true, s₂) → s₁.QueueClear

section Attempts

variable {q : Request} (hsmall : sub.Small) (hfrag : 0 < cfg.maxInternalFragmentation)
  (hq : q.Sized) (hs : s.Inv)

theorem orElse_spec {f : State sub → Except Fault (Option Nat × State sub)}
    (hr : Serves n s r) (hf : ∀ s', r = (none, s') → s'.Inv → Ends (Serves n s') (f s')) :
    Ends (Serves n s) (orElse r f) := by
  obtain ⟨o, s'⟩ := r
  cases o with
  | some => exact hr
  | none => exact (hf s' rfl hr.inv).imp (fun _ => id) fun r' hr' => hr.then_serves hr'

include hsmall hfrag hq hs

theorem tryFind_spec : Returns (Serves q.numBytes s) (s.tryFind cfg q) :=
  findChunkPtr_spec hs hsmall hfrag (roundedBytes_pos hq.1 hq.2) (roundedBytes_dvd _) _
    (le_roundedBytes hq.2) _

theorem extendAndFind_spec : Ends (Serves q.numBytes s) (s.extendAndFind cfg q) := by
  apply bind (extend_spec hs (roundedBytes_pos hq.1 hq.2) q.alignment q.rounds)
  intro ⟨extended, s1⟩ hpost
  have hadv : Advanced s s1 := hpost
  show Ends _ (if _ then _ else _)
  split
  · exact (tryFind_spec hsmall hfrag hq hadv.inv).imp (fun _ => False.elim)
      fun r hr => hadv.allocates.then_serves hr
  · exact hadv.serves

theorem mergeAndFind_spec : Returns (Serves q.numBytes s) (s.mergeAndFind cfg q) := by
  rw [mergeAndFind]
  split
  next hcond =>
    apply bind (mergeTimestampedChunks_spec hs _)
    intro ⟨satisfied, s1⟩ hpost
    have hadv : Advanced s s1 := ⟨hpost.1, hpost.2, fun hu => absurd hu.1 hcond.2⟩
    show Returns _ (if _ then _ else _)
    split
    · exact (tryFind_spec hsmall hfrag hq hadv.inv).imp (fun _ => id)
        fun r hr => hadv.allocates.then_serves hr
    · exact hadv.serves
  · exact (Advanced.refl hs).serves

theorem findOrExtend_spec : Ends (Serves q.numBytes s) (s.findOrExtend cfg q) := by
  apply bind (mergeSafeChunks_spec hs).ends
  intro s1 hadv
  apply bind (tryFind_spec hsmall hfrag hq hadv.inv).ends
  intro r hr
  exact orElse_spec (hadv.allocates.then_serves hr) fun s2 _ hs2 => extendAndFind_spec hsmall hfrag hq hs2

theorem findWithoutCollecting_spec : Ends (Serves q.numBytes s) (s.findWithoutCollecting cfg q) := by
  apply bind (findOrExtend_spec hsmall hfrag hq hs)
  intro r hr
  exact orElse_spec hr fun s1 _ hs1 => (mergeAndFind_spec hsmall hfrag hq hs1).ends

theorem collectAndFind_spec
    (hclear : ∀ s', s.deallocateFreeRegions cfg (roundedBytes q.numBytes) = .ok (true, s') →
      s.QueueClear) : Ends (Serves q.numBytes s) (s.collectAndFind cfg q) := by
  apply bind (deallocateFreeRegions_spec hs hclear).ends
  intro ⟨freed, s1⟩ hpost
  have hadv : Advanced s s1 := hpost
  show Ends _ (if _ then _ else _)
  split
  · exact (extendAndFind_spec hsmall hfrag hq hadv.inv).imp (fun _ => id)
      fun r hr => hadv.allocates.then_serves hr
  · exact hadv.serves

theorem allocateRawInternal_spec (hgc : GcSafe cfg s q) :
    Ends (Serves q.numBytes s) (s.allocateRawInternal cfg q) := by
  rw [allocateRawInternal]
  split
  · exact (Advanced.refl hs).serves
  · apply (findWithoutCollecting_spec hsmall hfrag hq hs).eq_ok.bind
    intro r hr
    apply orElse_spec hr.2
    intro s1 hnone hs1
    rw [hnone] at hr
    exact collectAndFind_spec hsmall hfrag hq hs1 fun s2 => hgc s1 s2 hr.1

end Attempts

/-! ## `DeallocateRawInternal` -/

structure Releases (cfg : Config) (s : State sub) (h : ChunkHandle) (s' : State sub) : Prop where
  inv : s'.Inv
  untimed : cfg.timingCounter = false → s.Untimed → s'.Untimed
  kept : ∀ k, k ≠ h → (s.heap.chunks k).inUse = true →
    (s'.heap.chunks k).inUse = true ∧ (s'.heap.chunks k).ptr = (s.heap.chunks k).ptr

/-- `MarkFree` leaves the chunk in hand. -/
structure Freed (cfg : Config) (s : State sub) (h : ChunkHandle) (s' : State sub) : Prop where
  heap : s'.heap.Inv [h]
  registered : s'.heap.Registered h
  not_inUse : (s'.heap.chunks h).inUse = false
  bytesInUse : s'.stats.bytesInUse = s'.heap.bytesInUse
  owns_eq : s'.heap.owns = s.heap.owns
  keepsStanding : KeepsStanding s.heap s'.heap
  tidy : cfg.timingCounter = false → s.heap.Tidy [] → s'.heap.Tidy [h]
  kept : ∀ k, k ≠ h → s'.heap.chunks k = s.heap.chunks k
  rest : s' = { s with heap := s'.heap, stats := s'.stats }

theorem markFree_spec (hs : s.Inv) (hsmall : sub.Small) (hu : (s.heap.chunks h).inUse = true)
    (count : Nat) : Returns (Freed cfg s h) (s.markFree cfg h count) := by
  have hr := hs.heap.inUse_registered hu
  have hv := hs.heap.valid hr
  have hbin := hs.heap.binNum_eq_none (.inl hu)
  rw [markFree, chunkFromHandle_eq hv]
  show Returns _ (check _ >>= _)
  rw [check_true (by simp [hu, hbin])]
  generalize hc : ({ s.heap.chunks h with
    allocationId := -1
    freedAtCount := if cfg.timingCounter then count else (s.heap.chunks h).freedAtCount } : Chunk) = c
  have hblock : c.block = s.heap.block h := hc ▸ rfl
  have hcu : c.inUse = false := hc ▸ rfl
  have hsum := bytesInUse_setChunk (c := c) hv
  rw [bytesOf, bytesOf, if_pos hu, if_neg (by rw [hcu]; exact Bool.false_ne_true),
    Nat.add_zero] at hsum
  have hlt := bytesInUse_lt hsmall hs.heap.toMapped hs.owned
  constructor
  · apply hs.heap.setChunk_unbinned hr hblock
    · rw [← hc]
      exact hbin
    · intro b hb
      have hno := (hs.heap.mem_iff.mp hb).2.1
      rw [hu] at hno
      cases hno
    · intro j hj
      simp [hj]
    · exact .inr mem_cons_self
  · exact ((inPlace_setChunk hblock).registered_iff h).mpr hr
  · rw [setChunk_self]
    exact hcu
  · show toInt64 (s.stats.bytesInUse - (s.heap.chunks h).size) = (s.heap.setChunk h c).bytesInUse
    rw [hs.bytesInUse, ← hsum, Int.natCast_add, Int.add_sub_cancel]
    exact toInt64_eq (by omega)
  · rfl
  · exact (inPlace_setChunk hblock).keepsStanding
  · intro htiming ht
    refine ht.setChunk hblock ?_ (by simp) (.inr mem_cons_self)
    rw [← hc, htiming]
    rfl
  · exact fun k hk => setChunk_of_ne hk
  · rfl

/-- The chunk in hand goes back into a bin, by itself or merged with its neighbours. -/
theorem Freed.releases (hf : Freed cfg s h s') (hs : s.Inv) (ht : Settled s'.heap t)
    {queue : List ChunkHandle} (hq : ∀ j ∈ queue, j ∈ s.timestampedChunks ∨ j = h)
    (hun : cfg.timingCounter = false → s.Untimed → queue = [] ∧ t.Tidy []) :
    Releases cfg s h { s' with heap := t, timestampedChunks := queue } := by
  have hid : s'.nextAllocationId = s.nextAllocationId := by rw [hf.rest]
  have hsub : s'.subAllocator = s.subAllocator := by rw [hf.rest]
  refine ⟨⟨ht.inv, ?_, ?_, ?_, ?_⟩, hun, ?_⟩
  · rw [ht.owns_eq, hf.owns_eq, hsub]
    exact hs.owned
  · rw [hid]
    exact hs.nextAllocationId
  · rw [hf.bytesInUse, ht.keepsUse.bytesInUse_eq hf.heap.toMapped]
  · intro j hj
    apply ht.keepsStanding
    rcases hq j hj with hj | hj
    · exact hf.keepsStanding j (hs.queued j hj)
    · rw [hj]
      exact hf.heap.toMapped.standing hf.registered
  · intro k hk hku
    have hku' : (s'.heap.chunks k).inUse = true := by
      rw [hf.kept k hk]
      exact hku
    refine ⟨(ht.keepsUse.inUse k).trans hku', ?_⟩
    rw [← hf.kept k hk]
    exact ht.keepsUse.ptr k hku'

theorem deallocateRawInternal_spec (hs : s.Inv) (hsmall : sub.Small)
    (hu : (s.heap.chunks h).inUse = true) (count : Nat) :
    Returns (Releases cfg s h) (s.deallocateRawInternal cfg (s.heap.chunks h).ptr count) := by
  have hr := hs.heap.inUse_registered hu
  have hst := hs.heap.toMapped.standing hr
  rw [deallocateRawInternal]
  split
  · exact ⟨hs, fun _ => id, fun k _ hk => ⟨hk, rfl⟩⟩
  · rw [hs.heap.toMapped.getHandle_eq hst.owns hst.aligned, show s.heap.handles _ = _ from hr]
    apply bind (markFree_spec hs hsmall hu count)
    intro s1 hf
    have hqueue : s1.timestampedChunks = s.timestampedChunks := by rw [hf.rest]
    split
    next htiming =>
      apply bind (insertFreeChunkIntoBin_spec hf.heap hf.registered hf.not_inUse
        not_mem_nil)
      intro t ht
      apply hf.releases hs ⟨ht.1, ht.2.keepsUse, ht.2.inPlace.keepsStanding, ht.2.inPlace.owns_eq⟩
      · intro j hj
        rw [hqueue] at hj
        exact (mem_append.mp hj).imp_right mem_singleton.mp
      · intro hno
        rw [htiming] at hno
        cases hno
    · apply bind (coalesceIntoBin_spec hf.heap hf.registered hf.not_inUse)
      intro ⟨k, t⟩ ht
      apply hf.releases hs ht.1
      · intro j hj
        rw [hqueue] at hj
        exact .inl hj
      · intro htiming hun
        exact ⟨hqueue.trans hun.1, ht.2.2 (hf.tidy htiming hun.2)⟩

end State
end TfReading.Bfc
