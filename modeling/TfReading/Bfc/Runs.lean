import TfReading.Bfc.Calls
import TfReading.Library.Runs

/-!
# Runs of the allocator

A `Session` is the allocator together with the pointers that it has handed out and not got
back.  `Structured` is the layout of chunks, regions and bins as it is meant to be, and
`MergeSafe` says that `MergeTimestampedChunks` only looks at memory that the allocator owns.
Both hold along every run in which sizes do not wrap around and no region is handed back
while a handle into it is queued.
-/

namespace TfReading.Bfc

open Outcome Heap Tiling

variable {sub : SubAllocator} {cfg : Config} {h : ChunkHandle}

/-! ## The layout -/

namespace Heap

/-- Following `next` from the chunk at the base of the region visits `l`. -/
def Chain (s : Heap) (r : AllocationRegion) (l : List ChunkHandle) : Prop :=
  Walk (fun h => (s.chunks h).next) (s.handles r.ptr) l

def OnChain (s : Heap) (h : ChunkHandle) : Prop :=
  ∃ r ∈ s.regionManager.regions, ∃ l, s.Chain r l ∧ h ∈ l

theorem Mapped.onChain_iff {s : Heap} (hs : s.Mapped) :
    s.OnChain h ↔ s.Registered h := by
  constructor
  · intro ⟨r, hr, l, hl, hh⟩
    obtain ⟨l', hl'⟩ := hs.exists_chunksOf hr
    rw [hl.unique hl'.walk] at hh
    exact hl'.registered hs hh
  · intro hh
    obtain ⟨r, hr, h1, h2⟩ := hs.owns hh
    obtain ⟨l, hl⟩ := hs.exists_chunksOf hr
    exact ⟨r, hr, l, hl.walk, (hl.mem_iff h).mpr ⟨_, h1, h2, hh⟩⟩

theorem empty_inv : Heap.empty.Inv [] where
  regions := by constructor <;> simp [empty]
  tiled := by
    constructor
    · constructor <;> simp [empty, RegionManager.span]
    all_goals simp [empty, handles, RegionManager.span]
  aligned ha := by cases ha
  valid ha := by cases ha
  inUse_registered hu := by cases hu
  sorted := by simp [empty]
  mem_iff := by simp [empty, Registered, handles]
  binNum_iff := by simp [empty]
  recycled := ⟨[], rfl, List.nodup_nil, nofun⟩

end Heap

namespace State

variable {s : State sub}

/-- The layout that the allocator is meant to keep. -/
structure Structured (s : State sub) : Prop where
  /-- The chunks of a region lie side by side from its base to its end. -/
  tiles : ∀ r ∈ s.heap.regionManager.regions,
    ∃ l, s.heap.Chain r l ∧ Fills s.heap.block r.ptr l r.endPtr
  /-- Neighbours point at each other and belong to a region themselves. -/
  linked : ∀ h k, s.heap.OnChain h →
    ((s.heap.chunks h).next = some k ↔ s.heap.OnChain k ∧ (s.heap.chunks k).prev = some h) ∧
      ((s.heap.chunks h).prev = some k ↔ s.heap.OnChain k ∧ (s.heap.chunks k).next = some h)
  handles : ∀ a h, s.heap.handles a = some h ↔ s.heap.OnChain h ∧ (s.heap.chunks h).ptr = a
  /-- A chunk is in the bin of its size and no other if it is free, and in none if it is not. -/
  bins : ∀ b h, h ∈ s.heap.bins b ↔ s.heap.OnChain h ∧ (s.heap.chunks h).inUse = false ∧
    b = binNumForSize (s.heap.chunks h).size
  bins_nodup : ∀ b, (s.heap.bins b).Nodup
  /-- The slots of `free_chunks_list_` are not reachable from a region. -/
  recycled : ∃ l, Walk (fun h => (s.heap.chunks h).next) s.heap.freeChunksList l ∧
    ∀ h ∈ l, ¬s.heap.OnChain h
  inUse : ∀ h, (s.heap.chunks h).inUse = true → s.heap.OnChain h
  bytesInUse : s.stats.bytesInUse =
    ((∑ h ∈ (Finset.range s.heap.numChunks).filter fun h => (s.heap.chunks h).inUse = true,
      (s.heap.chunks h).size : Nat) : Int)

theorem Inv.structured (hs : s.Inv) : s.Structured := by
  have hm := hs.heap.toMapped
  constructor
  · intro r hr
    obtain ⟨l, hwalk, hfills, -⟩ := hm.tiled.exists_chain ⟨r, hr, rfl, rfl⟩
    exact ⟨l, hwalk, hfills⟩
  · intro h k hh
    have hr := hm.onChain_iff.mp hh
    rw [hm.onChain_iff]
    constructor
    · constructor
      · intro hn
        have hk := (hm.next_registered hr hn).1
        exact ⟨hk, (hm.next_iff_prev hr hk).mp hn⟩
      · intro ⟨hk, hp⟩
        exact (hm.next_iff_prev hr hk).mpr hp
    · constructor
      · intro hp
        have hk := hm.prev_registered hr hp
        exact ⟨hk, (hm.next_iff_prev hk hr).mpr hp⟩
      · intro ⟨hk, hn⟩
        exact (hm.next_iff_prev hk hr).mp hn
  · intro a h
    rw [hm.onChain_iff]
    constructor
    · exact fun ha => ⟨hm.registered ha, hm.ptr_eq ha⟩
    · intro ⟨hr, hp⟩
      rw [← hp]
      exact hr
  · intro b h
    rw [hm.onChain_iff, hs.heap.mem_iff, eq_comm (a := b)]
    simp
  · intro b
    apply (hs.heap.sorted b).imp
    intro x y hxy heq
    rw [heq, chunkComparator_irrefl] at hxy
    cases hxy
  · obtain ⟨l, hl⟩ := hs.heap.recycled
    refine ⟨l, hl.walk, fun h hh => ?_⟩
    rw [hm.onChain_iff]
    exact (hl.vacant h hh).not_registered _
  · intro h hu
    rw [hm.onChain_iff]
    exact hs.heap.inUse_registered hu
  · rw [hs.bytesInUse, Finset.sum_filter]
    rfl

/-! ## `MergeTimestampedChunks` -/

/-- Each `get_handle` of `MergeTimestampedChunks(required)` is on an address that the allocator
owns, and each chunk it takes out of a bin is free and in a bin. -/
structure MergeSafe (s : State sub) (required : Nat) : Prop where
  /-- The turn of the first loop for `h`, after those for `pre`. -/
  sweep : ∀ pre h post w, s.timestampedChunks = pre ++ h :: post →
    sweepChunks s.safeFrontier required { heap := s.heap } pre = .ok w →
      h < w.heap.numChunks ∧ w.heap.owns (w.heap.chunks h).ptr
  /-- The turn of the second loop for `p`, after those for `pre`. -/
  merge : ∀ swept pre p post w,
    sweepChunks s.safeFrontier required { heap := s.heap } s.timestampedChunks = .ok swept →
      swept.toMerge = pre ++ p :: post →
        pre.foldlM (mergeChunkAt required) ⟨swept.heap, swept.newQueue, required == 0⟩ = .ok w →
          w.heap.owns p ∧ ∀ h, w.heap.handles p = some h → (w.heap.chunks h).inUse = false ∧
            ∃ b, (w.heap.chunks h).binNum = some b ∧ h ∈ w.heap.bins b
  /-- No check fails, also not for the neighbours that a chunk is merged with. -/
  returns : ∃ r, s.mergeTimestampedChunks required = .ok r

theorem Inv.mergeSafe (hs : s.Inv) (required : Nat) : s.MergeSafe required := by
  constructor
  · intro pre h post w hqueue hw
    have hpre : ∀ j ∈ pre, s.heap.Standing j := by
      intro j hj
      exact hs.queued j (hqueue ▸ List.mem_append_left _ hj)
    have hswept := (sweepChunks_spec hs.heap hpre).of_ok hw
    have hh : h ∈ s.timestampedChunks := hqueue ▸ List.mem_append_right _ List.mem_cons_self
    have hst := hswept.settled.keepsStanding h (hs.queued h hh)
    exact ⟨hst.valid, hst.owns⟩
  · intro swept pre p post w hsweep hto hw
    have hswept := (sweepChunks_spec hs.heap hs.queued).of_ok hsweep
    have hstart : Merged swept.heap ⟨swept.heap, swept.newQueue, required == 0⟩ :=
      ⟨.refl hswept.settled.inv, hswept.newQueue⟩
    have hmerged : Merged swept.heap w := by
      refine (.foldlM hstart fun m x hx hm => ?_ : Returns _ _).of_ok hw
      exact mergeChunkAt_spec hm (hm.settled.mergeable
        (hswept.toMerge x (hto ▸ List.mem_append_left _ hx)))
    have hp := hmerged.settled.mergeable
      (hswept.toMerge p (hto ▸ List.mem_append_right _ List.mem_cons_self))
    have hinv := hmerged.settled.inv
    refine ⟨hp.owns, fun h hh => ?_⟩
    have hu := hp.not_inUse hinv.toMapped hh
    have hb := hinv.mem_bin (hinv.toMapped.registered hh) hu List.not_mem_nil
    exact ⟨hu, _, hinv.binNum_iff.mpr hb, hb⟩
  · obtain ⟨r, hr, -⟩ := (mergeTimestampedChunks_spec hs required).exists_ok
    exact ⟨r, hr⟩

end State

/-! ## Sessions -/

structure Session (sub : SubAllocator) where
  state : State sub
  live : List Nat

/-- What other code may call.  One `allocateRaw` is one attempt of `AllocateRaw`. -/
inductive Call
  | allocateRaw (q : State.Request)
  | deallocateRaw (ptr count : Nat)
  | setSafeFrontier (count : Nat)

namespace Session

variable {r r' : Session sub} {c : Call} {slots : List (Nat × Nat)} {log : List Lending} {a : Nat}

def initial (sub : SubAllocator) (cfg : Config) : Session sub := ⟨State.initial sub cfg, []⟩

def call (cfg : Config) (r : Session sub) : Call → Except Fault (Session sub)
  | .allocateRaw q => do
    let (ptr, s) ← r.state.allocateRawInternal cfg q
    .ok ⟨s, ptr.toList ++ r.live⟩
  | .deallocateRaw ptr count => do
    let s ← r.state.deallocateRawInternal cfg ptr count
    .ok ⟨s, r.live.erase ptr⟩
  | .setSafeFrontier count => .ok ⟨r.state.setSafeFrontier count, r.live⟩

def Legal (r : Session sub) : Call → Prop
  | .allocateRaw q => q.Sized
  | .deallocateRaw ptr _ => ptr ∈ r.live
  | .setSafeFrontier _ => True

instance (r : Session sub) (c : Call) : Decidable (r.Legal c) :=
  match c with
  | .allocateRaw q => inferInstanceAs (Decidable (0 < q.numBytes ∧ q.numBytes ≤ 2 ^ 64 - 256))
  | .deallocateRaw ptr _ => inferInstanceAs (Decidable (ptr ∈ r.live))
  | .setSafeFrontier _ => inferInstanceAs (Decidable True)

/-- No region is handed back while a handle into it is queued. -/
def GcSafe (cfg : Config) (r : Session sub) : Call → Prop
  | .allocateRaw q => r.state.GcSafe cfg q
  | _ => True

def runs (sub : SubAllocator) (cfg : Config) : System (Session sub) Call where
  init r := r = initial sub cfg
  step r c r' := r.Legal c ∧ r.call cfg c = .ok r'

/-- The runs that never hand back a region with a queued handle into it. -/
def safeRuns (sub : SubAllocator) (cfg : Config) : System (Session sub) Call where
  init r := r = initial sub cfg
  step r c r' := r.Legal c ∧ r.GcSafe cfg c ∧ r.call cfg c = .ok r'

structure Inv (r : Session sub) : Prop where
  state : r.state.Inv
  live : ∀ p ∈ r.live, ∃ h, (r.state.heap.chunks h).inUse = true ∧ (r.state.heap.chunks h).ptr = p
  nodup : r.live.Nodup

theorem initial_inv : (initial sub cfg).Inv where
  state :=
    { heap := Heap.empty_inv
      owned := fun a ⟨r, hr, _⟩ => by cases hr
      nextAllocationId := Int.one_pos
      bytesInUse := rfl
      queued := nofun }
  live p hp := by cases hp
  nodup := List.nodup_nil

structure Called (cfg : Config) (r r' : Session sub) : Prop where
  inv : r'.Inv
  untimed : cfg.timingCounter = false → r.state.Untimed → r'.state.Untimed

section Calls

variable (hr : r.Inv)
include hr

theorem called_of_allocates {x : Option Nat × State sub} (hx : State.Allocates r.state x) :
    Called cfg r ⟨x.2, x.1.toList ++ r.live⟩ := by
  refine ⟨⟨hx.inv, ?_, ?_⟩, fun _ => hx.untimed⟩
  · intro p hp
    rcases List.mem_append.mp hp with hp | hp
    · exact (hx.found p (Option.mem_toList.mp hp)).1
    · obtain ⟨h, hu, hptr⟩ := hr.live p hp
      obtain ⟨hu', hptr'⟩ := hx.kept h hu
      exact ⟨h, hu', hptr'.trans hptr⟩
  · cases ho : x.1 with
    | none => exact hr.nodup
    | some p =>
      refine List.nodup_cons.mpr ⟨fun hp => ?_, hr.nodup⟩
      obtain ⟨h, hu, hptr⟩ := hr.live p hp
      exact (hx.found p ho).2 h hu hptr

theorem called_of_releases {s' : State sub} (hs' : State.Releases cfg r.state h s') :
    Called cfg r ⟨s', r.live.erase (r.state.heap.chunks h).ptr⟩ := by
  refine ⟨⟨hs'.inv, ?_, hr.nodup.erase _⟩, hs'.untimed⟩
  intro p hp
  obtain ⟨hne, hp⟩ := hr.nodup.mem_erase_iff.mp hp
  obtain ⟨k, hk, hkp⟩ := hr.live p hp
  have hkh : k ≠ h := by
    intro hkh
    rw [← hkp, hkh] at hne
    exact hne rfl
  obtain ⟨hk', hkp'⟩ := hs'.kept k hkh hk
  exact ⟨k, hk', hkp'.trans hkp⟩

variable (hsmall : sub.Small) (hfrag : 0 < cfg.maxInternalFragmentation)
include hsmall hfrag

theorem call_spec (hlegal : r.Legal c) (hgc : r.GcSafe cfg c) :
    Ends (Called cfg r) (r.call cfg c) := by
  cases c with
  | allocateRaw =>
    apply Sat.bind (State.allocateRawInternal_spec hsmall hfrag hlegal hr.state hgc)
    intro x hx
    exact called_of_allocates hr hx.toAllocates
  | deallocateRaw ptr count =>
    obtain ⟨h, hu, hptr⟩ := hr.live ptr hlegal
    rw [← hptr]
    apply Sat.bind (State.deallocateRawInternal_spec hr.state hsmall hu count).ends
    intro s' hs'
    exact called_of_releases hr hs'
  | setSafeFrontier =>
    exact ⟨⟨{ hr.state with }, hr.live, hr.nodup⟩, fun _ => id⟩

/-- With nothing queued there is no handle into a region that is handed back. -/
theorem gcSafe_of_untimed (hu : r.state.Untimed) (hlegal : r.Legal c) :
    r.GcSafe cfg c := by
  cases c with
  | allocateRaw =>
    intro s1 s2 hfind _
    have hfound := (State.findWithoutCollecting_spec hsmall hfrag hlegal hr.state).of_ok hfind
    intro x _ _ h hh
    rw [show s1.timestampedChunks = [] from (hfound.untimed hu).1] at hh
    cases hh
  | deallocateRaw => trivial
  | setSafeFrontier => trivial

end Calls

/-- Without garbage collection no region is handed back at all. -/
theorem gcSafe_of_off (hoff : cfg.garbageCollection = false) : r.GcSafe cfg c := by
  cases c with
  | allocateRaw =>
    intro s1 s2 _ hgc
    rw [State.deallocateFreeRegions, hoff] at hgc
    cases hgc
  | deallocateRaw => trivial
  | setSafeFrontier => trivial

/-! ## Every run -/

theorem reachable_inv (hsmall : sub.Small) (hfrag : 0 < cfg.maxInternalFragmentation)
    (hr : (safeRuns sub cfg).Reachable r) : r.Inv := by
  apply hr.invariant
  · intro r hr
    rw [show r = initial sub cfg from hr]
    exact initial_inv
  · intro r c r' hr hstep
    exact ((call_spec hr hsmall hfrag hstep.1 hstep.2.1).of_ok hstep.2.2).inv

/-- Without a timing counter nothing is ever queued, and free chunks are merged. -/
theorem reachable_untimed (hsmall : sub.Small) (hfrag : 0 < cfg.maxInternalFragmentation)
    (htiming : cfg.timingCounter = false) (hr : (runs sub cfg).Reachable r) :
    r.Inv ∧ r.state.Untimed := by
  apply hr.invariant
  · intro r hr
    rw [show r = initial sub cfg from hr]
    exact ⟨initial_inv, rfl, nofun, nofun⟩
  · intro r c r' hr hstep
    have hgc := gcSafe_of_untimed hr.1 hsmall hfrag hr.2 hstep.1
    have hcalled := (call_spec hr.1 hsmall hfrag hstep.1 hgc).of_ok hstep.2
    exact ⟨hcalled.inv, hcalled.untimed htiming hr.2⟩

theorem safe_of_off (hoff : cfg.garbageCollection = false) (hr : (runs sub cfg).Reachable r) :
    (safeRuns sub cfg).Reachable r := by
  apply hr.invariant
  · exact fun r hr => .init hr
  · exact fun r c r' hr hstep => hr.step ⟨hstep.1, gcSafe_of_off hoff, hstep.2⟩

/-! ## A sub-allocator with fixed slots -/

inductive Lending
  | lent (slot : Nat × Nat)
  | freed (ptr numBytes : Nat)

def inRange (slot : Nat × Nat) (a : Nat) : Prop := slot.1 ≤ a ∧ a < slot.1 + slot.2

def lentAt (slots : List (Nat × Nat)) : List Lending → Nat → Prop
  | [], _ => False
  | .lent slot :: log, a => (slot ∈ slots ∧ inRange slot a) ∨ lentAt slots log a
  | .freed ptr numBytes :: log, a => lentAt slots log a ∧ ¬inRange (ptr, numBytes) a

def unlent (slot : Nat × Nat) (log : List Lending) : Bool :=
  log.all fun
    | .lent other => decide (slot.1 + slot.2 ≤ other.1 ∨ other.1 + other.2 ≤ slot.1)
    | .freed _ _ => true

theorem not_lentAt_of_unlent {slot : Nat × Nat}
    (hun : unlent slot log = true) (ha : inRange slot a) : ¬lentAt slots log a := by
  induction log with
  | nil => exact id
  | cons e log ih =>
    rw [unlent, List.all_cons, Bool.and_eq_true] at hun
    cases e with
    | lent =>
      intro h
      rcases h with h | h
      · have hout := of_decide_eq_true hun.1
        obtain ⟨h1, h2⟩ := h.2
        obtain ⟨h3, h4⟩ := ha
        omega
      · exact ih hun.2 h
    | freed => exact fun h => ih hun.2 h.1

theorem mem_of_lentAt (h : lentAt slots log a) : ∃ slot ∈ slots, inRange slot a := by
  induction log with
  | nil => exact h.elim
  | cons e log ih =>
    cases e with
    | lent slot =>
      rcases h with h | h
      · exact ⟨slot, h.1, h.2⟩
      · exact ih h
    | freed => exact ih h.1

/-- Each slot is lent at most once, the first that is large enough. -/
def slotAllocator (slots : List (Nat × Nat))
    (hslots : ∀ slot ∈ slots, slot.1 ≠ 0 ∧ kMinAllocationSize ∣ slot.1 ∧
      kMinAllocationSize ∣ slot.2 ∧ slot.1 + slot.2 < wordSize) : SubAllocator where
  State := List Lending
  initial := []
  alloc log _ numBytes :=
    match slots.find? fun slot => decide (numBytes ≤ slot.2) && unlent slot log with
    | some slot => (some slot, .lent slot :: log)
    | none => (none, log)
  free log ptr numBytes := .freed ptr numBytes :: log
  supportsCoalescing := false
  owns := lentAt slots
  not_owns_initial _ := id
  alloc_some := by
    intro log alignment numBytes p n log' halloc
    split at halloc
    next slot hfind =>
      cases halloc
      have hmem := List.mem_of_find?_eq_some hfind
      have hfit := List.find?_some hfind
      rw [Bool.and_eq_true, decide_eq_true_eq] at hfit
      obtain ⟨hzero, hp, hn, hend⟩ := hslots _ hmem
      refine ⟨hzero, hp, hn, hfit.1, hend, fun a h₁ h₂ => ?_, fun a => ?_⟩
      · exact not_lentAt_of_unlent hfit.2 ⟨h₁, h₂⟩
      · rw [or_comm]
        exact or_congr_left (and_iff_right hmem)
    next => cases halloc
  alloc_none := by
    intro log alignment numBytes log' halloc a
    split at halloc
    next => cases halloc
    next =>
      cases halloc
      exact Iff.rfl
  free_owns _ _ _ _ := Iff.rfl

theorem slotAllocator_small {hslots} (bound : Nat)
    (hbound : ∀ slot ∈ slots, slot.1 + slot.2 ≤ bound) (hlt : bound < 2 ^ 63) :
    (slotAllocator slots hslots).Small := by
  intro log F hF
  have hsub : F ⊆ Finset.range bound := by
    intro a ha
    obtain ⟨slot, hslot, hin⟩ := mem_of_lentAt (hF a ha)
    exact Finset.mem_range.mpr (lt_of_lt_of_le hin.2 (hbound slot hslot))
  have hcard := Finset.card_le_card hsub
  rw [Finset.card_range] at hcard
  exact lt_of_le_of_lt hcard hlt

def next (cfg : Config) (r : Session sub) (c : Call) : Option (Session sub) :=
  if r.Legal c then (r.call cfg c).toOption else none

theorem next_step (h : r.next cfg c = some r') :
    (runs sub cfg).step r c r' := by
  rw [next] at h
  split at h
  next hlegal => exact ⟨hlegal, eq_ok_of_toOption h⟩
  next => cases h

theorem exists_reachable (sub : SubAllocator) (cfg : Config) (calls : List Call)
    (p : Session sub → Bool)
    (h : ((calls.foldlM (next cfg) (initial sub cfg)).map p) = some true) :
    ∃ r, (runs sub cfg).Reachable r ∧ p r = true := by
  obtain ⟨r, hrun, hp⟩ := Option.map_eq_some_iff.mp h
  exact ⟨r, (System.Reachable.init rfl).replay (fun _ _ _ => next_step) hrun, hp⟩

/-! ## The theorems -/

/-- Without a timing counter the layout is kept along every run, and no call fails, as long as
fewer than `2 ^ 63` bytes are lent out at a time. -/
theorem reachable_structured (hsmall : sub.Small) (hfrag : 0 < cfg.maxInternalFragmentation)
    (htiming : cfg.timingCounter = false) (hr : (runs sub cfg).Reachable r) :
    r.state.Structured ∧
      ∀ c, r.Legal c → ∀ e, r.call cfg c = .error e → e = .noReturn := by
  obtain ⟨hinv, huntimed⟩ := reachable_untimed hsmall hfrag htiming hr
  refine ⟨hinv.state.structured, fun c hlegal e he => ?_⟩
  have hgc := gcSafe_of_untimed hinv hsmall hfrag huntimed hlegal
  have hcall := call_spec hinv hsmall hfrag hlegal hgc
  rw [he] at hcall
  exact hcall

def oneSlot : SubAllocator := slotAllocator [(4096, 4096)] (by decide)

theorem oneSlot_small : oneSlot.Small := slotAllocator_small 8192 (by decide) (by decide)

def untimed : Config where
  memoryLimit := 4096
  allowGrowth := true
  garbageCollection := true
  timingCounter := false

theorem reachable_structured_oneSlot :
    ∃ r : Session oneSlot, (runs oneSlot untimed).Reachable r ∧ r.live = [4096] ∧
      r.state.Structured := by
  obtain ⟨r, hr, hlive⟩ := exists_reachable oneSlot untimed
    [.allocateRaw ⟨64, 100, 0, 4⟩, .allocateRaw ⟨64, 300, 0, 4⟩, .deallocateRaw 4352 0]
    (fun r => decide (r.live = [4096])) (by decide +kernel)
  exact ⟨r, hr, of_decide_eq_true hlive,
    (reachable_structured oneSlot_small (by decide) rfl hr).1⟩

/-- A region of 4 MiB right below one of 2 MiB, which is lent first. -/
def adjacentSlots : SubAllocator := slotAllocator [(2 ^ 23, 2 ^ 21), (2 ^ 22, 2 ^ 22)] (by decide)

/-- The fraction of the limit that may be lost to internal fragmentation is less than a byte. -/
def noFragmentation : Config where
  memoryLimit := 2 ^ 23
  allowGrowth := true
  garbageCollection := false
  timingCounter := false
  maxInternalFragmentation := 0

/-- A request that fits a free chunk exactly splits it, and the empty rest takes the handle of the
chunk behind it, which is in use. -/
theorem not_structured_of_noFragmentation : ∃ r : Session adjacentSlots,
    (runs adjacentSlots noFragmentation).Reachable r ∧ ¬r.state.Structured := by
  obtain ⟨r, hr, hp⟩ := exists_reachable adjacentSlots noFragmentation
    [.allocateRaw ⟨64, 256, 0, 4⟩, .allocateRaw ⟨64, 256, 0, 4⟩, .deallocateRaw (2 ^ 23) 0,
      .allocateRaw ⟨64, 256, 0, 4⟩]
    (fun r => decide ((r.state.heap.chunks 1).inUse = true ∧
      r.state.heap.handles (r.state.heap.chunks 1).ptr ≠ some 1))
    (by decide +kernel)
  obtain ⟨hinUse, hhandle⟩ := of_decide_eq_true hp
  exact ⟨r, hr, fun hst => hhandle ((hst.handles _ 1).mpr ⟨hst.inUse 1 hinUse, rfl⟩)⟩

/-- `MergeTimestampedChunks` is safe wherever a run calls it, and no call fails, as long as fewer
than `2 ^ 63` bytes are lent out at a time and no region with a queued handle into it is handed
back. -/
theorem reachable_mergeSafe (hsmall : sub.Small) (hfrag : 0 < cfg.maxInternalFragmentation)
    (hr : (safeRuns sub cfg).Reachable r) :
    r.state.MergeSafe 0 ∧
      (∀ q : State.Request, q.Sized → ∀ s, r.state.findOrExtend cfg q = .ok (none, s) →
        s.MergeSafe (roundedBytes q.numBytes)) ∧
      ∀ c, r.Legal c → r.GcSafe cfg c → ∀ e, r.call cfg c = .error e → e = .noReturn := by
  have hinv := reachable_inv hsmall hfrag hr
  refine ⟨hinv.state.mergeSafe 0, fun q hq s hs => ?_, fun c hlegal hgc e he => ?_⟩
  · have hfound := (State.findOrExtend_spec hsmall hfrag hq hinv.state).of_ok hs
    exact hfound.inv.mergeSafe _
  · have hcall := call_spec hinv hsmall hfrag hlegal hgc
    rw [he] at hcall
    exact hcall

/-- The pointer `p` that was returned for `numBytes` is that of a chunk which was free, is large
enough and meets no other chunk in use. -/
def Granted (s s' : Heap) (numBytes p : Nat) : Prop :=
  ∃ h < s'.numChunks, (s'.chunks h).ptr = p ∧ (s'.chunks h).inUse = true ∧
    (s.chunks h).inUse = false ∧ numBytes ≤ (s'.chunks h).size ∧
      ∀ k, k ≠ h → (s'.chunks k).inUse = true →
        (s'.chunks h).ptr + (s'.chunks h).size ≤ (s'.chunks k).ptr ∨
          (s'.chunks k).ptr + (s'.chunks k).size ≤ (s'.chunks h).ptr

/-- What `AllocateRawInternal` returns can be used, in every run without a request that
`RoundedBytes` cannot round up, as long as fewer than `2 ^ 63` bytes are lent out at a time and no
region with a queued handle into it is handed back. -/
theorem allocation_granted (hsmall : sub.Small) (hfrag : 0 < cfg.maxInternalFragmentation)
    (hr : (safeRuns sub cfg).Reachable r) {q : State.Request} (hq : q.Sized)
    (hgc : r.state.GcSafe cfg q) {p : Nat} {s' : State sub}
    (hcall : r.state.allocateRawInternal cfg q = .ok (some p, s')) :
    Granted r.state.heap s'.heap q.numBytes p := by
  have hinv := (reachable_inv hsmall hfrag hr).state
  have hserves := (State.allocateRawInternal_spec hsmall hfrag hq hinv hgc).of_ok hcall
  have hheap := hserves.inv.heap
  obtain ⟨h, hfree, hu, hptr, hsize⟩ := hserves.served p rfl
  have hreg := hheap.inUse_registered hu
  refine ⟨h, hheap.valid hreg, hptr, hu, hfree, hsize, fun k hk hku => ?_⟩
  have hkreg := hheap.inUse_registered hku
  by_contra hmeet
  rw [not_or, not_le, not_le] at hmeet
  exact hkreg.ptr_ne hreg hk (hheap.tiled.eq_of_overlap hkreg hreg hmeet.1 hmeet.2)

def timed : Config where
  memoryLimit := 4096
  allowGrowth := true
  garbageCollection := false
  timingCounter := true

theorem reachable_mergeSafe_oneSlot :
    ∃ r : Session oneSlot, (safeRuns oneSlot timed).Reachable r ∧
      r.state.timestampedChunks ≠ [] ∧ r.state.MergeSafe 0 := by
  obtain ⟨r, hr, hqueue⟩ := exists_reachable oneSlot timed
    [.allocateRaw ⟨64, 100, 0, 4⟩, .allocateRaw ⟨64, 300, 0, 4⟩, .deallocateRaw 4352 7,
      .allocateRaw ⟨64, 200, 0, 4⟩]
    (fun r => decide (r.state.timestampedChunks ≠ [])) (by decide +kernel)
  have hsafe := safe_of_off rfl hr
  exact ⟨r, hsafe, of_decide_eq_true hqueue,
    (reachable_mergeSafe oneSlot_small (by decide) hsafe).1⟩

theorem allocation_granted_oneSlot : ∃ s' : State oneSlot,
    (State.initial oneSlot timed).allocateRawInternal timed ⟨64, 100, 0, 4⟩ = .ok (some 4096, s') ∧
      Granted (State.initial oneSlot timed).heap s'.heap 100 4096 := by
  have hret : (((State.initial oneSlot timed).allocateRawInternal timed
      ⟨64, 100, 0, 4⟩).toOption.map Prod.fst) = some (some 4096) := by decide +kernel
  obtain ⟨⟨o, s'⟩, hx, rfl⟩ := Option.map_eq_some_iff.mp hret
  have hcall := eq_ok_of_toOption hx
  have hgc : (initial oneSlot timed).GcSafe timed (.allocateRaw ⟨64, 100, 0, 4⟩) := gcSafe_of_off rfl
  exact ⟨s', hcall, allocation_granted oneSlot_small (by decide) (.init rfl)
    ⟨Nat.zero_lt_succ 99, by decide⟩ hgc hcall⟩

/-- `RoundedBytes` of `2 ^ 64 - 1` is `0`, so any chunk will do, and nothing of it is left to the
request when it is split. -/
theorem not_granted_of_wrapped : ∃ s' : State oneSlot,
    (State.initial oneSlot timed).allocateRawInternal timed ⟨64, 2 ^ 64 - 1, 0, 4⟩ =
        .ok (some 4096, s') ∧
      ¬Granted (State.initial oneSlot timed).heap s'.heap (2 ^ 64 - 1) 4096 := by
  have hret : (((State.initial oneSlot timed).allocateRawInternal timed
      ⟨64, 2 ^ 64 - 1, 0, 4⟩).toOption.map fun x => (x.1, decide (∀ h < x.2.heap.numChunks,
        (x.2.heap.chunks h).size < 2 ^ 64 - 1))) = some (some 4096, true) := by decide +kernel
  obtain ⟨⟨o, s'⟩, hx, heq⟩ := Option.map_eq_some_iff.mp hret
  obtain ⟨rfl, hsize⟩ := Prod.mk.inj heq
  refine ⟨s', eq_ok_of_toOption hx, fun hgranted => ?_⟩
  obtain ⟨h, hh, -, -, -, hle, -⟩ := hgranted
  exact absurd hle (not_le.mpr (of_decide_eq_true hsize h hh))

def twoSlots : SubAllocator := slotAllocator [(2 ^ 20, 4096), (4096, 4096)] (by decide)

def timedCollecting : Config where
  memoryLimit := 4096
  allowGrowth := true
  garbageCollection := true
  timingCounter := true

/-- A chunk is freed and queued, its region is handed back to make room for a request that may
not use it, and the next request looks up the address of the chunk. -/
theorem not_mergeSafe_of_collected :
    ∃ r : Session twoSlots, (runs twoSlots timedCollecting).Reachable r ∧ ¬r.state.MergeSafe 0 ∧
      ∃ c, r.Legal c ∧ r.call timedCollecting c = .error .noRegion := by
  obtain ⟨r, hr, hp⟩ := exists_reachable twoSlots timedCollecting
    [.allocateRaw ⟨64, 2048, 0, 4⟩, .deallocateRaw (2 ^ 20) 5, .allocateRaw ⟨64, 4096, 1, 4⟩]
    (fun r => (match r.state.mergeTimestampedChunks 0 with
        | .error .noRegion => true
        | _ => false) &&
      match r.call timedCollecting (.allocateRaw ⟨64, 256, 0, 4⟩) with
        | .error .noRegion => true
        | _ => false)
    (by decide +kernel)
  rw [Bool.and_eq_true] at hp
  refine ⟨r, hr, fun hsafe => ?_, .allocateRaw ⟨64, 256, 0, 4⟩, ⟨?_, ?_⟩, ?_⟩
  · obtain ⟨x, hx⟩ := hsafe.returns
    rw [hx] at hp
    cases hp.1
  · exact Nat.zero_lt_succ 255
  · decide
  · have hcall := hp.2
    split at hcall
    next heq => exact heq
    next => cases hcall

end Session
end TfReading.Bfc
