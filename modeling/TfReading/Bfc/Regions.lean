import Mathlib.Data.List.TakeWhile
import TfReading.Bfc.Chunks

/-!
# New memory from the sub-allocator

Memory becomes a region of its own, or prolongs the region that it follows.  In both cases
one chunk covers it.  A prolonged region is a new region that is glued to its predecessor,
and the tiling is carried over in these two steps.
-/

namespace TfReading.Bfc

open Outcome Tiling Function List RegionManager

/-! ## The region manager -/

namespace RegionManager

variable {m m' : RegionManager} {p n a : Nat} {r : AllocationRegion}

def Apart (m : RegionManager) (p n : Nat) : Prop :=
  ∀ r ∈ m.regions, r.endPtr ≤ p ∨ p + n ≤ r.ptr

theorem apart_of_not_owns (hm : m.WellFormed) (hn : 0 < n)
    (h : ∀ a, p ≤ a → a < p + n → ¬m.owns a) : m.Apart p n := by
  intro r hr
  by_contra hcon
  have hpos := hm.pos r hr
  have hend : r.endPtr = r.ptr + r.memorySize := rfl
  by_cases hle : r.ptr ≤ p
  · exact h p le_rfl (by omega) ⟨r, hr, hle, by omega⟩
  · exact h r.ptr (by omega) (by omega) ⟨r, hr, le_rfl, by omega⟩

theorem before_append_after (m : RegionManager) (p : Nat) : m.before p ++ m.after p = m.regions :=
  takeWhile_append_dropWhile

theorem mem_regions_iff : r ∈ m.regions ↔ r ∈ m.before p ∨ r ∈ m.after p := by
  rw [← m.before_append_after p, mem_append]

theorem le_ptr_of_mem_after (hm : m.WellFormed) (ha : m.Apart p n) (hr : r ∈ m.after p) :
    p + n ≤ r.ptr := by
  have hmem : r ∈ m.regions := mem_regions_iff.mpr (.inr hr)
  have hend : r.endPtr = r.ptr + r.memorySize := rfl
  -- the first region after `p` ends past `p`, and the others follow it
  have hlt : p < r.endPtr := by
    have hsorted : (m.after p).Pairwise fun r r' => r.endPtr ≤ r'.ptr :=
      hm.sorted.sublist (dropWhile_sublist _)
    cases hafter : m.after p with
    | nil =>
      rw [hafter] at hr
      cases hr
    | cons x =>
      have hx : p < x.endPtr := by
        have hhead := head?_dropWhile_not (fun r : AllocationRegion => decide (r.endPtr ≤ p))
          m.regions
        rw [after] at hafter
        rw [hafter] at hhead
        simpa using hhead
      rw [hafter] at hr hsorted
      rcases mem_cons.mp hr with rfl | hr
      · exact hx
      · have hle := (pairwise_cons.mp hsorted).1 r hr
        omega
  exact (ha r hmem).resolve_left (by omega)

theorem wellFormed_insert {l1 l2 : List AllocationRegion} {f : Nat → Option ChunkHandle}
    (hsorted : (l1 ++ l2).Pairwise fun r r' => r.endPtr ≤ r'.ptr)
    (hl : ∀ x ∈ l1, x.endPtr ≤ r.ptr) (hr : ∀ x ∈ l2, r.endPtr ≤ x.ptr)
    (hall : ∀ x ∈ l1 ++ r :: l2,
      0 < x.memorySize ∧ kMinAllocationSize ∣ x.ptr ∧ x.endPtr < wordSize) :
    WellFormed ⟨l1 ++ r :: l2, f⟩ := by
  obtain ⟨h1, h2, h12⟩ := pairwise_append.mp hsorted
  refine ⟨pairwise_append.mpr ⟨h1, pairwise_cons.mpr ⟨hr, h2⟩, ?_⟩,
    fun x hx => (hall x hx).1, fun x hx => (hall x hx).2.1, fun x hx => (hall x hx).2.2⟩
  intro x hx y hy
  rcases mem_cons.mp hy with rfl | hy
  · exact hl x hx
  · exact h12 x hx y hy

theorem mem_addAllocationRegion :
    r ∈ (m.addAllocationRegion p n).regions ↔ r ∈ m.regions ∨ r = ⟨p, n⟩ := by
  show r ∈ m.before p ++ _ :: m.after p ↔ _
  rw [mem_append, mem_cons, mem_regions_iff]
  exact or_left_comm.trans or_comm

theorem WellFormed.add (hm : m.WellFormed) (ha : m.Apart p n) (hn : 0 < n)
    (hp : kMinAllocationSize ∣ p) (hlt : p + n < wordSize) :
    (m.addAllocationRegion p n).WellFormed := by
  refine wellFormed_insert (by rw [before_append_after]; exact hm.sorted)
    (fun x hx => by simpa using mem_takeWhile_imp hx) (fun x hx => le_ptr_of_mem_after hm ha hx) fun x hx => ?_
  rcases mem_addAllocationRegion.mp hx with hx | rfl
  · exact ⟨hm.pos x hx, hm.aligned x hx, hm.bounded x hx⟩
  · exact ⟨hn, hp, hlt⟩

theorem endPtr_extend (r : AllocationRegion) (n : Nat) : (r.extend n).endPtr = r.endPtr + n :=
  (Nat.add_assoc ..).symm

structure Extended (m m' : RegionManager) (r : AllocationRegion) (p n : Nat) : Prop where
  mem : r ∈ m.regions
  end_eq : r.endPtr = p
  mem_iff : ∀ x, x ∈ m'.regions ↔ (x ∈ m.regions ∧ x ≠ r) ∨ x = r.extend n
  handles : m'.handles = m.clear p (p + n)
  wellFormed : m'.WellFormed

theorem addOrExtend_cases (hm : m.WellFormed) (ha : m.Apart p n) (hn : 0 < n)
    (hlt : p + n < wordSize) :
    m.addOrExtendAllocationRegion p n = (none, m.addAllocationRegion p n) ∨
      ∃ r m', m.addOrExtendAllocationRegion p n = (some (r.extend n), m') ∧ Extended m m' r p n := by
  rw [addOrExtendAllocationRegion]
  split
  next r hlast =>
    split
    next hend =>
      refine .inr ⟨r, _, rfl, ?_⟩
      obtain ⟨init, hinit⟩ := getLast?_eq_some_iff.mp hlast
      have hregions : m.regions = init ++ r :: m.after p := by
        rw [← m.before_append_after p, hinit, append_assoc]
        rfl
      have hsorted := hm.sorted
      rw [hregions] at hsorted
      obtain ⟨h1, h2, h12⟩ := pairwise_append.mp hsorted
      have hmem : r ∈ m.regions := by simp [hregions]
      have hrpos := hm.pos r hmem
      have hrend : r.endPtr = r.ptr + r.memorySize := rfl
      rw [hinit, dropLast_concat]
      have hnot : ∀ x, x ∈ init ∨ x ∈ m.after p → x ≠ r := by
        rintro x hx rfl
        rcases hx with hx | hx
        · have hle := h12 x hx x mem_cons_self
          omega
        · have hle := (pairwise_cons.mp h2).1 x hx
          omega
      have hiff : ∀ x, x ∈ init ++ r.extend n :: m.after p ↔
          (x ∈ m.regions ∧ x ≠ r) ∨ x = r.extend n := by
        intro x
        rw [hregions, mem_append, mem_append, mem_cons, mem_cons]
        constructor
        · rintro (h | h | h)
          · exact .inl ⟨.inl h, hnot x (.inl h)⟩
          · exact .inr h
          · exact .inl ⟨.inr (.inr h), hnot x (.inr h)⟩
        · rintro (⟨h | h | h, hne⟩ | h)
          · exact .inl h
          · exact absurd h hne
          · exact .inr (.inr h)
          · exact .inr (.inl h)
      refine ⟨hmem, hend, hiff, rfl, wellFormed_insert ?_ ?_ ?_ ?_⟩
      · exact pairwise_append.mpr ⟨h1, (pairwise_cons.mp h2).2,
          fun x hx y hy => h12 x hx y (mem_cons_of_mem r hy)⟩
      · exact fun x hx => h12 x hx r mem_cons_self
      · intro x hx
        have hle := le_ptr_of_mem_after hm ha hx
        rwa [endPtr_extend, hend]
      · intro x hx
        rcases (hiff x).mp hx with ⟨hx, -⟩ | rfl
        · exact ⟨hm.pos x hx, hm.aligned x hx, hm.bounded x hx⟩
        · refine ⟨Nat.add_pos_right _ hn, hm.aligned r hmem, ?_⟩
          rwa [endPtr_extend, hend]
    · exact .inl rfl
  · exact .inl rfl

theorem owns_add : (m.addAllocationRegion p n).owns a ↔ m.owns a ∨ (p ≤ a ∧ a < p + n) := by
  simp only [owns, mem_addAllocationRegion, or_and_right, exists_or, exists_eq_left]
  rfl

theorem span_add {x y : Nat} :
    (m.addAllocationRegion p n).span x y ↔ m.span x y ∨ (x = p ∧ y = p + n) := by
  simp only [span, mem_addAllocationRegion, or_and_right, exists_or, exists_eq_left,
    eq_comm (a := x), eq_comm (a := y)]
  rfl

theorem Extended.owns_iff (he : Extended m m' r p n) :
    m'.owns a ↔ m.owns a ∨ (p ≤ a ∧ a < p + n) := by
  have hend := he.end_eq
  have hext := endPtr_extend r n
  constructor
  · rintro ⟨x, hx, h1, h2⟩
    rcases (he.mem_iff x).mp hx with ⟨hx, -⟩ | rfl
    · exact .inl ⟨x, hx, h1, h2⟩
    · by_cases ha : a < p
      · exact .inl ⟨r, he.mem, h1, by omega⟩
      · exact .inr ⟨by omega, by omega⟩
  · have hnew : r.extend n ∈ m'.regions := (he.mem_iff _).mpr (.inr rfl)
    have hptr : (r.extend n).ptr = r.ptr := rfl
    rintro (⟨x, hx, h1, h2⟩ | h)
    · by_cases hxr : x = r
      · subst hxr
        exact ⟨_, hnew, h1, by omega⟩
      · exact ⟨x, (he.mem_iff x).mpr (.inl ⟨hx, hxr⟩), h1, h2⟩
    · have hle : r.ptr ≤ r.endPtr := Nat.le_add_right _ _
      exact ⟨_, hnew, by omega, by omega⟩

theorem WellFormed.ptr_inj (hm : m.WellFormed) {x : AllocationRegion} (hr : r ∈ m.regions)
    (hx : x ∈ m.regions) (hp : x.ptr = r.ptr) : x = r := by
  have hrpos := hm.pos r hr
  have hxpos := hm.pos x hx
  have hre : r.endPtr = r.ptr + r.memorySize := rfl
  have hxe : x.endPtr = x.ptr + x.memorySize := rfl
  have hfor := hm.regionFor_eq hr le_rfl (by omega)
  rw [← hp, hm.regionFor_eq hx le_rfl (by omega)] at hfor
  exact Except.ok.inj hfor

theorem Extended.span_iff (he : Extended m m' r p n) (hm : m.WellFormed)
    (ha : m.Apart p n) (hn : 0 < n) (x y : Nat) :
    m'.span x y ↔ ((m.span x y ∨ (x = p ∧ y = p + n)) ∧ x ≠ r.ptr ∧ x ≠ p) ∨
      (x = r.ptr ∧ y = p + n) := by
  have hend := he.end_eq
  have hext := endPtr_extend r n
  constructor
  · rintro ⟨z, hz, rfl, rfl⟩
    rcases (he.mem_iff z).mp hz with ⟨hz, hne⟩ | rfl
    · refine .inl ⟨.inl ⟨z, hz, rfl, rfl⟩, fun hp => hne (hm.ptr_inj he.mem hz hp), ?_⟩
      intro hp
      have hpos := hm.pos z hz
      have hze : z.endPtr = z.ptr + z.memorySize := rfl
      have hz' := ha z hz
      omega
    · exact .inr ⟨rfl, hend ▸ hext⟩
  · rintro (⟨⟨z, hz, rfl, rfl⟩ | ⟨rfl, rfl⟩, hlo, hp⟩ | ⟨rfl, rfl⟩)
    · refine ⟨z, (he.mem_iff z).mpr (.inl ⟨hz, ?_⟩), rfl, rfl⟩
      rintro rfl
      exact hlo rfl
    · exact absurd rfl hp
    · exact ⟨r.extend n, (he.mem_iff _).mpr (.inr rfl), rfl, hend ▸ hext⟩

end RegionManager

/-! ## The chunk for the new memory -/

namespace Heap

variable {s s' t : Heap} {holes l : List ChunkHandle} {h k q : ChunkHandle} {p n a : Nat}
    {m : RegionManager} {r : AllocationRegion}

structure Grown (s t : Heap) (h : ChunkHandle) (p n : Nat) : Prop where
  fresh : s.Fresh h
  aligned : kMinAllocationSize ∣ p
  pos : 0 < n
  not_owned : ¬s.owns p
  numChunks : t.numChunks = s.numChunks
  freeChunksList : t.freeChunksList = s.freeChunksList
  bins : t.bins = s.bins
  regions : t.regionManager.WellFormed
  owns_iff : ∀ a, t.owns a ↔ s.owns a ∨ (p ≤ a ∧ a < p + n)
  handles_new : t.handles p = some h
  handles_rest : ∀ a, a ≠ p → t.handles a = s.handles a
  ptr : (t.chunks h).ptr = p
  not_inUse : (t.chunks h).inUse = false
  binNum : (t.chunks h).binNum = none
  freedAtCount : (t.chunks h).freedAtCount = 0
  rest : ∀ j, j ≠ h → t.chunks j = { s.chunks j with next := (t.chunks j).next }
  next : ∀ j, j ≠ h → (t.chunks j).next = (s.chunks j).next ∨ (t.chunks j).next = some h
  vacant : ∀ j, j ≠ h → ¬s.Registered j → t.chunks j = s.chunks j
  tiled : Tiled t.block t.handles t.regionManager.span

namespace Grown

variable (hg : Grown s t h p n) {j : ChunkHandle}
include hg

theorem other (hj : j ≠ h) : (t.chunks j).size = (s.chunks j).size ∧
    (t.chunks j).ptr = (s.chunks j).ptr ∧ (t.chunks j).inUse = (s.chunks j).inUse ∧
    (t.chunks j).binNum = (s.chunks j).binNum := by
  rw [hg.rest j hj]
  exact ⟨rfl, rfl, rfl, rfl⟩

theorem registered : t.Registered h := by
  rw [Registered, hg.ptr]
  exact hg.handles_new

theorem registered_other (hs : s.Mapped) (hj : j ≠ h) :
    t.Registered j ↔ s.Registered j := by
  rw [Registered, (hg.other hj).2.1]
  by_cases hp : (s.chunks j).ptr = p
  · rw [Registered, hp, hg.handles_new]
    constructor
    · intro heq
      exact absurd (Option.some.inj heq).symm hj
    · intro heq
      exact absurd (hs.owns heq) hg.not_owned
  · rw [hg.handles_rest _ hp]
    rfl

theorem handles_cases (hc : t.handles a = some j) :
    (a = p ∧ j = h) ∨ s.handles a = some j := by
  by_cases hp : a = p
  · subst hp
    rw [hg.handles_new] at hc
    exact .inl ⟨rfl, (Option.some.inj hc).symm⟩
  · rw [hg.handles_rest a hp] at hc
    exact .inr hc

theorem reuses (hs : s.Mapped) : Reuses (· = h) s t where
  numChunks := hg.numChunks.ge
  bins := hg.bins
  idle _ hj := hj ▸ ⟨hg.fresh.vacant.not_inUse, hg.not_inUse⟩
  other _ := hg.other
  registered _ := hg.registered_other hs

theorem keepsStanding : KeepsStanding s t := by
  intro j hj
  refine ⟨hg.numChunks ▸ hj.valid, (hg.owns_iff _).mpr ?_, ?_⟩
  all_goals by_cases hjh : j = h
  · rw [hjh, hg.ptr]
    exact .inr ⟨le_rfl, Nat.lt_add_of_pos_right hg.pos⟩
  · rw [(hg.other hjh).2.1]
    exact .inl hj.owns
  · rw [hjh, hg.ptr]
    exact hg.aligned
  · rw [(hg.other hjh).2.1]
    exact hj.aligned

theorem mapped (hs : s.Mapped) : t.Mapped where
  regions := hg.regions
  tiled := hg.tiled
  aligned := by
    intro a j hc
    rcases hg.handles_cases hc with ⟨rfl, -⟩ | hc
    · exact hg.aligned
    · exact hs.aligned hc
  valid := by
    intro a j hc
    rw [hg.numChunks]
    rcases hg.handles_cases hc with ⟨-, rfl⟩ | hc
    · exact hg.fresh.vacant.valid
    · exact hs.valid hc
  inUse_registered := (hg.reuses hs).inUse_registered hs

theorem binned (hs : s.Mapped) (hb : s.Binned []) : t.Binned [h] := by
  have hr := hg.reuses hs
  refine hb.frame hr.bins ?_ hr.other hr.registered (fun j hj => ?_) ?_
  · rintro b j hj rfl
    exact hg.fresh.vacant.not_mem_bins hb b hj
  · simpa using hj
  · rintro j rfl
    exact ⟨hg.binNum, fun _ _ => mem_cons_self⟩

theorem tidy (hs : s.Mapped) (ht : s.Tidy []) : t.Tidy [h] where
  untimed j hj := by
    by_cases hjh : j = h
    · rw [hjh]
      exact hg.freedAtCount
    · rw [hg.rest j hjh]
      exact ht.untimed j ((hg.registered_other hs hjh).mp hj)
  apart i j hi hj hn hif hjf := by
    by_contra hno
    obtain ⟨hih, hjh⟩ := not_or.mp hno
    rw [mem_singleton] at hih hjh
    rcases hg.next i hih with hsame | hnew
    · rw [hsame] at hn
      rw [(hg.other hih).2.2.1] at hif
      rw [(hg.other hjh).2.2.1] at hjf
      simpa using ht.apart i j ((hg.registered_other hs hih).mp hi)
        ((hg.registered_other hs hjh).mp hj) hn hif hjf
    · rw [hnew, Option.some.injEq] at hn
      exact hjh hn.symm

theorem recycled : ∃ l, t.FreeList l := by
  obtain ⟨l, hl, hhl⟩ := hg.fresh.off_list
  have hne : ∀ j ∈ l, j ≠ h := by
    rintro j hj rfl
    exact hhl hj
  refine ⟨l, hl.frame hg.freeChunksList hg.numChunks.symm.le (fun j hj => ?_)
    fun j hj a hc => ?_⟩
  · exact hg.vacant j (hne j hj) ((hl.vacant j hj).not_registered _)
  · rcases hg.handles_cases hc with ⟨-, rfl⟩ | hc
    · exact hhl hj
    · exact (hl.vacant j hj).not_registered a hc

theorem inv (hs : s.Inv []) : t.Inv [h] :=
  ⟨hg.mapped hs.toMapped, hg.binned hs.toMapped hs.toBinned, hg.recycled⟩

end Grown

/-! ## `Extend` on the heap -/

theorem allocateChunk_regionManager (m : RegionManager) :
    { s with regionManager := m }.allocateChunk =
      s.allocateChunk >>= fun r => .ok (r.1, { r.2 with regionManager := m }) := by
  rw [allocateChunk, allocateChunk]
  cases s.freeChunksList with
  | none => rfl
  | some h =>
    rw [bind_assoc]
    rfl

theorem lastChunk_eq {fuel : Nat} (hw : Walk (fun j => (s.chunks j).next) (some h) l)
    (hv : ∀ j ∈ l, j < s.numChunks) (hf : l.length ≤ fuel) :
    ∃ q, s.lastChunk fuel h = .ok q ∧ l.getLast? = some q := by
  induction l generalizing h fuel with
  | nil => cases hw
  | cons x t ih =>
    obtain ⟨hx, hw⟩ := hw
    obtain rfl := Option.some.inj hx
    cases fuel with
    | zero => cases hf
    | succ fuel =>
      rw [lastChunk, chunkFromHandle_eq (hv h mem_cons_self)]
      simp only [bind, Except.bind]
      cases hn : (s.chunks h).next with
      | none =>
        simp only [hn] at hw
        cases t with
        | nil => exact ⟨h, rfl, rfl⟩
        | cons => cases hw.1
      | some =>
        simp only [hn] at hw
        obtain ⟨q, hq, hlast⟩ := ih hw (fun j hj => hv j (mem_cons_of_mem h hj))
          (Nat.le_of_succ_le_succ hf)
        refine ⟨q, hq, ?_⟩
        rw [getLast?_cons, hlast]
        rfl

theorem fills_getLast {b : ChunkHandle → Block ChunkHandle} {lo hi : Nat} (hl : Fills b lo l hi)
    (hq : l.getLast? = some q) : (b q).ptr + (b q).size = hi := by
  induction l generalizing lo with
  | nil => cases hq
  | cons x t ih =>
    obtain ⟨hptr, -, ht⟩ := hl
    cases t with
    | nil =>
      obtain rfl : x = q := by simpa using hq
      rw [hptr]
      exact ht
    | cons => exact ih ht (by rwa [getLast?_cons_cons] at hq)

theorem length_le_numChunks (hnodup : l.Nodup) (hv : ∀ j ∈ l, j < s.numChunks) :
    l.length ≤ s.numChunks := by
  have hsub := subperm_of_subset hnodup fun j hj => mem_range.mpr (hv j hj)
  simpa using hsub.length_le

structure Granted (s : Heap) (p n : Nat) : Prop where
  aligned : kMinAllocationSize ∣ p
  pos : 0 < n
  bounded : p + n < wordSize
  not_owned : ∀ a, p ≤ a → a < p + n → ¬s.owns a

namespace Granted

variable (hg : s.Granted p n)
include hg

theorem apart (hs : s.Mapped) : s.regionManager.Apart p n :=
  apart_of_not_owns hs.regions hg.pos hg.not_owned

/-- Nothing is registered in the new memory, so clearing its slots changes nothing. -/
theorem clear_eq (hs : s.Mapped) : s.regionManager.clear p (p + n) = s.handles := by
  funext a
  rw [clear]
  split
  next ha =>
    cases hr : s.handles a with
    | none => rfl
    | some => exact absurd (hs.owns hr) (hg.not_owned a ha.1 ha.2)
  · rfl

end Granted

def withChunk (s : Heap) (m : RegionManager) (h : ChunkHandle) (p n : Nat) : Heap :=
  { s with
    chunks := Function.update s.chunks h
      { s.chunks h with
        ptr := p, size := n, allocationId := -1, prev := none, next := none, freedAtCount := 0 }
    regionManager := { m with handles := Function.update s.handles p (some h) } }

theorem initChunk_eq (hv : h < s.numChunks) (hm : m.WellFormed)
    (ho : m.owns p) (hp : kMinAllocationSize ∣ p) (hh : m.handles = s.handles) :
    { s with regionManager := m }.initChunk h p n = .ok (s.withChunk m h p n) := by
  rw [initChunk, chunkFromHandle_eq (by exact hv)]
  show setHandle _ _ _ = _
  rw [setHandle_eq (by exact hm) (by exact ho) hp]
  simp only [setChunk, withChunk, hh]

theorem withChunk_tiled (hs : s.Mapped) (hf : s.Fresh h)
    (hg : s.Granted p n) : Tiled (s.withChunk m h p n).block (s.withChunk m h p n).handles
      fun x y => s.regionManager.span x y ∨ (x = p ∧ y = p + n) := by
  refine Tiled.Added.tiled (?_ : Tiled.Added _ _ _ _ _ _ p (p + n) h) hs.tiled
  refine ⟨Nat.lt_add_of_pos_right hg.pos, ?_, fun x y => .rfl, hf.vacant.not_registered, ?_, ?_,
    ?_, ?_⟩
  · intro x y hxy
    obtain ⟨r, hr, rfl, rfl⟩ := hxy
    exact hg.apart hs r hr
  · simp [withChunk, block, Chunk.block]
  · intro j hj
    simp [withChunk, block, hj]
  · exact update_self ..
  · exact fun c hc => update_of_ne hc ..

theorem Granted.grown {chunks : ChunkHandle → Chunk}
    {prev : Option ChunkHandle} (hg : s.Granted p n) (hf : s.Fresh h) (hm : m.WellFormed)
    (howns : ∀ a, m.owns a ↔ s.owns a ∨ (p ≤ a ∧ a < p + n))
    (hnew : chunks h = { s.chunks h with
      ptr := p, size := n, allocationId := -1, prev := prev, next := none, freedAtCount := 0 })
    (hrest : ∀ j, j ≠ h → chunks j = s.chunks j ∨
      s.Registered j ∧ chunks j = { s.chunks j with next := some h })
    (htiled : Tiled (fun j => (chunks j).block) (s.withChunk m h p n).handles m.span) :
    Grown s { s.withChunk m h p n with chunks := chunks } h p n where
  fresh := hf
  aligned := hg.aligned
  pos := hg.pos
  not_owned := hg.not_owned p le_rfl (Nat.lt_add_of_pos_right hg.pos)
  numChunks := rfl
  freeChunksList := rfl
  bins := rfl
  regions := { hm with }
  owns_iff := howns
  handles_new := update_self ..
  handles_rest _ ha := update_of_ne ha ..
  ptr := congrArg Chunk.ptr hnew
  not_inUse := congrArg Chunk.inUse hnew
  binNum := (congrArg Chunk.binNum hnew).trans hf.vacant.binNum
  freedAtCount := congrArg Chunk.freedAtCount hnew
  rest j hj := by
    dsimp only
    rcases hrest j hj with heq | ⟨-, heq⟩
    all_goals rw [heq]
  next j hj := (hrest j hj).imp (congrArg Chunk.next) fun hreg => congrArg Chunk.next hreg.2
  vacant j hj hno := (hrest j hj).resolve_right fun hreg => hno hreg.1
  tiled := htiled

theorem withChunk_grown (hs : s.Mapped) (hf : s.Fresh h) (hg : s.Granted p n) :
    Grown s (s.withChunk (s.regionManager.addAllocationRegion p n) h p n) h p n := by
  refine hg.grown hf (hs.regions.add (hg.apart hs) hg.pos hg.aligned hg.bounded)
    (fun _ => owns_add) (update_self ..) (fun j hj => .inl (update_of_ne hj ..)) ?_
  have hspan : (s.regionManager.addAllocationRegion p n).span =
      fun x y => s.regionManager.span x y ∨ (x = p ∧ y = p + n) := by
    funext x y
    exact propext span_add
  rw [hspan]
  exact withChunk_tiled hs hf hg

def linkBehind (s : Heap) (q h : ChunkHandle) : Heap :=
  (s.setChunk h { s.chunks h with prev := some q }).setChunk q { s.chunks q with next := some h }

theorem linkToRegion_eq (hs : s.Mapped)
    (hf : s.Fresh h) (he : RegionManager.Extended s.regionManager m r p n) :
    ∃ q, EndsAt s.block s.handles q p ∧
      (s.withChunk m h p n).linkToRegion (r.extend n) h =
        .ok ((s.withChunk m h p n).linkBehind q h) := by
  have hspan : s.regionManager.span r.ptr p := ⟨r, he.mem, rfl, he.end_eq⟩
  have hlt := hs.tiled.spans.pos hspan
  obtain ⟨first, hfirst⟩ := hs.tiled.base hspan
  obtain ⟨l, hwalk, hfills, hnodup, hmem⟩ := hs.tiled.exists_chain hspan
  have hreg : ∀ j ∈ l, s.Registered j := by
    intro j hj
    obtain ⟨d, -, -, hd⟩ := (hmem j).mp hj
    exact hs.registered hd
  have hne : ∀ j ∈ l, j ≠ h := by
    intro j hj hjh
    exact hf.vacant.not_registered _ (hjh ▸ hreg j hj)
  have hvalid : ∀ j ∈ l, j < s.numChunks := fun j hj => hs.valid (hreg j hj)
  rw [hfirst] at hwalk
  have hwalk' : Walk (fun j => ((s.withChunk m h p n).chunks j).next) (some first) l :=
    hwalk.congr fun j hj => by simp [withChunk, hne j hj, block, Chunk.block]
  obtain ⟨q, hq, hlast⟩ := lastChunk_eq hwalk' hvalid (length_le_numChunks hnodup hvalid)
  have hql := mem_of_getLast? hlast
  refine ⟨q, ⟨hreg q hql, fills_getLast hfills hlast⟩, ?_⟩
  have hhandle : (s.withChunk m h p n).regionManager.handles (r.extend n).ptr = some first := by
    show update s.handles p (some h) r.ptr = _
    rw [update_of_ne hlt.ne]
    exact hfirst
  rw [linkToRegion, slotFor_eq (by exact hs.regions.aligned r he.mem)
    (by exact hs.regions.aligned r he.mem) le_rfl]
  simp only [bind, Except.bind]
  rw [hhandle]
  show (lastChunk _ s.numChunks _ >>= _) = _
  rw [hq]
  rw [chunkFromHandle_eq (by exact hf.vacant.valid)]
  show (chunkFromHandle _ _ >>= _) = _
  rw [chunkFromHandle_eq (by exact hvalid q hql)]
  show Except.ok _ = _
  congr 2
  simp [setChunk, hne q hql]

theorem linkBehind_grown (hs : s.Mapped)
    (hf : s.Fresh h) (hg : s.Granted p n) (he : RegionManager.Extended s.regionManager m r p n)
    (hq : EndsAt s.block s.handles q p) :
    Grown s ((s.withChunk m h p n).linkBehind q h) h p n := by
  have hqr : s.Registered q := hq.1
  have hqh : q ≠ h := by
    intro hqh
    exact hf.vacant.not_registered _ (hqh ▸ hqr)
  let s1 := s.withChunk m h p n
  let t := s1.linkBehind q h
  have hh : t.chunks h =
      { s.chunks h with
        ptr := p, size := n, allocationId := -1, prev := some q, next := none
        freedAtCount := 0 } := by
    simp [t, s1, linkBehind, withChunk, setChunk, hqh.symm]
  have hqc : t.chunks q = { s.chunks q with next := some h } := by
    simp [t, s1, linkBehind, withChunk, setChunk, hqh]
  have hrest : ∀ j, j ≠ h → j ≠ q → t.chunks j = s.chunks j := by
    intro j hjh hjq
    simp [t, s1, linkBehind, withChunk, setChunk, hjh, hjq]
  have hqp : (s.chunks q).ptr ≠ p := by
    intro hp
    have ho := hs.owns hqr
    rw [hp] at ho
    exact hg.not_owned p le_rfl (Nat.lt_add_of_pos_right hg.pos) ho
  refine hg.grown hf he.wellFormed (fun _ => he.owns_iff) hh (fun j hj => ?_) ?_
  · by_cases hjq : j = q
    · rw [hjq]
      exact .inr ⟨hqr, hqc⟩
    · exact .inl (hrest j hj hjq)
  · refine Tiled.Glued.tiled (?_ : Tiled.Glued s1.block t.block s1.handles _ _ r.ptr p (p + n) q h)
      (withChunk_tiled hs hf hg)
    refine ⟨.inl ⟨r, he.mem, rfl, he.end_eq⟩, .inr ⟨rfl, rfl⟩,
      he.span_iff hs.regions (hg.apart hs) hg.pos, ⟨?_, ?_⟩, update_self .., ?_, ?_, ?_⟩
    · show update s.handles p (some h) (s1.chunks q).ptr = _
      have hptr : (s1.chunks q).ptr = (s.chunks q).ptr := by
        simp [s1, withChunk, hqh]
      rw [hptr, update_of_ne hqp]
      exact hqr
    · simpa [block, Chunk.block, s1, withChunk, hqh] using hq.2
    · rw [block, hqc]
      simp [block, Chunk.block, s1, withChunk, hqh]
    · rw [block, hh]
      simp [block, Chunk.block, s1, withChunk]
    · intro j hjq hjh
      rw [block, hrest j hjh hjq]
      simp [block, s1, withChunk, hjh]

theorem added_cases (hs : s.Mapped) (hg : s.Granted p n) (coalesceRegions : Bool) :
    let added := if coalesceRegions then s.regionManager.addOrExtendAllocationRegion p n
      else (none, s.regionManager.addAllocationRegion p n)
    added = (none, s.regionManager.addAllocationRegion p n) ∨
      ∃ r m, added = (some (r.extend n), m) ∧
        RegionManager.Extended s.regionManager m r p n := by
  cases coalesceRegions with
  | false => exact .inl rfl
  | true => exact addOrExtend_cases hs.regions (hg.apart hs) hg.pos hg.bounded

theorem addMemory_spec (hs : s.Inv []) (hg : s.Granted p n) (coalesceRegions : Bool) :
    Returns (fun t => t.Inv [] ∧ KeepsUse s t ∧ KeepsStanding s t ∧ (s.Tidy [] → t.Tidy []) ∧
      ∀ a, t.owns a ↔ s.owns a ∨ (p ≤ a ∧ a < p + n)) (s.addMemory coalesceRegions p n) := by
  rw [addMemory]
  simp only [allocateChunk_regionManager, bind_assoc]
  refine (allocateChunk_spec hs).bind ?_
  intro ⟨h, s1⟩ hpost
  obtain ⟨hs1, hf, halloc⟩ : s1.Inv [] ∧ s1.Fresh h ∧ Allocated s s1 h := hpost
  have hkeep := (halloc.reuses hs.toMapped hf.vacant.not_inUse).keepsUse
  have hg1 : s1.Granted p n := { hg with not_owned := halloc.owns_eq ▸ hg.not_owned }
  have hnew : p ≤ p ∧ p < p + n := ⟨le_rfl, Nat.lt_add_of_pos_right hg.pos⟩
  -- what is left once the chunk is part of the heap
  have hsettle : ∀ t, Grown s1 t h p n → Returns (fun t => t.Inv [] ∧ KeepsUse s t ∧
      KeepsStanding s t ∧ (s.Tidy [] → t.Tidy []) ∧ ∀ a, t.owns a ↔ s.owns a ∨ (p ≤ a ∧ a < p + n))
      (t.coalesceIntoBin h false >>= fun r => .ok r.2) := by
    intro t ht
    refine (coalesceIntoBin_spec (ht.inv hs1) ht.registered ht.not_inUse).bind fun r hr => ?_
    refine ⟨hr.1.inv, hkeep.trans ((ht.reuses hs1.toMapped).keepsUse.trans hr.1.keepsUse),
      halloc.keepsStanding.trans (ht.keepsStanding.trans hr.1.keepsStanding),
      fun hs' => hr.2.2 (ht.tidy hs1.toMapped (halloc.tidy hs')), fun a => ?_⟩
    rw [hr.1.owns_eq, ← halloc.owns_eq]
    exact ht.owns_iff a
  have hrm := halloc.regionManager
  rw [← hrm]
  rcases added_cases hs1.toMapped hg1 coalesceRegions with hadd | ⟨r, m, hadd, he⟩
  · rw [hadd]
    show Returns _ (initChunk _ h p n >>= _)
    rw [initChunk_eq hf.vacant.valid (hs1.regions.add (hg1.apart hs1.toMapped) hg.pos hg.aligned
      hg.bounded) (owns_add.mpr (.inr hnew)) hg.aligned (hg1.clear_eq hs1.toMapped)]
    exact hsettle _ (withChunk_grown hs1.toMapped hf hg1)
  · rw [hadd]
    obtain ⟨q, hq, hlink⟩ := linkToRegion_eq hs1.toMapped hf he
    show Returns _ (initChunk _ h p n >>= _)
    rw [initChunk_eq hf.vacant.valid he.wellFormed (he.owns_iff.mpr (.inr hnew)) hg.aligned
      (he.handles.trans (hg1.clear_eq hs1.toMapped))]
    show Returns _ (linkToRegion _ _ h >>= _)
    rw [hlink]
    exact hsettle _ (linkBehind_grown hs1.toMapped hf hg1 he hq)

end Heap
end TfReading.Bfc
