import TfReading.Bfc.Runs

/-!
# The growth of the pool

How much `Extend` asks for is doubled from region to region.  While the sub-allocator lends no
more than it is asked for and no region is handed back, the doubling stays in range: the pool is
full before it can wrap around.
-/

namespace TfReading.Bfc

open Outcome

def SubAllocator.Exact (sub : SubAllocator) : Prop :=
  ∀ {a alignment numBytes p n a'}, sub.alloc a alignment numBytes = (some (p, n), a') → n = numBytes

namespace State

variable {sub : SubAllocator} {cfg : Config} {s s' : State sub} {bytes curr n units : Nat}

/-- The counters of `Extend` are in range.  A request that exceeds what is available fills the
pool, and only one request is backed down from, so that no more than two doublings go beyond what
the pool can hold. -/
structure InRange (cfg : Config) (s : State sub) : Prop where
  total_le : s.totalRegionAllocatedBytes ≤ cfg.memoryLimit
  curr_pos : 0 < cfg.memoryLimit → 0 < s.currRegionAllocationBytes
  curr_le : s.currRegionAllocationBytes ≤ 8 * cfg.memoryLimit + 2044
  open_le : 256 ≤ availableBytes cfg s → s.currRegionAllocationBytes ≤ 4 * cfg.memoryLimit + 1022
  fresh_le : s.startedBackpedal = false → 256 ≤ availableBytes cfg s →
    s.currRegionAllocationBytes ≤ 2 * cfg.memoryLimit + 511

abbrev KeepsRange (cfg : Config) {α : Type} (x : Except Fault (α × State sub)) : Prop :=
  Sat (fun _ => True) (fun r => InRange cfg r.2) x

theorem InRange.of_same (h : InRange cfg s)
    (htotal : s'.totalRegionAllocatedBytes = s.totalRegionAllocatedBytes)
    (hcurr : s'.currRegionAllocationBytes = s.currRegionAllocationBytes)
    (hstarted : s'.startedBackpedal = s.startedBackpedal) : InRange cfg s' := by
  obtain ⟨_, _, _, total, curr, started, _, _, _⟩ := s'
  cases htotal
  cases hcurr
  cases hstarted
  exact { h with }

theorem availableBytes_eq (hlimit : cfg.memoryLimit < 2 ^ 60)
    (htotal : s.totalRegionAllocatedBytes ≤ cfg.memoryLimit) :
    availableBytes cfg s = (cfg.memoryLimit - s.totalRegionAllocatedBytes) / 256 * 256 := by
  have hk : kMinAllocationSize = 256 := rfl
  have hw : wordSize = 2 ^ 64 := rfl
  rw [availableBytes, hk, hw]
  omega

/-- `Extend` has lent `m` bytes and asks for more next time.  `2 * curr` is reached only where the
pool is full now, or where it has backed down. -/
theorem InRange.advance (h : InRange cfg s) (hlimit : cfg.memoryLimit < 2 ^ 60) {m : Nat}
    (htotal : s'.totalRegionAllocatedBytes = s.totalRegionAllocatedBytes + m)
    (hm : m ≤ availableBytes cfg s) (hopen : 256 ≤ availableBytes cfg s)
    (hpos : 0 < s'.currRegionAllocationBytes)
    (hstarted : s'.startedBackpedal = false → s.startedBackpedal = false)
    (hcurr : s'.currRegionAllocationBytes ≤
        max s.currRegionAllocationBytes (2 * cfg.memoryLimit) ∨
      s'.currRegionAllocationBytes = s.currRegionAllocationBytes * 2 ∧
        (m = min s.currRegionAllocationBytes (availableBytes cfg s) ∨
          s.startedBackpedal = false ∧ s'.startedBackpedal = true)) : InRange cfg s' := by
  have havail := availableBytes_eq hlimit h.total_le
  have htotal_le : s'.totalRegionAllocatedBytes ≤ cfg.memoryLimit := by omega
  have havail' := availableBytes_eq hlimit htotal_le
  have hbound := h.open_le hopen
  refine ⟨htotal_le, fun _ => hpos, ?_, fun hopen' => ?_, fun hfresh hopen' => ?_⟩
  · omega
  · rcases hcurr with hle | ⟨heq, hfull | ⟨hfresh, -⟩⟩
    · omega
    · omega
    · have := h.fresh_le hfresh hopen
      omega
  · have := h.fresh_le (hstarted hfresh) hopen
    rcases hcurr with hle | ⟨heq, hfull | ⟨-, hback⟩⟩
    · omega
    · omega
    · rw [hfresh] at hback
      cases hback

/-! ## `Extend` -/

theorem double_of_lt (h : curr * 2 < 2 ^ 64) : curr * 2 % wordSize = curr * 2 :=
  Nat.mod_eq_of_lt h

theorem growAllocation_le {bound : Nat} (hn : 2 * n ≤ bound) (hbound : bound < 2 ^ 64)
    (rounds : Nat) (hpos : 0 < curr) (hcurr : curr ≤ bound) :
    Sat (fun _ => True) (fun c => 0 < c ∧ c ≤ bound ∧ (n ≤ curr → c = curr))
      (growAllocation n rounds curr) := by
  induction rounds generalizing curr with
  | zero => trivial
  | succ rounds ih =>
    rw [growAllocation]
    split
    next hlt =>
      rw [double_of_lt (by omega)]
      exact (ih (by omega) (by omega)).imp (fun _ => id) fun c hc =>
        ⟨hc.1, hc.2.1, fun hle => absurd hle (not_le.mpr hlt)⟩
    next => exact ⟨hpos, hcurr, fun _ => rfl⟩

/-- From a positive value, 64 doublings reach every size. -/
theorem exists_growAllocation {rounds : Nat} (hreach : n ≤ curr * 2 ^ rounds)
    (hn : 2 * n < 2 ^ 64) : ∃ c, growAllocation n (rounds + 1) curr = .ok c := by
  induction rounds generalizing curr with
  | zero =>
    rw [growAllocation, if_neg (by omega)]
    exact ⟨_, rfl⟩
  | succ rounds ih =>
    rw [growAllocation]
    split
    · rw [double_of_lt (by omega)]
      apply ih
      rw [Nat.mul_assoc, ← Nat.pow_succ']
      exact hreach
    · exact ⟨_, rfl⟩

theorem toFloat_le (n : Nat) : toFloat n ≤ n + n / 2 ^ 23 := by
  rw [toFloat]
  by_cases hn : Nat.log2 n ≤ 23
  · simp [Nat.sub_eq_zero_of_le hn, Nat.mod_one]
  · have hpow : 2 ^ (Nat.log2 n - 23) * 2 ^ 23 ≤ n := by
      rw [← Nat.pow_add, Nat.sub_add_cancel (by omega)]
      exact Nat.log2_self_le (by rintro rfl; simp at hn)
    generalize 2 ^ (Nat.log2 n - 23) = ulp at hpow
    have hdiv := Nat.div_mul_le_self n ulp
    split
    · rw [Nat.add_mul]
      omega
    · omega

theorem backpedalBytes_le (h : bytes ≤ units * 256) (hlt : units < 2 ^ 55) :
    backpedalBytes bytes ≤ units * 256 := by
  have h1 := toFloat_le bytes
  have h2 := toFloat_le (toFloat bytes * 15099494)
  have hk : kMinAllocationSize = 256 := rfl
  have hw : wordSize = 2 ^ 64 := rfl
  rw [backpedalBytes, roundedBytes, hk, hw]
  omega

theorem backpedal_le (hexact : sub.Exact) (hlt : units < 2 ^ 55)
    (alignment rounds : Nat) (h : bytes ≤ units * 256) (a : sub.State) :
    Sat (fun _ => True) (fun r => ∀ p m, r.1 = some (p, m) → m ≤ units * 256)
      (backpedal alignment n rounds bytes a) := by
  induction rounds generalizing bytes a with
  | zero => trivial
  | succ rounds ih =>
    have hle := backpedalBytes_le h hlt
    rw [backpedal]
    split
    · simp [Sat]
    · split
      next halloc =>
        intro p m hm
        cases hm
        rw [hexact halloc]
        exact hle
      next => exact ih hle _

/-- What is lent is available, and it is less than asked for only once. -/
theorem requestMemory_le (hexact : sub.Exact) (hlt : units < 2 ^ 55)
    (alignment rounds : Nat) (h : bytes ≤ units * 256) :
    Sat (fun _ => True) (fun r => ∃ b a,
        r.2 = { s with startedBackpedal := b, subAllocator := a } ∧
        (b = false → s.startedBackpedal = false) ∧
        ∀ p m, r.1 = some (p, m) → m ≤ units * 256 ∧
          (m = bytes ∨ s.startedBackpedal = false ∧ b = true))
      (s.requestMemory alignment n bytes rounds) := by
  rw [requestMemory]
  split
  next a halloc =>
    refine ⟨_, a, rfl, id, fun p m hm => ?_⟩
    cases hm
    obtain rfl := hexact halloc
    exact ⟨h, .inl rfl⟩
  next a _ =>
    cases s.startedBackpedal with
    | true => exact ⟨true, a, rfl, id, by simp⟩
    | false =>
      refine (backpedal_le hexact hlt alignment rounds h a).bind fun r hr => ?_
      exact ⟨true, r.2, rfl, by simp, fun p m hm => ⟨hr p m hm, .inr ⟨rfl, rfl⟩⟩⟩

theorem InRange.extend (h : InRange cfg s) (hexact : sub.Exact) (hlimit : cfg.memoryLimit < 2 ^ 60)
    (hn : 256 ≤ n) (alignment rounds : Nat) :
    KeepsRange cfg (s.extend cfg alignment n rounds) := by
  have havail := availableBytes_eq hlimit h.total_le
  rw [State.extend]
  split
  · exact h
  next hroom =>
    have hopen : 256 ≤ availableBytes cfg s := by omega
    have hbound := h.open_le hopen
    have hpos := h.curr_pos (by omega)
    have hmax : max s.currRegionAllocationBytes (2 * cfg.memoryLimit) < 2 ^ 64 := by omega
    refine (growAllocation_le (by omega) hmax rounds hpos (Nat.le_max_left _ _)).bind
      fun c hc => ?_
    obtain ⟨hcpos, hcle, hsame⟩ := hc
    have hunits : availableBytes cfg s / 256 < 2 ^ 55 := by omega
    refine (requestMemory_le hexact hunits alignment rounds (by omega)).bind fun r hr => ?_
    obtain ⟨memory, s1⟩ := r
    obtain ⟨b, a, hs1, hb, hlent⟩ := hr
    subst hs1
    cases memory with
    | none => exact h.advance hlimit rfl (Nat.zero_le _) hopen hcpos hb (.inl hcle)
    | some pm =>
      obtain ⟨hm, hless⟩ := hlent _ _ rfl
      have hnext : ∀ next, next = (if decide (s.currRegionAllocationBytes < n) then c
          else c * 2 % wordSize) → 0 < next ∧
          (next ≤ max s.currRegionAllocationBytes (2 * cfg.memoryLimit) ∨
            c = s.currRegionAllocationBytes ∧ next = s.currRegionAllocationBytes * 2) := by
        rintro _ rfl
        split
        · exact ⟨hcpos, .inl hcle⟩
        next hge =>
          rw [decide_eq_true_eq, not_lt] at hge
          rw [hsame hge, double_of_lt (by omega)]
          exact ⟨by omega, .inr ⟨rfl, rfl⟩⟩
      refine (Sat.any _).bind fun t _ => h.advance hlimit (Nat.mod_eq_of_lt ?_) (by omega) hopen
        (hnext _ rfl).1 hb ((hnext _ rfl).2.imp_right fun hc => ?_)
      · show s.totalRegionAllocatedBytes + pm.2 < 2 ^ 64
        omega
      · exact ⟨hc.2, hc.1 ▸ hless⟩

/-! ## The other parts of a call -/

theorem InRange.orElse {r : Option Nat × State sub}
    {f : State sub → Except Fault (Option Nat × State sub)} (h : InRange cfg r.2)
    (hf : ∀ s, InRange cfg s → KeepsRange cfg (f s)) :
    KeepsRange cfg (orElse r f) := by
  obtain ⟨p, s⟩ := r
  cases p with
  | none => exact hf s h
  | some => exact h

theorem InRange.tryFind (h : InRange cfg s) (q : Request) :
    KeepsRange cfg (s.tryFind cfg q) := by
  rw [State.tryFind, findChunkPtr]
  split
  · exact h
  · exact (Sat.any _).bind fun _ _ => (Sat.any _).bind fun _ _ => (Sat.any _).bind fun _ _ =>
      (Sat.any _).bind fun _ _ => h.of_same rfl rfl rfl

theorem InRange.findIf (h : InRange cfg s) (b : Bool) (q : Request) :
    KeepsRange cfg (if b then s.tryFind cfg q else .ok (none, s)) := by
  cases b with
  | false => exact h
  | true => exact h.tryFind q

theorem InRange.merge (h : InRange cfg s) (requiredBytes : Nat) :
    KeepsRange cfg (s.mergeTimestampedChunks requiredBytes) :=
  (Sat.any _).bind fun _ _ => (Sat.any _).bind fun _ _ => h.of_same rfl rfl rfl

theorem InRange.allocateRaw (h : InRange cfg s) (hexact : sub.Exact)
    (hgc : cfg.garbageCollection = false) (hlimit : cfg.memoryLimit < 2 ^ 60) {q : Request}
    (hq : q.Sized) :
    KeepsRange cfg (s.allocateRawInternal cfg q) := by
  have hunit : 256 ≤ roundedBytes q.numBytes :=
    Nat.le_of_dvd (roundedBytes_pos hq.1 hq.2) (roundedBytes_dvd _)
  have hextend : ∀ s : State sub, InRange cfg s →
      KeepsRange cfg (extendAndFind cfg q s) := by
    intro s h
    exact (h.extend hexact hlimit hunit _ _).bind fun ⟨b, s1⟩ hr => hr.findIf b q
  have hmerge : ∀ s : State sub, InRange cfg s →
      KeepsRange cfg (mergeAndFind cfg q s) := by
    intro s h
    rw [mergeAndFind]
    split
    · exact (h.merge _).bind fun ⟨b, s1⟩ hr => hr.findIf b q
    · exact h
  have hsafe : Sat (fun _ => True) (InRange cfg) s.mergeSafeChunks := by
    rw [mergeSafeChunks]
    split
    · exact h
    · exact (h.merge 0).bind fun _ hr => hr
  rw [allocateRawInternal]
  split
  · exact h
  · refine ((hsafe.bind fun s1 h1 => (h1.tryFind q).bind fun r hr => hr.orElse hextend).bind
      fun r hr => hr.orElse hmerge).bind fun r hr => hr.orElse fun s h => ?_
    rw [collectAndFind, deallocateFreeRegions, hgc]
    exact h

theorem InRange.deallocateRaw (h : InRange cfg s) (ptr count : Nat) :
    Sat (fun _ => True) (InRange cfg) (s.deallocateRawInternal cfg ptr count) := by
  rw [deallocateRawInternal]
  split
  · exact h
  · refine (Sat.any _).bind fun k _ => ?_
    cases k with
    | none => trivial
    | some k =>
      have hmark : Sat (fun _ => True) (InRange cfg) (s.markFree cfg k count) :=
        (Sat.any _).bind fun _ _ => (Sat.any _).bind fun _ _ => h.of_same rfl rfl rfl
      refine hmark.bind fun s1 h1 => ?_
      split
      · exact (Sat.any _).bind fun _ _ => h1.of_same rfl rfl rfl
      · exact (Sat.any _).bind fun _ _ => h1.of_same rfl rfl rfl

theorem initial_inRange (hlimit : cfg.memoryLimit < 2 ^ 60) : InRange cfg (initial sub cfg) := by
  have hcurr : (initial sub cfg).currRegionAllocationBytes ≤ cfg.memoryLimit + 255 ∧
      (0 < cfg.memoryLimit → 0 < (initial sub cfg).currRegionAllocationBytes) := by
    have hk : kMinAllocationSize = 256 := rfl
    have hw : wordSize = 2 ^ 64 := rfl
    simp only [initial, roundedBytes, hk, hw]
    split
    · omega
    · omega
  exact ⟨Nat.zero_le _, hcurr.2, by omega, fun _ => by omega, fun _ _ => by omega⟩

end State

namespace Session

open State

variable {sub : SubAllocator} {cfg : Config} {r : Session sub}

/-- The pool stays within its limit, and the loop that doubles the next request ends, in every
state of a run over an exact sub-allocator without garbage collection. -/
theorem growth_in_range (hexact : sub.Exact) (hgc : cfg.garbageCollection = false)
    (hlimit : cfg.memoryLimit < 2 ^ 60) (hr : (runs sub cfg).Reachable r) :
    r.state.totalRegionAllocatedBytes ≤ cfg.memoryLimit ∧
      (0 < cfg.memoryLimit → 0 < r.state.currRegionAllocationBytes) ∧
      ∀ n ≤ availableBytes cfg r.state,
        ∃ c, growAllocation n 64 r.state.currRegionAllocationBytes = .ok c := by
  have h : InRange cfg r.state := by
    refine hr.invariant (P := fun r => InRange cfg r.state) (fun r hr => ?_)
      (fun r c r' h hstep => ?_)
    · rw [hr]
      exact initial_inRange hlimit
    · have hkept : Sat (fun _ => True) (fun r => InRange cfg r.state) (r.call cfg c) := by
        cases c with
        | allocateRaw q => exact (h.allocateRaw hexact hgc hlimit hstep.1).bind fun _ hs => hs
        | deallocateRaw ptr count => exact (h.deallocateRaw ptr count).bind fun _ hs => hs
        | setSafeFrontier => exact h.of_same rfl rfl rfl
      exact hkept.of_ok hstep.2
  refine ⟨h.total_le, h.curr_pos, fun n hn => exists_growAllocation ?_ ?_⟩
  · have havail := availableBytes_eq hlimit h.total_le
    have hpos := h.curr_pos
    omega
  · have havail := availableBytes_eq hlimit h.total_le
    omega

end Session

def SubAllocator.exactly (sub : SubAllocator) : SubAllocator where
  __ := sub
  alloc a alignment numBytes :=
    let r := sub.alloc a alignment numBytes
    if r.1.all fun x => x.2 = numBytes then r else (none, a)
  alloc_some := by
    intro a alignment numBytes p n a' h
    dsimp only at h
    split at h
    · exact sub.alloc_some h
    · cases h
  alloc_none := by
    intro a alignment numBytes a' h
    dsimp only at h
    split at h
    · exact sub.alloc_none h
    · cases h
      exact fun _ => Iff.rfl

theorem SubAllocator.exactly_exact (sub : SubAllocator) : sub.exactly.Exact := by
  intro a alignment numBytes p n a' h
  dsimp only [exactly] at h
  split at h
  next hall =>
    rw [h] at hall
    exact of_decide_eq_true hall
  next => cases h

namespace Session

def wholePool : Config where
  memoryLimit := 4096
  allowGrowth := false
  garbageCollection := false
  timingCounter := false

theorem growth_in_range_oneSlot :
    ∃ r : Session oneSlot.exactly, (runs oneSlot.exactly wholePool).Reachable r ∧
      r.state.totalRegionAllocatedBytes = 4096 ∧ 0 < r.state.currRegionAllocationBytes := by
  obtain ⟨r, hr, hp⟩ := exists_reachable oneSlot.exactly wholePool [.allocateRaw ⟨64, 100, 0, 4⟩]
    (fun r => decide (r.state.totalRegionAllocatedBytes = 4096)) (by decide +kernel)
  exact ⟨r, hr, of_decide_eq_true hp,
    (growth_in_range oneSlot.exactly_exact rfl (by decide) hr).2.1 (by decide)⟩

/-- A region of 4096 bytes is lent to a pool of 256 bytes. -/
theorem limit_exceeded :
    ∃ r : Session oneSlot, (runs oneSlot { wholePool with memoryLimit := 256 }).Reachable r ∧
      ¬r.state.totalRegionAllocatedBytes ≤ 256 := by
  obtain ⟨r, hr, hp⟩ := exists_reachable oneSlot { wholePool with memoryLimit := 256 }
    [.allocateRaw ⟨64, 100, 0, 4⟩]
    (fun r => decide (¬r.state.totalRegionAllocatedBytes ≤ 256)) (by decide +kernel)
  exact ⟨r, hr, of_decide_eq_true hp⟩

end Session
end TfReading.Bfc
