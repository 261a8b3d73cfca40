import Mathlib.Tactic.ByContra

/-!
# Linked blocks that tile a set of intervals

Memory is a set of disjoint intervals `R lo hi`.  Every interval is cut into blocks,
the blocks of one interval form a doubly linked list in the order of their addresses,
and a partial map `reg` sends exactly the start addresses of blocks to their names.

`Tiled` states this one address at a time, so that cutting a block in two and joining two
neighbours change it at a few addresses only.
-/

namespace TfReading.Tiling

structure Block (ι : Type*) where
  ptr : Nat
  size : Nat
  prev : Option ι
  next : Option ι

/-- The intervals are nonempty and do not overlap. -/
structure Spans (R : Nat → Nat → Prop) : Prop where
  pos : ∀ {lo hi}, R lo hi → lo < hi
  disjoint : ∀ {lo hi lo' hi'}, R lo hi → R lo' hi' → lo < hi' → lo' < hi → lo = lo' ∧ hi = hi'

def Start (R : Nat → Nat → Prop) (a : Nat) : Prop := ∃ hi, R a hi

variable {ι : Type*}

def EndsAt (b : ι → Block ι) (reg : Nat → Option ι) (p : ι) (c : Nat) : Prop :=
  reg (b p).ptr = some p ∧ (b p).ptr + (b p).size = c

structure Tiled (b : ι → Block ι) (reg : Nat → Option ι) (R : Nat → Nat → Prop) : Prop where
  spans : Spans R
  ptr_eq : ∀ {a h}, reg a = some h → (b h).ptr = a
  size_pos : ∀ {a h}, reg a = some h → 0 < (b h).size
  inside : ∀ {a h}, reg a = some h → ∃ lo hi, R lo hi ∧ lo ≤ a ∧ a + (b h).size ≤ hi
  gap : ∀ {a h c}, reg a = some h → a < c → c < a + (b h).size → reg c = none
  base : ∀ {lo hi}, R lo hi → ∃ h, reg lo = some h
  right : ∀ {a h lo hi}, reg a = some h → R lo hi → lo ≤ a → a + (b h).size < hi →
    ∃ n, reg (a + (b h).size) = some n
  next_iff : ∀ {a h n}, reg a = some h →
    ((b h).next = some n ↔ reg (a + (b h).size) = some n ∧ ¬Start R (a + (b h).size))
  prev_iff : ∀ {a h p}, reg a = some h →
    ((b h).prev = some p ↔ reg (b p).ptr = some p ∧ (b p).next = some h)

/-- What `Tiled` asks of the addresses that a block of size `s` at `a` covers, and of the
one at its end. -/
structure Tile (reg : Nat → Option ι) (R : Nat → Nat → Prop) (a s : Nat) (next : Option ι) :
    Prop where
  size_pos : 0 < s
  inside : ∃ lo hi, R lo hi ∧ lo ≤ a ∧ a + s ≤ hi
  gap : ∀ {c}, a < c → c < a + s → reg c = none
  right : ∀ {lo hi}, R lo hi → lo ≤ a → a + s < hi → ∃ n, reg (a + s) = some n
  next_iff : ∀ {n}, next = some n ↔ reg (a + s) = some n ∧ ¬Start R (a + s)

theorem Tile.congr {reg reg' : Nat → Option ι} {R : Nat → Nat → Prop} {a s : Nat}
    {next : Option ι} (t : Tile reg R a s next)
    (hreg : ∀ c, a < c → c ≤ a + s → reg' c = reg c) : Tile reg' R a s next := by
  have hs := t.size_pos
  have hend := hreg (a + s) (by omega) (Nat.le_refl _)
  refine ⟨hs, t.inside, fun h1 h2 => ?_, ?_, ?_⟩
  · rw [hreg _ h1 (Nat.le_of_lt h2)]
    exact t.gap h1 h2
  · rw [hend]
    exact t.right
  · rw [hend]
    exact t.next_iff

namespace Tiled

variable {b b' : ι → Block ι} {reg reg' : Nat → Option ι} {R : Nat → Nat → Prop}
variable {a c lo hi n : Nat} {h j k p q : ι}

theorem of_tiles (spans : Spans R)
    (tile : ∀ {a h}, reg a = some h → (b h).ptr = a ∧ Tile reg R a (b h).size (b h).next)
    (base : ∀ {lo hi}, R lo hi → ∃ h, reg lo = some h)
    (prev_iff : ∀ {a h p}, reg a = some h →
      ((b h).prev = some p ↔ reg (b p).ptr = some p ∧ (b p).next = some h)) : Tiled b reg R :=
  ⟨spans, fun hr => (tile hr).1, fun hr => (tile hr).2.size_pos, fun hr => (tile hr).2.inside,
    fun hr => (tile hr).2.gap, base, fun hr => (tile hr).2.right, fun hr => (tile hr).2.next_iff,
    prev_iff⟩

section

variable (T : Tiled b reg R)

include T

theorem tile (hr : reg a = some h) : Tile reg R a (b h).size (b h).next :=
  ⟨T.size_pos hr, T.inside hr, T.gap hr, T.right hr, T.next_iff hr⟩

theorem registered (hr : reg a = some h) : reg (b h).ptr = some h := by
  rw [T.ptr_eq hr]
  exact hr

theorem addr_unique (ha : reg a = some h) (hc : reg c = some h) : a = c :=
  (T.ptr_eq ha).symm.trans (T.ptr_eq hc)

theorem eq_of_overlap (ha : reg a = some h) (hc : reg c = some k)
    (h1 : a < c + (b k).size) (h2 : c < a + (b h).size) : a = c := by
  rcases Nat.lt_trichotomy a c with hlt | rfl | hlt
  · rw [T.gap ha hlt h2] at hc
    cases hc
  · rfl
  · rw [T.gap hc hlt h1] at ha
    cases ha

theorem endsAt_unique (hp : EndsAt b reg p c) (hq : EndsAt b reg q c) :
    p = q := by
  obtain ⟨hp, hpe⟩ := hp
  obtain ⟨hq, hqe⟩ := hq
  have hps := T.size_pos hp
  have hqs := T.size_pos hq
  have heq : (b p).ptr = (b q).ptr := T.eq_of_overlap hp hq (by omega) (by omega)
  rw [heq, hq] at hp
  exact (Option.some.inj hp).symm

theorem le_of_mem (hr : reg a = some h) (hR : R lo hi) (h1 : lo ≤ a)
    (h2 : a < hi) : a + (b h).size ≤ hi := by
  obtain ⟨lo', hi', hR', h1', h2'⟩ := T.inside hr
  have hs := T.size_pos hr
  obtain ⟨-, rfl⟩ := T.spans.disjoint hR hR' (by omega) (by omega)
  exact h2'

theorem not_start (hr : reg a = some h) (h1 : a < c)
    (h2 : c < a + (b h).size) : ¬Start R c := by
  rintro ⟨hi', hR'⟩
  obtain ⟨lo, hi, hR, hlo, hhi⟩ := T.inside hr
  have hpos := T.spans.pos hR'
  have heq := (T.spans.disjoint hR hR' (by omega) (by omega)).1
  omega

theorem next_iff_prev (ha : reg a = some h) (hc : reg c = some k) :
    (b h).next = some k ↔ (b k).prev = some h := by
  rw [T.prev_iff hc]
  exact ⟨fun hn => ⟨T.registered ha, hn⟩, And.right⟩

theorem next_ne_self (hr : reg a = some h) : (b h).next ≠ some h := by
  intro hn
  have heq := T.addr_unique ((T.next_iff hr).mp hn).1 hr
  have hs := T.size_pos hr
  omega

theorem next_inj (hp : reg a = some p) (hq : reg c = some q) (hn : (b p).next = some h)
    (hm : (b q).next = some h) : p = q := by
  have hr := ((T.next_iff hp).mp hn).1
  rw [T.next_iff_prev hp hr] at hn
  rw [T.next_iff_prev hq hr, hn] at hm
  exact Option.some.inj hm

end

/-! ## Cutting a block -/

/-- Block `h` at `a` keeps its first `n` bytes and the fresh block `k` takes the rest. -/
structure Split (b b' : ι → Block ι) (reg reg' : Nat → Option ι) (h k : ι) (a n : Nat) : Prop where
  kept : reg a = some h
  fresh : ∀ c, reg c ≠ some k
  pos : 0 < n
  lt : n < (b h).size
  left : b' h = { b h with size := n, next := some k }
  right : b' k = ⟨a + n, (b h).size - n, some h, (b h).next⟩
  neighbour : ∀ j, j ≠ h → j ≠ k → (b h).next = some j → b' j = { b j with prev := some k }
  rest : ∀ j, j ≠ h → j ≠ k → (b h).next ≠ some j → b' j = b j
  reg_new : reg' (a + n) = some k
  reg_rest : ∀ c, c ≠ a + n → reg' c = reg c

namespace Split

variable (S : Split b b' reg reg' h k a n)
include S

theorem other (hh : j ≠ h) (hk : j ≠ k) :
    (b' j).ptr = (b j).ptr ∧ (b' j).size = (b j).size ∧ (b' j).next = (b j).next := by
  by_cases hj : (b h).next = some j
  · rw [S.neighbour j hh hk hj]
    exact ⟨rfl, rfl, rfl⟩
  · rw [S.rest j hh hk hj]
    exact ⟨rfl, rfl, rfl⟩

section

variable (T : Tiled b reg R)

include T

/-- What is registered after the cut. -/
theorem cases (hc : reg' c = some j) :
    (c = a + n ∧ j = k) ∨ (c = a ∧ j = h) ∨ (c ≠ a + n ∧ c ≠ a ∧ j ≠ h ∧ j ≠ k ∧ reg c = some j) := by
  by_cases hn : c = a + n
  · subst hn
    rw [S.reg_new] at hc
    exact .inl ⟨rfl, (Option.some.inj hc).symm⟩
  · rw [S.reg_rest c hn] at hc
    by_cases ha : c = a
    · subst ha
      rw [S.kept] at hc
      exact .inr (.inl ⟨rfl, (Option.some.inj hc).symm⟩)
    · refine .inr (.inr ⟨hn, ha, ?_, ?_, hc⟩)
      · rintro rfl
        exact ha (T.addr_unique hc S.kept)
      · rintro rfl
        exact S.fresh c hc

theorem tile_left : Tile reg' R a n (some k) := by
  have hpos := S.pos
  have hlt := S.lt
  obtain ⟨lo, hi, hR, hlo, hhi⟩ := T.inside S.kept
  refine ⟨hpos, ⟨lo, hi, hR, hlo, by omega⟩, fun h1 h2 => ?_, fun _ _ _ => ⟨k, S.reg_new⟩, ?_⟩
  · rw [S.reg_rest _ (by omega)]
    exact T.gap S.kept h1 (by omega)
  · intro
    have hstart := T.not_start (c := a + n) S.kept (by omega) (by omega)
    simp only [S.reg_new, hstart, not_false_eq_true, and_true]

theorem tile_right : Tile reg' R (a + n) ((b h).size - n) (b h).next := by
  have hlt := S.lt
  have hend : a + n + ((b h).size - n) = a + (b h).size := by omega
  obtain ⟨lo, hi, hR, hlo, hhi⟩ := T.inside S.kept
  refine ⟨by omega, ⟨lo, hi, hR, by omega, by omega⟩, fun h1 h2 => ?_, ?_, ?_⟩
  · rw [S.reg_rest _ (by omega)]
    exact T.gap S.kept (by omega) (by omega)
  · intro lo hi hR hlo hhi
    rw [hend] at hhi ⊢
    rw [S.reg_rest _ (by omega)]
    -- the interval does not start between `a` and the cut
    have hla : lo ≤ a := by
      by_contra hcon
      exact T.not_start S.kept (by omega) (by omega) ⟨hi, hR⟩
    exact T.right S.kept hR hla hhi
  · rw [hend, S.reg_rest _ (by omega)]
    exact T.next_iff S.kept

theorem tile_after (hc : reg' c = some j) :
    (b' j).ptr = c ∧ Tile reg' R c (b' j).size (b' j).next := by
  rcases S.cases T hc with ⟨rfl, rfl⟩ | ⟨rfl, rfl⟩ | ⟨hcn, hca, hjh, hjk, hr⟩
  · rw [S.right]
    exact ⟨rfl, S.tile_right T⟩
  · rw [S.left]
    exact ⟨T.ptr_eq S.kept, S.tile_left T⟩
  · obtain ⟨hptr, hsize, hnext⟩ := S.other hjh hjk
    have hpos := S.pos
    have hlt := S.lt
    rw [hptr, hsize, hnext]
    refine ⟨T.ptr_eq hr, (T.tile hr).congr fun d h1 h2 => S.reg_rest d ?_⟩
    -- the cut address lies in `h`, which does not meet `j`
    rintro rfl
    exact hca (T.eq_of_overlap hr S.kept (by omega) (by omega))

theorem next_ne_fresh (hr : reg c = some p) : (b p).next ≠ some k := fun hn =>
  S.fresh _ ((T.next_iff hr).mp hn).1

theorem link_iff : (reg' (b' p).ptr = some p ∧ (b' p).next = some j) ↔
    (p = h ∧ j = k) ∨ (p = k ∧ (b h).next = some j) ∨
      (p ≠ h ∧ reg (b p).ptr = some p ∧ (b p).next = some j) := by
  have hpos := S.pos
  have hlt := S.lt
  have hhk : h ≠ k := fun heq => S.fresh a (heq ▸ S.kept)
  by_cases hph : p = h
  · subst hph
    rw [S.left]
    simp [T.ptr_eq S.kept, S.reg_rest a (by omega), S.kept, hhk, eq_comm]
  · by_cases hpk : p = k
    · subst hpk
      rw [S.right]
      simp [S.reg_new, hph, S.fresh]
    · have hreg : reg' (b p).ptr = some p ↔ reg (b p).ptr = some p := by
        by_cases heq : (b p).ptr = a + n
        · rw [heq, S.reg_new, T.gap S.kept (by omega) (by omega)]
          simp [Ne.symm hpk]
        · rw [S.reg_rest _ heq]
      rw [(S.other hph hpk).1, (S.other hph hpk).2.2, hreg]
      simp [hph, hpk]

theorem prev_after (hc : reg' c = some j) :
    (b' j).prev = some p ↔ reg' (b' p).ptr = some p ∧ (b' p).next = some j := by
  have hhk : h ≠ k := fun heq => S.fresh a (heq ▸ S.kept)
  rw [S.link_iff T]
  rcases S.cases T hc with ⟨-, rfl⟩ | ⟨-, rfl⟩ | ⟨-, -, hjh, hjk, hr⟩
  · rw [S.right]
    have hnone : ¬(reg (b p).ptr = some p ∧ (b p).next = some j) := fun hp =>
      S.next_ne_fresh T hp.1 hp.2
    simp [S.next_ne_fresh T S.kept, hnone, eq_comm]
  · rw [S.left]
    have hne : (b p).next = some j → p ≠ j := by
      rintro hn rfl
      exact T.next_ne_self S.kept hn
    simp only [T.prev_iff S.kept, T.next_ne_self S.kept, hhk, and_false, false_or]
    exact ⟨fun hp => ⟨hne hp.2, hp⟩, .right⟩
  · by_cases hn : (b h).next = some j
    · rw [S.neighbour j hjh hjk hn]
      have hnone : ¬(p ≠ h ∧ reg (b p).ptr = some p ∧ (b p).next = some j) := fun hp =>
        hp.1 (T.next_inj hp.2.1 S.kept hp.2.2 hn)
      rw [or_iff_left hnone]
      simp [hjk, hn, eq_comm]
    · rw [S.rest j hjh hjk hn, T.prev_iff hr]
      have hne : (b p).next = some j → p ≠ h := by
        rintro hp rfl
        exact hn hp
      simp only [hjk, hn, and_false, false_or]
      exact ⟨fun hp => ⟨hne hp.2, hp⟩, .right⟩

theorem tiled : Tiled b' reg' R := by
  refine of_tiles T.spans (S.tile_after T) (fun {lo hi} hR => ?_) (S.prev_after T)
  by_cases hlo : lo = a + n
  · exact ⟨k, hlo ▸ S.reg_new⟩
  · rw [S.reg_rest lo hlo]
    exact T.base hR

end

end Split

/-! ## Joining two neighbours -/

/-- Block `h` at `a` takes over its right neighbour `k`. -/
structure Join (b b' : ι → Block ι) (reg reg' : Nat → Option ι) (h k : ι) (a : Nat) : Prop where
  kept : reg a = some h
  link : (b h).next = some k
  left : b' h = { b h with size := (b h).size + (b k).size, next := (b k).next }
  neighbour : ∀ j, j ≠ h → j ≠ k → (b k).next = some j → b' j = { b j with prev := some h }
  rest : ∀ j, j ≠ h → j ≠ k → (b k).next ≠ some j → b' j = b j
  reg_gone : reg' (a + (b h).size) = none
  reg_rest : ∀ c, c ≠ a + (b h).size → reg' c = reg c

namespace Join

variable (J : Join b b' reg reg' h k a)
include J

theorem gone (T : Tiled b reg R) : reg (a + (b h).size) = some k :=
  ((T.next_iff J.kept).mp J.link).1

theorem not_start (T : Tiled b reg R) : ¬Start R (a + (b h).size) :=
  ((T.next_iff J.kept).mp J.link).2

theorem other (hh : j ≠ h) (hk : j ≠ k) :
    (b' j).ptr = (b j).ptr ∧ (b' j).size = (b j).size ∧ (b' j).next = (b j).next := by
  by_cases hj : (b k).next = some j
  · rw [J.neighbour j hh hk hj]
    exact ⟨rfl, rfl, rfl⟩
  · rw [J.rest j hh hk hj]
    exact ⟨rfl, rfl, rfl⟩

section

variable (T : Tiled b reg R)

include T

/-- What is registered after the join. -/
theorem cases (hc : reg' c = some j) :
    (c = a ∧ j = h) ∨
      (c ≠ a ∧ c ≠ a + (b h).size ∧ j ≠ h ∧ j ≠ k ∧ reg c = some j) := by
  have hn : c ≠ a + (b h).size := by
    rintro rfl
    rw [J.reg_gone] at hc
    cases hc
  rw [J.reg_rest c hn] at hc
  by_cases ha : c = a
  · subst ha
    rw [J.kept] at hc
    exact .inl ⟨rfl, (Option.some.inj hc).symm⟩
  · refine .inr ⟨ha, hn, ?_, ?_, hc⟩
    · rintro rfl
      exact ha (T.addr_unique hc J.kept)
    · rintro rfl
      exact hn (T.addr_unique hc (J.gone T))

/-- A block other than the two meets neither. -/
theorem apart (hr : reg c = some j) (ha : c ≠ a) (hn : c ≠ a + (b h).size) :
    c + (b j).size ≤ a ∨ a + (b h).size + (b k).size ≤ c := by
  by_contra hcon
  by_cases hc : c < a + (b h).size
  · exact ha (T.eq_of_overlap hr J.kept hc (by omega))
  · exact hn (T.eq_of_overlap hr (J.gone T) (by omega) (by omega))

theorem tile_left : Tile reg' R a ((b h).size + (b k).size) (b k).next := by
  have hpos' := T.size_pos (J.gone T)
  have hend := J.reg_rest (a + (b h).size + (b k).size) (by omega)
  refine ⟨by omega, ?_, fun {c} h1 h2 => ?_, fun {lo hi} hR hlo hhi => ?_, ?_⟩
  · obtain ⟨lo, hi, hR, hlo, hhi⟩ := T.inside (J.gone T)
    -- the interval of `k` does not start at `k`, so it holds `h` as well
    have hla : lo ≤ a := by
      by_contra hcon
      have hne : lo ≠ a + (b h).size := fun heq => J.not_start T ⟨hi, heq ▸ hR⟩
      exact T.not_start J.kept (by omega) (by omega) ⟨hi, hR⟩
    exact ⟨lo, hi, hR, hla, by omega⟩
  · by_cases hc : c = a + (b h).size
    · rw [hc, J.reg_gone]
    rw [J.reg_rest c hc]
    by_cases hlt : c < a + (b h).size
    · exact T.gap J.kept h1 hlt
    · exact T.gap (J.gone T) (by omega) (by omega)
  · rw [← Nat.add_assoc] at hhi ⊢
    rw [hend]
    exact T.right (J.gone T) hR (by omega) hhi
  · rw [← Nat.add_assoc, hend]
    exact T.next_iff (J.gone T)

theorem tile_after (hc : reg' c = some j) :
    (b' j).ptr = c ∧ Tile reg' R c (b' j).size (b' j).next := by
  rcases J.cases T hc with ⟨rfl, rfl⟩ | ⟨hca, hcn, hjh, hjk, hr⟩
  · rw [J.left]
    exact ⟨T.ptr_eq J.kept, J.tile_left T⟩
  · obtain ⟨hptr, hsize, hnext⟩ := J.other hjh hjk
    have hpos := T.size_pos J.kept
    rw [hptr, hsize, hnext]
    refine ⟨T.ptr_eq hr, (T.tile hr).congr fun d h1 h2 => J.reg_rest d ?_⟩
    rcases J.apart T hr hca hcn with hle | hle <;> omega

/-- The links to the right after the join. -/
theorem link_iff : (reg' (b' p).ptr = some p ∧ (b' p).next = some j) ↔
    (p = h ∧ (b k).next = some j) ∨
      (p ≠ h ∧ p ≠ k ∧ reg (b p).ptr = some p ∧ (b p).next = some j) := by
  have hpos := T.size_pos J.kept
  by_cases hph : p = h
  · subst hph
    rw [J.left]
    simp [T.ptr_eq J.kept, J.reg_rest a (by omega), J.kept]
  · constructor
    · rintro ⟨hp, hn⟩
      rcases J.cases T hp with ⟨-, hph'⟩ | ⟨-, -, -, hpk, hr⟩
      · exact absurd hph' hph
      · rw [(J.other hph hpk).1] at hr
        rw [(J.other hph hpk).2.2] at hn
        exact .inr ⟨hph, hpk, hr, hn⟩
    · rintro (⟨hph', -⟩ | ⟨-, hpk, hp, hn⟩)
      · exact absurd hph' hph
      · have hne : (b p).ptr ≠ a + (b h).size := by
          intro heq
          rw [heq, J.gone T] at hp
          exact hpk (Option.some.inj hp).symm
        rw [(J.other hph hpk).1, (J.other hph hpk).2.2, J.reg_rest _ hne]
        exact ⟨hp, hn⟩

theorem prev_after (hc : reg' c = some j) :
    (b' j).prev = some p ↔ reg' (b' p).ptr = some p ∧ (b' p).next = some j := by
  rw [J.link_iff T]
  have hlink (hhn : (b h).next ≠ some j) (hkn : (b k).next ≠ some j) :
      (reg (b p).ptr = some p ∧ (b p).next = some j) ↔ (p = h ∧ (b k).next = some j) ∨
        (p ≠ h ∧ p ≠ k ∧ reg (b p).ptr = some p ∧ (b p).next = some j) := by
    rw [or_iff_right fun hc => hkn hc.2]
    refine ⟨fun hp => ⟨?_, ?_, hp⟩, fun hp => hp.2.2⟩
    · rintro rfl
      exact hhn hp.2
    · rintro rfl
      exact hkn hp.2
  rcases J.cases T hc with ⟨-, rfl⟩ | ⟨-, -, hjh, hjk, hr⟩
  · have hkn : (b k).next ≠ some j := by
      intro hn
      have heq := T.addr_unique ((T.next_iff (J.gone T)).mp hn).1 J.kept
      have hpos := T.size_pos J.kept
      omega
    rw [J.left]
    rw [T.prev_iff J.kept]
    exact hlink (T.next_ne_self J.kept) hkn
  · by_cases hn : (b k).next = some j
    · rw [J.neighbour j hjh hjk hn]
      have hnone : ¬(p ≠ h ∧ p ≠ k ∧ reg (b p).ptr = some p ∧ (b p).next = some j) := fun hp =>
        hp.2.1 (T.next_inj hp.2.2.1 (J.gone T) hp.2.2.2 hn)
      rw [or_iff_left hnone]
      simp [hn, eq_comm]
    · have hhn : (b h).next ≠ some j := by
        rw [J.link]
        exact fun heq => hjk (Option.some.inj heq).symm
      rw [J.rest j hjh hjk hn, T.prev_iff hr]
      exact hlink hhn hn

theorem tiled : Tiled b' reg' R := by
  refine of_tiles T.spans (J.tile_after T) (fun {lo hi} hR => ?_) (J.prev_after T)
  rw [J.reg_rest lo fun heq => J.not_start T ⟨hi, heq ▸ hR⟩]
  exact T.base hR

end

end Join

/-! ## Blocks that do not matter -/

theorem congr (T : Tiled b reg R) (hreg : ∀ c, reg' c = reg c)
    (hb : ∀ c j, reg c = some j → b' j = b j) : Tiled b' reg' R := by
  obtain rfl : reg' = reg := funext hreg
  refine of_tiles T.spans (fun {c j} hc => ?_) T.base ?_
  · rw [hb c j hc]
    exact ⟨T.ptr_eq hc, T.tile hc⟩
  · intro c j q hc
    rw [hb c j hc, T.prev_iff hc]
    constructor
    · rintro ⟨hq, hn⟩
      rw [hb _ q hq]
      exact ⟨hq, hn⟩
    · rintro ⟨hq, hn⟩
      rw [hb _ q hq] at hq hn
      exact ⟨hq, hn⟩

theorem not_registered (T : Tiled b reg R) (hc : ∀ lo hi, R lo hi → ¬(lo ≤ c ∧ c < hi)) :
    reg c = none := by
  cases hr : reg c with
  | none => rfl
  | some =>
    obtain ⟨lo, hi, hR, hlo, hhi⟩ := T.inside hr
    have hs := T.size_pos hr
    exact absurd ⟨hlo, by omega⟩ (hc lo hi hR)

end Tiled
end TfReading.Tiling
