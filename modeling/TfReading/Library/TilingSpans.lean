import TfReading.Library.LinkedLists
import TfReading.Library.Tiling
import Mathlib.Algebra.BigOperators.Group.Finset.Basic
import Mathlib.Order.Interval.Finset.Nat

/-!
# Changing the intervals that linked blocks tile

An interval is added with one block, two adjacent intervals are glued, an interval is
dropped with all its blocks.  `Tiled.exists_chain` is the view from outside: the links
from the start of an interval visit its blocks from left to right.
-/

namespace TfReading.Tiling

variable {ι : Type*}

/-- Following `next` from `o` visits the names of the list and ends. -/
abbrev Walk (next : ι → Option ι) : Option ι → List ι → Prop := LinkedLists.Chain next

/-- The blocks of the list lie side by side and fill `[lo, hi)`. -/
def Fills (b : ι → Block ι) (lo : Nat) : List ι → Nat → Prop
  | [], hi => lo = hi
  | h :: t, hi => (b h).ptr = lo ∧ 0 < (b h).size ∧ Fills b (lo + (b h).size) t hi

theorem Fills.exists_mem {b : ι → Block ι} {l : List ι} {a lo hi : Nat} (hl : Fills b lo l hi)
    (h1 : lo ≤ a) (h2 : a < hi) : ∃ h ∈ l, (b h).ptr ≤ a ∧ a < (b h).ptr + (b h).size := by
  induction l generalizing lo with
  | nil =>
    have heq : lo = hi := hl
    omega
  | cons x t ih =>
    obtain ⟨hp, -, ht⟩ := hl
    by_cases hx : a < lo + (b x).size
    · exact ⟨x, List.mem_cons_self, by omega, by omega⟩
    · obtain ⟨h, hm, hin⟩ := ih ht (by omega)
      exact ⟨h, List.mem_cons_of_mem x hm, hin⟩

namespace Tiled

variable {b b' : ι → Block ι} {reg reg' : Nat → Option ι}
variable {R R' : Nat → Nat → Prop} {a c d hi lo mid n x y : Nat} {h j k m p q : ι}

/-- A block that begins where an interval ends begins another one. -/
theorem start_of_end (T : Tiled b reg R) (hR : R lo hi) (hr : reg hi = some h) : Start R hi := by
  obtain ⟨x, y, hxy, hx, hy⟩ := T.inside hr
  have hs := T.size_pos hr
  by_cases hlt : x < hi
  · have hpos := T.spans.pos hR
    have heq := (T.spans.disjoint hxy hR hlt (by omega)).2
    omega
  · exact ⟨y, (show x = hi by omega) ▸ hxy⟩

/-! ## Adding an interval -/

structure Added (b b' : ι → Block ι) (reg reg' : Nat → Option ι) (R R' : Nat → Nat → Prop)
    (lo hi : Nat) (k : ι) : Prop where
  pos : lo < hi
  apart : ∀ x y, R x y → y ≤ lo ∨ hi ≤ x
  spans : ∀ x y, R' x y ↔ R x y ∨ (x = lo ∧ y = hi)
  fresh : ∀ c, reg c ≠ some k
  block : b' k = ⟨lo, hi - lo, none, none⟩
  rest : ∀ j, j ≠ k → b' j = b j
  reg_new : reg' lo = some k
  reg_rest : ∀ c, c ≠ lo → reg' c = reg c

namespace Added

variable (A : Added b b' reg reg' R R' lo hi k)
include A

theorem start_iff : Start R' c ↔ Start R c ∨ c = lo := by
  constructor
  · rintro ⟨y, hy⟩
    exact ((A.spans c y).mp hy).imp (fun h => ⟨y, h⟩) And.left
  · rintro (⟨y, hy⟩ | rfl)
    · exact ⟨y, (A.spans c y).mpr (.inl hy)⟩
    · exact ⟨hi, (A.spans c hi).mpr (.inr ⟨rfl, rfl⟩)⟩

theorem none_inside (T : Tiled b reg R) (h1 : lo ≤ c) (h2 : c < hi) : reg c = none :=
  T.not_registered fun x y hxy => by
    rcases A.apart x y hxy with h | h <;> omega

theorem cases (hc : reg' c = some j) :
    (c = lo ∧ j = k) ∨ (c ≠ lo ∧ j ≠ k ∧ reg c = some j) := by
  by_cases hlo : c = lo
  · subst hlo
    rw [A.reg_new] at hc
    exact .inl ⟨rfl, (Option.some.inj hc).symm⟩
  · rw [A.reg_rest c hlo] at hc
    exact .inr ⟨hlo, fun hjk => A.fresh c (hjk ▸ hc), hc⟩

section

variable (T : Tiled b reg R)

include T

/-- An old block that begins at `hi` begins an old interval. -/
theorem start_after (hj : reg hi = some j) : Start R hi := by
  obtain ⟨x, y, hxy, hx, hy⟩ := T.inside hj
  have hxe : x = hi := by
    have hpos := A.pos
    rcases A.apart x y hxy with h | h <;> omega
  exact ⟨y, hxe ▸ hxy⟩

theorem spans_after : Spans R' := by
  constructor
  · intro x y hxy
    rcases (A.spans x y).mp hxy with h | ⟨rfl, rfl⟩
    · exact T.spans.pos h
    · exact A.pos
  · intro x y x' y' h h' h1 h2
    rcases (A.spans x y).mp h with h | ⟨rfl, rfl⟩ <;>
      rcases (A.spans x' y').mp h' with h' | ⟨rfl, rfl⟩
    · exact T.spans.disjoint h h' h1 h2
    · rcases A.apart x y h with h | h <;> omega
    · rcases A.apart x' y' h' with h | h <;> omega
    · exact ⟨rfl, rfl⟩

theorem tile_new : Tile reg' R' lo (hi - lo) none := by
  have hpos := A.pos
  have hend : lo + (hi - lo) = hi := by omega
  have hnew := (A.spans lo hi).mpr (.inr ⟨rfl, rfl⟩)
  refine ⟨by omega, ⟨lo, hi, hnew, le_rfl, by omega⟩, fun h1 h2 => ?_,
    fun {x y} hxy hx hy => ?_, fun {m} => ?_⟩
  · rw [A.reg_rest _ (by omega)]
    exact A.none_inside T (by omega) (by omega)
  · rcases (A.spans x y).mp hxy with h | h
    · have hd := A.apart x y h
      omega
    · omega
  · rw [hend, A.reg_rest hi (by omega), A.start_iff]
    constructor
    · exact nofun
    · rintro ⟨hm, hs⟩
      exact absurd (.inl (A.start_after T hm)) hs

theorem tile_rest (hr : reg c = some j) : Tile reg' R' c (b j).size (b j).next := by
  have hpos := A.pos
  have hs := T.size_pos hr
  obtain ⟨x, y, hxy, hx, hy⟩ := T.inside hr
  have hd := A.apart x y hxy
  refine ⟨hs, ⟨x, y, (A.spans x y).mpr (.inl hxy), hx, hy⟩, fun h1 h2 => ?_,
    fun {x' y'} hxy' hx' hy' => ?_, fun {m} => ?_⟩
  · rw [A.reg_rest _ (by omega)]
    exact T.gap hr h1 h2
  · by_cases he : c + (b j).size = lo
    · exact ⟨k, he ▸ A.reg_new⟩
    rw [A.reg_rest _ he]
    rcases (A.spans x' y').mp hxy' with h | ⟨rfl, rfl⟩
    · exact T.right hr h hx' hy'
    · omega
  · rw [A.start_iff, T.next_iff hr]
    by_cases he : c + (b j).size = lo
    · have hno := A.none_inside T le_rfl hpos
      simp [he, hno]
    · rw [A.reg_rest _ he]
      simp [he]

theorem prev_after (hc : reg' c = some j) :
    (b' j).prev = some q ↔ reg' (b' q).ptr = some q ∧ (b' q).next = some j := by
  by_cases hq : q = k
  · subst hq
    rw [A.block]
    rcases A.cases hc with ⟨-, rfl⟩ | ⟨-, hj, hr⟩
    · simp [A.block]
    · simp [A.rest j hj, T.prev_iff hr, A.fresh]
  · have hreg : reg' (b q).ptr = some q ↔ reg (b q).ptr = some q := by
      by_cases hp : (b q).ptr = lo
      · rw [hp, A.none_inside T le_rfl A.pos, A.reg_new]
        simp [Ne.symm hq]
      · rw [A.reg_rest _ hp]
    rw [A.rest q hq, hreg]
    rcases A.cases hc with ⟨-, rfl⟩ | ⟨-, hj, hr⟩
    · rw [A.block]
      constructor
      · exact nofun
      · rintro ⟨hp, hn⟩
        exact absurd ((T.next_iff hp).mp hn).1 (A.fresh _)
    · rw [A.rest j hj, T.prev_iff hr]

theorem tiled : Tiled b' reg' R' := by
  refine of_tiles (A.spans_after T) (fun {c j} hc => ?_) (fun {x y} hxy => ?_) (A.prev_after T)
  · rcases A.cases hc with ⟨rfl, rfl⟩ | ⟨-, hj, hr⟩
    · rw [A.block]
      exact ⟨rfl, A.tile_new T⟩
    · rw [A.rest j hj]
      exact ⟨T.ptr_eq hr, A.tile_rest T hr⟩
  · by_cases hx : x = lo
    · exact ⟨k, hx ▸ A.reg_new⟩
    · rw [A.reg_rest x hx]
      exact T.base (((A.spans x y).mp hxy).resolve_right fun h => hx h.1)

end

end Added

/-! ## Gluing two intervals -/

/-- The adjacent intervals `[lo, mid)` and `[mid, hi)` become one: the last block `p` of
the left one and the first block `k` of the right one are linked. -/
structure Glued (b b' : ι → Block ι) (reg : Nat → Option ι) (R R' : Nat → Nat → Prop)
    (lo mid hi : Nat) (p k : ι) : Prop where
  left : R lo mid
  right : R mid hi
  spans : ∀ x y, R' x y ↔ (R x y ∧ x ≠ lo ∧ x ≠ mid) ∨ (x = lo ∧ y = hi)
  last : EndsAt b reg p mid
  first : reg mid = some k
  last_link : b' p = { b p with next := some k }
  first_link : b' k = { b k with prev := some p }
  rest : ∀ j, j ≠ p → j ≠ k → b' j = b j

namespace Glued

variable (G : Glued b b' reg R R' lo mid hi p k)
include G

theorem start_iff (T : Tiled b reg R) : Start R' c ↔ Start R c ∧ c ≠ mid := by
  have hlt := T.spans.pos G.left
  constructor
  · rintro ⟨y, hy⟩
    rcases (G.spans c y).mp hy with ⟨h, -, hm⟩ | ⟨rfl, rfl⟩
    · exact ⟨⟨y, h⟩, hm⟩
    · exact ⟨⟨mid, G.left⟩, by omega⟩
  · rintro ⟨⟨y, hy⟩, hm⟩
    by_cases hlo : c = lo
    · exact ⟨hi, (G.spans c hi).mpr (.inr ⟨hlo, rfl⟩)⟩
    · exact ⟨y, (G.spans c y).mpr (.inl ⟨hy, hlo, hm⟩)⟩

theorem same (j : ι) : (b' j).ptr = (b j).ptr ∧ (b' j).size = (b j).size := by
  by_cases hjp : j = p
  · rw [hjp, G.last_link]
    exact ⟨rfl, rfl⟩
  · by_cases hjk : j = k
    · rw [hjk, G.first_link]
      exact ⟨rfl, rfl⟩
    · rw [G.rest j hjp hjk]
      exact ⟨rfl, rfl⟩

section

variable (T : Tiled b reg R)

include T

/-- Another interval that met the union would meet one of the halves. -/
theorem apart (h : R x y) (hlo : x ≠ lo) (hm : x ≠ mid) (h1 : x < hi) (h2 : lo < y) : False := by
  by_cases hx : x < mid
  · exact hlo (T.spans.disjoint h G.left hx h2).1
  · have hpos := T.spans.pos h
    exact hm (T.spans.disjoint h G.right h1 (by omega)).1

theorem spans_after : Spans R' := by
  have hlt := T.spans.pos G.left
  have hlt' := T.spans.pos G.right
  constructor
  · intro x y hxy
    rcases (G.spans x y).mp hxy with ⟨h, -⟩ | ⟨rfl, rfl⟩
    · exact T.spans.pos h
    · omega
  · intro x y x' y' h h' h1 h2
    rcases (G.spans x y).mp h with ⟨h, hx, hx'⟩ | ⟨rfl, rfl⟩ <;>
      rcases (G.spans x' y').mp h' with ⟨h', hy, hy'⟩ | ⟨rfl, rfl⟩
    · exact T.spans.disjoint h h' h1 h2
    · exact (G.apart T h hx hx' h1 h2).elim
    · exact (G.apart T h' hy hy' h2 h1).elim
    · exact ⟨rfl, rfl⟩

theorem inside_after (hc : reg c = some j) :
    ∃ x y, R' x y ∧ x ≤ c ∧ c + (b' j).size ≤ y := by
  have hlt := T.spans.pos G.left
  have hlt' := T.spans.pos G.right
  have hnew : R' lo hi := (G.spans lo hi).mpr (.inr ⟨rfl, rfl⟩)
  have hs := T.size_pos hc
  rw [(G.same j).2]
  obtain ⟨x, y, hxy, hx, hy⟩ := T.inside hc
  by_cases hlo : x = lo
  · have hm := (T.spans.disjoint hxy G.left (by omega) (by omega)).2
    exact ⟨lo, hi, hnew, by omega, by omega⟩
  · by_cases hmid : x = mid
    · have hm := (T.spans.disjoint hxy G.right (by omega) (by omega)).2
      exact ⟨lo, hi, hnew, by omega, by omega⟩
    · exact ⟨x, y, (G.spans x y).mpr (.inl ⟨hxy, hlo, hmid⟩), hx, hy⟩

theorem right_after (hc : reg c = some j) (hxy : R' x y)
    (hx : x ≤ c) (hy : c + (b' j).size < y) : ∃ n, reg (c + (b' j).size) = some n := by
  rw [(G.same j).2] at hy ⊢
  rcases (G.spans x y).mp hxy with ⟨h, -⟩ | ⟨rfl, rfl⟩
  · exact T.right hc h hx hy
  · by_cases hcm : c < mid
    · have hle := T.le_of_mem hc G.left hx hcm
      by_cases he : c + (b j).size = mid
      · exact ⟨k, he ▸ G.first⟩
      · exact T.right hc G.left hx (by omega)
    · exact T.right hc G.right (by omega) hy

theorem next_after (hc : reg c = some j) :
    (b' j).next = some m ↔ reg (c + (b' j).size) = some m ∧ ¬Start R' (c + (b' j).size) := by
  rw [(G.same j).2, G.start_iff T]
  by_cases hjp : j = p
  · have he : c + (b j).size = mid := by
      rw [← T.ptr_eq hc, hjp]
      exact G.last.2
    rw [he, G.first, hjp, G.last_link]
    simp
  · have hne : c + (b j).size ≠ mid := fun he =>
      hjp (T.endsAt_unique ⟨T.registered hc, (T.ptr_eq hc).symm ▸ he⟩ G.last)
    have hnext : (b' j).next = (b j).next := by
      by_cases hjk : j = k
      · rw [hjk, G.first_link]
      · rw [G.rest j hjp hjk]
    rw [hnext, T.next_iff hc]
    simp [hne]

theorem prev_after (hc : reg c = some j) :
    (b' j).prev = some q ↔ reg (b' q).ptr = some q ∧ (b' q).next = some j := by
  -- no link of before crosses `mid`, where an interval starts
  have hmid : Start R mid := ⟨hi, G.right⟩
  rw [(G.same q).1]
  by_cases hjk : j = k
  · rw [hjk, G.first_link]
    by_cases hqp : q = p
    · simp [hqp, G.last_link, G.last.1]
    · have hnext : (b' q).next = some k → (b q).next = some k := by
        by_cases hqk : q = k
        · simp [hqk, G.first_link]
        · simp [G.rest q hqp hqk]
      constructor
      · rintro ⟨⟩
        exact absurd rfl hqp
      · rintro ⟨hq, hn⟩
        obtain ⟨hend, hs⟩ := (T.next_iff hq).mp (hnext hn)
        exact absurd (T.addr_unique hend G.first ▸ hmid) hs
  · have hprev : (b' j).prev = (b j).prev := by
      by_cases hjp : j = p
      · rw [hjp, G.last_link]
      · rw [G.rest j hjp hjk]
    rw [hprev, T.prev_iff hc]
    by_cases hqp : q = p
    · have hnone : (b p).next ≠ some j := fun hn =>
        ((T.next_iff G.last.1).mp hn).2 (G.last.2 ▸ hmid)
      simp [hqp, G.last_link, hnone, Ne.symm hjk]
    · by_cases hqk : q = k
      · rw [hqk, G.first_link]
      · rw [G.rest q hqp hqk]

theorem tiled : Tiled b' reg R' := by
  refine ⟨G.spans_after T, ?_, ?_, G.inside_after T, ?_, ?_, G.right_after T, G.next_after T,
    G.prev_after T⟩
  · intro c j hc
    rw [(G.same j).1]
    exact T.ptr_eq hc
  · intro c j hc
    rw [(G.same j).2]
    exact T.size_pos hc
  · intro c j d hc h1 h2
    rw [(G.same j).2] at h2
    exact T.gap hc h1 h2
  · intro x y hxy
    rcases (G.spans x y).mp hxy with ⟨h, -⟩ | ⟨rfl, rfl⟩
    · exact T.base h
    · exact T.base G.left

end

end Glued

/-! ## Dropping an interval -/

/-- The interval `[lo, hi)` and its blocks are given up. -/
structure Dropped (b b' : ι → Block ι) (reg reg' : Nat → Option ι) (R R' : Nat → Nat → Prop)
    (lo hi : Nat) : Prop where
  mem : R lo hi
  spans : ∀ x y, R' x y ↔ R x y ∧ x ≠ lo
  gone : ∀ c, lo ≤ c → c < hi → reg' c = none
  reg_rest : ∀ c, ¬(lo ≤ c ∧ c < hi) → reg' c = reg c
  rest : ∀ c j, ¬(lo ≤ c ∧ c < hi) → reg c = some j → b' j = b j

namespace Dropped

variable (D : Dropped b b' reg reg' R R' lo hi)
include D

theorem outside (hc : reg' c = some j) :
    ¬(lo ≤ c ∧ c < hi) ∧ reg c = some j ∧ b' j = b j := by
  have hno : ¬(lo ≤ c ∧ c < hi) := by
    rintro ⟨h1, h2⟩
    rw [D.gone c h1 h2] at hc
    cases hc
  rw [D.reg_rest c hno] at hc
  exact ⟨hno, hc, D.rest c j hno hc⟩

section

variable (T : Tiled b reg R)

include T

/-- What is in another interval stays registered. -/
theorem keeps (hxy : R x y) (hx : x ≠ lo) (h1 : x ≤ c) (h2 : c < y) : reg' c = reg c :=
  D.reg_rest c fun h => hx (T.spans.disjoint hxy D.mem (by omega) (by omega)).1

theorem start_iff (hc : ¬(lo ≤ c ∧ c < hi)) : Start R' c ↔ Start R c := by
  have hpos := T.spans.pos D.mem
  constructor
  · rintro ⟨y, hy⟩
    exact ⟨y, ((D.spans c y).mp hy).1⟩
  · rintro ⟨y, hy⟩
    exact ⟨y, (D.spans c y).mpr ⟨hy, fun h => hc (by omega)⟩⟩

theorem end_eq (hc : reg c = some j) (hno : ¬(lo ≤ c ∧ c < hi))
    (h1 : lo ≤ c + (b j).size) (h2 : c + (b j).size < hi) : c + (b j).size = lo := by
  by_contra hne
  obtain ⟨x, y, hxy, hx, hy⟩ := T.inside hc
  obtain ⟨rfl, rfl⟩ := T.spans.disjoint hxy D.mem (by omega) (by omega)
  exact hno ⟨hx, by omega⟩

theorem tile_after (hc : reg' c = some j) :
    (b' j).ptr = c ∧ Tile reg' R' c (b' j).size (b' j).next := by
  obtain ⟨hno, hr, hj⟩ := D.outside hc
  obtain ⟨x, y, hxy, hx, hy⟩ := T.inside hr
  have hs := T.size_pos hr
  rw [hj]
  refine ⟨T.ptr_eq hr, hs, ⟨x, y, (D.spans x y).mpr ⟨hxy, ?_⟩, hx, hy⟩, fun {d} h1 h2 => ?_,
    fun {x y} hxy h1 h2 => ?_, fun {m} => ?_⟩
  · rintro rfl
    obtain ⟨-, rfl⟩ := T.spans.disjoint hxy D.mem (T.spans.pos D.mem) (T.spans.pos hxy)
    exact hno ⟨hx, by omega⟩
  · cases hd : reg' d with
    | none => rfl
    | some =>
      have hm := (D.outside hd).2.1
      rw [T.gap hr h1 h2] at hm
      cases hm
  · obtain ⟨hxy, hx⟩ := (D.spans x y).mp hxy
    rw [D.keeps T hxy hx (by omega) h2]
    exact T.right hr hxy h1 h2
  · rw [T.next_iff hr]
    by_cases hend : lo ≤ c + (b j).size ∧ c + (b j).size < hi
    · rw [D.gone _ hend.1 hend.2]
      have hlo := D.end_eq T hr hno hend.1 hend.2
      have hstart : Start R (c + (b j).size) := hlo ▸ ⟨hi, D.mem⟩
      simp [hstart]
    · rw [D.reg_rest _ hend, D.start_iff T hend]

theorem prev_after (hc : reg' c = some j) :
    (b' j).prev = some q ↔ reg' (b' q).ptr = some q ∧ (b' q).next = some j := by
  obtain ⟨hno, hr, hj⟩ := D.outside hc
  rw [hj, T.prev_iff hr]
  constructor
  · rintro ⟨hq, hn⟩
    -- `q` lies outside as well: otherwise `c` is the end of the interval, and starts another
    have hqo : ¬(lo ≤ (b q).ptr ∧ (b q).ptr < hi) := by
      intro h
      obtain ⟨hend, hs⟩ := (T.next_iff hq).mp hn
      have hle := T.le_of_mem hq D.mem h.1 h.2
      have hce := T.addr_unique hend hr
      have hhi : (b q).ptr + (b q).size = hi := by omega
      rw [hhi] at hend hs
      exact hs (T.start_of_end D.mem hend)
    rw [D.rest _ q hqo hq, D.reg_rest _ hqo]
    exact ⟨hq, hn⟩
  · rintro ⟨hq, hn⟩
    obtain ⟨-, hq', hb⟩ := D.outside hq
    rw [hb] at hq' hn
    exact ⟨hq', hn⟩

theorem tiled : Tiled b' reg' R' := by
  refine of_tiles ⟨fun h => T.spans.pos ((D.spans _ _).mp h).1, fun h h' =>
    T.spans.disjoint ((D.spans _ _).mp h).1 ((D.spans _ _).mp h').1⟩ (D.tile_after T)
    (fun {x y} hxy => ?_) (D.prev_after T)
  obtain ⟨hxy, hx⟩ := (D.spans x y).mp hxy
  rw [D.keeps T hxy hx le_rfl (T.spans.pos hxy)]
  exact T.base hxy

end

end Dropped

/-! ## The blocks of an interval as a list -/

theorem next_eq_none (T : Tiled b reg R) (hR : R lo hi) (hr : reg c = some h)
    (he : c + (b h).size = hi) : (b h).next = none := by
  cases hn : (b h).next with
  | none => rfl
  | some =>
    obtain ⟨hm, hs⟩ := (T.next_iff hr).mp hn
    rw [he] at hm hs
    exact absurd (T.start_of_end hR hm) hs

theorem next_eq_some (T : Tiled b reg R) (hR : R lo hi) (hr : reg c = some h) (hlo : lo ≤ c)
    (hlt : c + (b h).size < hi) :
    ∃ m, (b h).next = some m ∧ reg (c + (b h).size) = some m := by
  obtain ⟨m, hm⟩ := T.right hr hR hlo hlt
  refine ⟨m, (T.next_iff hr).mpr ⟨hm, ?_⟩, hm⟩
  rintro ⟨y, hy⟩
  have hs := T.size_pos hr
  have hpos := T.spans.pos hy
  have heq := (T.spans.disjoint hy hR hlt (by omega)).1
  omega

theorem exists_chain_from (T : Tiled b reg R) (hR : R lo hi) (hr : reg c = some h) (hlo : lo ≤ c)
    (hhi : c < hi) :
    ∃ l, Walk (fun j => (b j).next) (some h) l ∧ Fills b c l hi ∧
      ∀ j, j ∈ l ↔ ∃ d, c ≤ d ∧ d < hi ∧ reg d = some j := by
  -- induction on the distance to the end of the interval
  induction hn : hi - c using Nat.strong_induction_on generalizing c h with
  | _ n ih =>
    have hs := T.size_pos hr
    have hle := T.le_of_mem hr hR hlo hhi
    have hfirst : ∀ d j, c ≤ d → d < c + (b h).size → reg d = some j → j = h := by
      intro d j h1 h2 hd
      by_cases hdc : d = c
      · rw [hdc, hr] at hd
        exact (Option.some.inj hd).symm
      · rw [T.gap hr (by omega) h2] at hd
        cases hd
    by_cases he : c + (b h).size = hi
    · refine ⟨[h], ⟨rfl, T.next_eq_none hR hr he⟩, ⟨T.ptr_eq hr, hs, he⟩, ?_⟩
      intro j
      rw [List.mem_singleton]
      constructor
      · rintro rfl
        exact ⟨c, le_rfl, hhi, hr⟩
      · rintro ⟨d, h1, h2, hd⟩
        exact hfirst d j h1 (by omega) hd
    · obtain ⟨m, hnext, hm⟩ := T.next_eq_some hR hr hlo (by omega)
      obtain ⟨t, hwalk, hfill, hmem⟩ :=
        ih (hi - (c + (b h).size)) (by omega) hm (by omega) (by omega) rfl
      refine ⟨h :: t, ⟨rfl, by simpa only [hnext] using hwalk⟩, ⟨T.ptr_eq hr, hs, hfill⟩, ?_⟩
      intro j
      rw [List.mem_cons, hmem]
      constructor
      · rintro (rfl | ⟨d, h1, h2, hd⟩)
        · exact ⟨c, le_rfl, hhi, hr⟩
        · exact ⟨d, by omega, h2, hd⟩
      · rintro ⟨d, h1, h2, hd⟩
        by_cases hdc : d < c + (b h).size
        · exact .inl (hfirst d j h1 hdc hd)
        · exact .inr ⟨d, by omega, h2, hd⟩

/-- The links from the start of an interval visit its blocks from left to right. -/
theorem exists_chain (T : Tiled b reg R) (hR : R lo hi) :
    ∃ l, Walk (fun j => (b j).next) (reg lo) l ∧ Fills b lo l hi ∧ l.Nodup ∧
      ∀ j, j ∈ l ↔ ∃ d, lo ≤ d ∧ d < hi ∧ reg d = some j := by
  obtain ⟨h, hr⟩ := T.base hR
  rw [hr]
  obtain ⟨l, hwalk, hfills, hmem⟩ :=
    T.exists_chain_from hR hr le_rfl (T.spans.pos hR)
  exact ⟨l, hwalk, hfills, hwalk.nodup, hmem⟩

/-! ## The bytes that blocks take -/

/-- The sizes of registered blocks add up to the number of their addresses. -/
theorem exists_bytes (T : Tiled b reg R) [DecidableEq ι] (S : Finset ι)
    (hS : ∀ h ∈ S, reg (b h).ptr = some h) :
    ∃ F : Finset Nat, F.card = ∑ h ∈ S, (b h).size ∧
      ∀ c ∈ F, ∃ lo hi, R lo hi ∧ lo ≤ c ∧ c < hi := by
  refine ⟨S.biUnion fun h => Finset.Ico (b h).ptr ((b h).ptr + (b h).size), ?_, ?_⟩
  · rw [Finset.card_biUnion]
    · simp
    · intro h hh k hk hne
      refine Finset.disjoint_left.mpr fun c hc hc' => ?_
      rw [Finset.mem_Ico] at hc hc'
      have heq := T.eq_of_overlap (hS h hh) (hS k hk) (by omega) (by omega)
      have hk' := hS k hk
      rw [← heq, hS h hh] at hk'
      exact hne (Option.some.inj hk')
  · intro c hc
    obtain ⟨h, hh, hc⟩ := Finset.mem_biUnion.mp hc
    rw [Finset.mem_Ico] at hc
    obtain ⟨lo, hi, hR, hlo, hhi⟩ := T.inside (hS h hh)
    exact ⟨lo, hi, hR, by omega, by omega⟩

end Tiled
end TfReading.Tiling
