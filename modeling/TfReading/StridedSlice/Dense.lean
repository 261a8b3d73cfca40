import TfReading.Library.Outcome
import TfReading.StridedSlice.Numpy

/-!
# The dense specification

`BuildDenseSpec` puts the dimensions that no other entry is about in the place of the ellipsis, as
numpy does.  It fails if the entries need more dimensions than there are.
-/

namespace TfReading.StridedSlice

open List DenseSpec

inductive Item
  | newAxis
  | axis (d : DenseDim)

variable {spec : Spec} {sparse : SparseSpec} {rank i e m k : Nat} {is js pre post : List Nat}
  {s s' dense : DenseSpec} {items : List Item} {it : Item} {d : DenseDim}

namespace Item

def index : Item → Index
  | .newAxis => .newAxis
  | .axis d => d.index

def dim? : Item → Option DenseDim
  | .newAxis => none
  | .axis d => some d

def gather (k : Nat) : Item → Gather
  | .newAxis => .newAxis
  | .axis d => if d.shrink then .shrinkAxis else .dim k

end Item

def axes (items : List Item) : List DenseDim := items.filterMap Item.dim?

def gatherOf : Nat → List Item → List Gather
  | _, [] => []
  | k, it :: items => it.gather k :: gatherOf (k + (axes [it]).length) items

structure Lists (s : DenseSpec) (items : List Item) : Prop where
  dims : s.dims = axes items
  gather : s.gather.map Prod.fst = gatherOf 0 items

theorem axes_append (l m : List Item) : axes (l ++ m) = axes l ++ axes m := filterMap_append

theorem gatherOf_append (l m : List Item) (k : Nat) :
    gatherOf k (l ++ m) = gatherOf k l ++ gatherOf (k + (axes l).length) m := by
  induction l generalizing k with
  | nil => rfl
  | cons it l ih =>
    rw [cons_append, gatherOf, gatherOf, ih, cons_append, Nat.add_assoc,
      ← length_append, ← axes_append, singleton_append]

theorem Lists.push (h : Lists s items) (hdims : s'.dims = s.dims ++ axes [it])
    (hgather : s'.gather.map Prod.fst = s.gather.map Prod.fst ++ [it.gather s.dims.length]) :
    Lists s' (items ++ [it]) where
  dims := by rw [hdims, h.dims, axes_append]
  gather := by rw [hgather, h.gather, h.dims, gatherOf_append, Nat.zero_add]; rfl

/-! ## Turns of the loop -/

def allItem (i : Nat) : Item :=
  .axis { strideI := 1, beginMasked := true, endMasked := true, sparse := i }

def itemOf (spec : Spec) (i : Nat) : Item :=
  if spec.newAxisMask.getLsbD i then .newAxis else .axis (DenseSpec.entry spec i)

theorem Lists.expandEllipsis (h : Lists s items) (i m : Nat) :
    Lists (s.expandEllipsis i m) (items ++ List.replicate m (allItem i)) := by
  induction m generalizing s items with
  | zero =>
    rw [replicate_zero, append_nil]
    exact h
  | succ m ih =>
    rw [replicate_succ, ← singleton_append, ← append_assoc]
    apply ih
    apply h.push
    · rfl
    · exact map_append

theorem Lists.step (h : Lists s items) (hi : sparse.ellipsisMask.getLsbD i = false)
    (hstep : s.step spec sparse rank i = .ok s') (hle : s.dims.length ≤ rank) :
    Lists s' (items ++ [itemOf spec i]) ∧ s'.dims.length ≤ rank := by
  rw [DenseSpec.step, hi, if_neg Bool.false_ne_true] at hstep
  rw [itemOf]
  split at hstep
  next hnew =>
    cases hstep
    rw [if_pos hnew]
    refine ⟨h.push ?_ ?_, hle⟩
    · exact (append_nil _).symm
    · exact map_append
  next hnew =>
    rw [if_neg hnew]
    split at hstep
    · cases hstep
    next hroom =>
      cases hstep
      refine ⟨h.push rfl ?_, ?_⟩
      · show (s.gather ++ [_]).map Prod.fst = _
        rw [map_append, map_singleton]
        congr 2
        show Prod.fst (if _ then _ else _) = if spec.shrinkAxisMask.getLsbD i = true then _ else _
        split <;> rfl
      · show (s.dims ++ [_]).length ≤ rank
        rw [length_append, length_singleton]
        omega

theorem Lists.loop (h : Lists s items) (hell : ∀ i ∈ is, sparse.ellipsisMask.getLsbD i = false)
    (hloop : loop spec sparse rank is s = .ok s') (hle : s.dims.length ≤ rank) :
    Lists s' (items ++ is.map (itemOf spec)) ∧ s'.dims.length ≤ rank := by
  induction is generalizing s items with
  | nil =>
    cases hloop
    rw [map_nil, append_nil]
    exact ⟨h, hle⟩
  | cons i is ih =>
    obtain ⟨hi, his⟩ := forall_mem_cons.mp hell
    rw [loop] at hloop
    split at hloop
    · cases hloop
    next t ht =>
      obtain ⟨hlist, hle⟩ := h.step hi ht hle
      rw [map_cons, ← singleton_append, ← append_assoc]
      exact ih hlist his hloop hle

theorem loop_append : loop spec sparse rank (is ++ js) s =
    (loop spec sparse rank is s).bind (loop spec sparse rank js) := by
  induction is generalizing s with
  | nil => rfl
  | cons i is ih =>
    rw [cons_append, loop, loop]
    cases s.step spec sparse rank i with
    | error => rfl
    | ok => exact ih

/-! ## The ellipsis -/

structure Split (spec : Spec) (pre : List Nat) (e : Nat) (post : List Nat) : Prop where
  range_eq : List.range (sparseSpec spec).dims = pre ++ e :: post
  ellipsis : (sparseSpec spec).ellipsisMask.getLsbD e = true
  before : ∀ i ∈ pre, (sparseSpec spec).ellipsisMask.getLsbD i = false
  after : ∀ i ∈ post, (sparseSpec spec).ellipsisMask.getLsbD i = false
  count : (sparseSpec spec).numAddAxisAfterEllipsis = post.countP spec.newAxisMask.getLsbD
  entries : ∀ i, i < spec.stridesTensor.length → spec.ellipsisMask.getLsbD i = false →
    i ∈ pre ∨ i ∈ post
  indices : insertEllipsis spec.indices =
    pre.map (fun i => (itemOf spec i).index) ++ .ellipsis ::
      post.map fun i => (itemOf spec i).index

theorem length_axes_itemOf (spec : Spec) (is : List Nat) :
    (axes (is.map (itemOf spec))).length + is.countP spec.newAxisMask.getLsbD = is.length := by
  induction is with
  | nil => rfl
  | cons =>
    rw [map_cons, countP_cons, length_cons, ← singleton_append, axes_append,
      length_append, itemOf]
    split
    · show 0 + _ + _ = _
      omega
    · show 1 + _ + _ = _
      omega

theorem consumes_index : it.index.consumes = it.dim?.isSome := by
  cases it with
  | newAxis => rfl
  | axis d =>
    show d.index.consumes = true
    rw [DenseDim.index]
    split <;> rfl

theorem index_ne_ellipsis : it.index ≠ .ellipsis := by
  cases it with
  | newAxis => exact fun h => nomatch h
  | axis d =>
    show d.index ≠ .ellipsis
    rw [DenseDim.index]
    split
    · exact fun h => nomatch h
    · exact fun h => nomatch h

theorem countP_consumes (items : List Item) :
    (items.map Item.index).countP Index.consumes = (axes items).length := by
  induction items with
  | nil => rfl
  | cons it items ih =>
    rw [map_cons, countP_cons, ih, consumes_index, ← singleton_append, axes_append,
      length_append]
    cases it with
    | newAxis => exact (Nat.zero_add _).symm
    | axis => exact Nat.add_comm _ _

theorem flatMap_items (items : List Item) (l : List Index) :
    (items.map Item.index).flatMap (fun i => if i = .ellipsis then l else [i]) =
      items.map Item.index := by
  induction items with
  | nil => rfl
  | cons it items ih =>
    rw [map_cons, flatMap_cons, ih, if_neg index_ne_ellipsis, singleton_append]

theorem Split.expand_eq {a b : List Item} (ha : a = pre.map (itemOf spec))
    (hb : b = post.map (itemOf spec)) (h : Split spec pre e post)
    (hle : (axes a).length + (axes b).length ≤ rank) :
    expand rank spec.indices = some ((a ++ List.replicate
      (rank - ((axes a).length + (axes b).length)) (allItem e) ++ b).map Item.index) := by
  have hidx : insertEllipsis spec.indices = a.map Item.index ++ .ellipsis :: b.map Item.index := by
    rw [h.indices, ha, hb, map_map, map_map]
    rfl
  have hno : ∀ l : List Item, (l.map Item.index).count .ellipsis = 0 := by
    intro l
    rw [count_eq_zero]
    intro hmem
    obtain ⟨it, -, hit⟩ := mem_map.mp hmem
    exact index_ne_ellipsis hit
  have hcons : (a.map Item.index ++ .ellipsis :: b.map Item.index).countP Index.consumes =
      (axes a).length + (axes b).length := by
    rw [countP_append, countP_cons, countP_consumes, countP_consumes]
    rfl
  have hcount : (a.map Item.index ++ .ellipsis :: b.map Item.index).count .ellipsis ≤ 1 := by
    rw [count_append, count_cons_self, hno, hno]
  rw [expand, hidx, hcons, if_pos ⟨hcount, hle⟩, flatMap_append, flatMap_cons, flatMap_items,
    flatMap_items, if_pos rfl, map_append, map_append, map_replicate,
    append_assoc]
  rfl

theorem Split.exists_items (h : Split spec pre e post)
    (hdense : buildDenseSpec spec (sparseSpec spec) rank = .ok dense) :
    ∃ items, Lists dense items ∧ dense.dims.length = rank ∧
      expand rank spec.indices = some (items.map Item.index) ∧
      ∀ i, i ∈ pre ∨ i ∈ post → itemOf spec i ∈ items := by
  rw [buildDenseSpec, h.range_eq, loop_append] at hdense
  obtain ⟨t, hpre, hdense⟩ := Outcome.exists_of_bind_eq_ok hdense
  have hstart : Lists ⟨[], []⟩ [] := ⟨rfl, rfl⟩
  obtain ⟨ht, hlet⟩ := hstart.loop h.before hpre (Nat.zero_le rank)
  rw [nil_append] at ht
  rw [loop, step, h.ellipsis, if_pos rfl] at hdense
  dsimp only at hdense
  generalize hm : (min ((rank : Int) - (((sparseSpec spec).dims : Int) - e) + 1 +
    (sparseSpec spec).numAddAxisAfterEllipsis) rank - t.dims.length).toNat = m at hdense
  have hell := ht.expandEllipsis e m
  -- the position of the ellipsis is the number of entries before it
  have hdims : (sparseSpec spec).dims = pre.length + (post.length + 1) := by
    rw [← length_cons, ← length_append, ← h.range_eq, length_range]
  have he : e = pre.length := by
    have hget : (range (sparseSpec spec).dims)[pre.length]? = some e := by
      rw [h.range_eq, getElem?_append_right le_rfl, Nat.sub_self]
      rfl
    rw [getElem?_range (by omega)] at hget
    exact (Option.some.inj hget).symm
  have hcount := length_axes_itemOf spec post
  have hlen : (axes (replicate m (allItem e))).length = m := by
    have hsome : (allItem e).dim? = some _ := rfl
    rw [axes, filterMap_replicate_of_some hsome, length_replicate]
  have hbefore : t.dims.length = (axes (pre.map (itemOf spec))).length := congrArg _ ht.dims
  have hroom : (t.expandEllipsis e m).dims.length ≤ rank := by
    rw [hell.dims, axes_append, length_append, hlen, ← hbefore]
    omega
  obtain ⟨hs, hle⟩ := hell.loop h.after hdense hroom
  have htotal : dense.dims.length = t.dims.length + m + (axes (post.map (itemOf spec))).length := by
    rw [hs.dims, axes_append, axes_append, length_append, length_append, hlen, hbefore]
  have hadd := h.count
  set before := (axes (pre.map (itemOf spec))).length
  set after := (axes (post.map (itemOf spec))).length
  have hfit : before + after ≤ rank := by omega
  have hmeq : m = rank - (before + after) := by omega
  refine ⟨_, hs, by omega, ?_, fun i hi => ?_⟩
  · rw [hmeq]
    exact h.expand_eq rfl rfl hfit
  · rcases hi with hi | hi
    · exact mem_append_left _ (mem_append_left _ (mem_map_of_mem hi))
    · exact mem_append_right _ (mem_map_of_mem hi)

/-! ## The place of the ellipsis -/

theorem countAxes_append (c : Nat) (seen : Bool) : countAxes spec (is ++ js) seen c =
    countAxes spec js (countAxes spec is seen c).1 (countAxes spec is seen c).2 := by
  induction is generalizing seen c with
  | nil => rfl
  | cons i is ih =>
    exact ih _ _

theorem countAxes_before (h : ∀ i ∈ is, spec.ellipsisMask.getLsbD i = false) (c : Nat) :
    countAxes spec is false c = (false, c) := by
  induction is with
  | nil => rfl
  | cons i is ih =>
    obtain ⟨hi, his⟩ := forall_mem_cons.mp h
    rw [countAxes, hi]
    exact ih his

theorem countAxes_after (is : List Nat) (c : Nat) : countAxes spec is true c =
    (true, c + is.countP spec.newAxisMask.getLsbD) := by
  induction is generalizing c with
  | nil => rfl
  | cons i is ih =>
    rw [countAxes, Bool.true_or, Bool.true_and, ih, countP_cons, Prod.mk_right_inj]
    split
    · exact Nat.add_right_comm _ _ _
    · rfl

theorem index_of_entry (h : spec.ellipsisMask.getLsbD i = false) :
    spec.index i = (itemOf spec i).index := by
  rw [Spec.index, h, if_neg Bool.false_ne_true, itemOf]
  split <;> rfl

theorem getLsbD_unique {mask : BitVec 32} (h : mask &&& (mask - 1) = 0) (hi : mask.getLsbD i = true)
    (he : mask.getLsbD e = true) : i = e := by
  have hpos : mask.toNat ≠ 0 := by
    intro h0
    rw [BitVec.getLsbD, h0, Nat.zero_testBit] at hi
    cases hi
  have hsub : (mask - 1).toNat = mask.toNat - 1 := by
    show (2 ^ 32 - 1 + mask.toNat) % 2 ^ 32 = mask.toNat - 1
    omega
  have hand : mask.toNat &&& (mask.toNat - 1) = 0 := by
    rw [← hsub, ← BitVec.toNat_and, h]
    rfl
  obtain ⟨k, hk⟩ := (Nat.and_sub_one_eq_zero_iff_isPowerOfTwo hpos).mp hand
  rw [BitVec.getLsbD, hk, Nat.testBit_two_pow, decide_eq_true_iff] at hi he
  exact hi.symm.trans he

theorem exists_split (hn : spec.stridesTensor.length < 32)
    (hone : spec.ellipsisMask &&& (spec.ellipsisMask - 1) = 0) :
    ∃ pre e post, Split spec pre e post := by
  set n := spec.stridesTensor.length
  by_cases hell : ∃ e ∈ range n, spec.ellipsisMask.getLsbD e = true
  · obtain ⟨e, hmem, he⟩ := hell
    obtain ⟨pre, post, hrange⟩ := append_of_mem hmem
    have hnodup : (pre ++ e :: post).Nodup := hrange ▸ nodup_range
    have hother : ∀ i, i ≠ e → spec.ellipsisMask.getLsbD i = false := fun i hi =>
      Bool.eq_false_iff.mpr fun hb => hi (getLsbD_unique hone hb he)
    have hpre : ∀ i ∈ pre, spec.ellipsisMask.getLsbD i = false := by
      intro i hi
      apply hother
      intro heq
      exact (nodup_append.mp hnodup).2.2 i hi e mem_cons_self heq
    have hpost : ∀ i ∈ post, spec.ellipsisMask.getLsbD i = false := by
      intro i hi
      apply hother
      intro heq
      exact (nodup_cons.mp (nodup_append.mp hnodup).2.1).1 (heq ▸ hi)
    have hcount : countAxes spec (range n) false 0 =
        (true, post.countP spec.newAxisMask.getLsbD) := by
      rw [hrange, countAxes_append, countAxes_before hpre, countAxes, he, Bool.false_and,
        if_neg Bool.false_ne_true, Bool.or_true, countAxes_after, Nat.zero_add]
    have hsparse : sparseSpec spec =
        ⟨n, post.countP spec.newAxisMask.getLsbD, spec.ellipsisMask⟩ := by
      rw [sparseSpec, hcount]
      rfl
    have hindices : spec.indices = pre.map (fun i => (itemOf spec i).index) ++ .ellipsis ::
        post.map fun i => (itemOf spec i).index := by
      rw [Spec.indices, hrange, map_append, map_cons,
        map_congr_left fun i hi => index_of_entry (hpre i hi),
        map_congr_left fun i hi => index_of_entry (hpost i hi), Spec.index, if_pos he]
    refine ⟨pre, e, post, ?_⟩
    constructor
    · rw [hsparse]
      exact hrange
    · rw [hsparse]
      exact he
    · rw [hsparse]
      exact hpre
    · rw [hsparse]
      exact hpost
    · rw [hsparse]
    · intro i hi hno
      have hmem : i ∈ pre ++ e :: post := hrange ▸ mem_range.mpr hi
      rcases mem_append.mp hmem with hmem | hmem
      · exact .inl hmem
      · rcases mem_cons.mp hmem with hie | hmem
        · rw [hie, he] at hno
          cases hno
        · exact .inr hmem
    · rw [insertEllipsis, hindices, if_pos (mem_append_right _ mem_cons_self)]
  · have hnone : ∀ i ∈ range n, spec.ellipsisMask.getLsbD i = false := fun i hi =>
      Bool.eq_false_iff.mpr fun hb => hell ⟨i, hi, hb⟩
    have hsparse : sparseSpec spec =
        ⟨n + 1, 0, spec.ellipsisMask ||| BitVec.twoPow 32 n⟩ := by
      rw [sparseSpec, countAxes_before hnone]
      rfl
    have hindices : spec.indices = (range n).map fun i => (itemOf spec i).index :=
      map_congr_left fun i hi => index_of_entry (hnone i hi)
    refine ⟨range n, n, [], ?_⟩
    constructor
    · rw [hsparse]
      exact range_succ
    · rw [hsparse, BitVec.getLsbD_or, BitVec.getLsbD_twoPow, decide_eq_true hn,
        decide_eq_true rfl, Bool.and_true, Bool.or_true]
    · intro i hi
      have hlt := mem_range.mp hi
      rw [hsparse, BitVec.getLsbD_or, hnone i hi, BitVec.getLsbD_twoPow,
        decide_eq_false (by omega : ¬ n = i), Bool.and_false, Bool.or_false]
    · exact nofun
    · rw [hsparse]
      rfl
    · exact fun i hi _ => .inl (mem_range.mpr hi)
    · rw [insertEllipsis, hindices, if_neg]
      · rfl
      · intro hmem
        obtain ⟨i, -, hi⟩ := mem_map.mp hmem
        exact index_ne_ellipsis hi

end TfReading.StridedSlice
