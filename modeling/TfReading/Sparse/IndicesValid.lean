import Mathlib.Data.List.Chain
import TfReading.Sparse.Split

/-!
# `SparseTensor::IndicesValid` of `core/util/sparse/sparse_tensor.cc`

The difference of two indices is formed in `int64` and may wrap around.  It only does for a row
with a negative index, and no result depends on it then.
-/

namespace TfReading.Sparse

open Util List

variable {α : Type}

inductive Status
  | ok
  | invalidArgument (message : String)
  | failedPrecondition (message : String)
deriving DecidableEq

/-- `valid` after the loop over the dimensions. -/
def inRange (shape row : List Int) : Bool :=
  (row.zip shape).all fun x => 0 ≤ x.1 ∧ x.1 < x.2

/-- The other two flags are `different` and `increasing`. -/
def compareDim (prev row : List Int) (flags : Bool × Bool) (d : Nat) : Bool × Bool :=
  let diff := toInt64 (row.getD d 0 - prev.getD d 0)
  let different := flags.1 || 0 < diff
  (different, flags.2 && !(!different && diff < 0))

def rowStatus (shape : List Int) (n : Nat) (row : List Int) (flags : Bool × Bool) : Status :=
  let index := s!"indices[{n}] = [" ++ ",".intercalate (row.map toString) ++
    if row = [] then "" else "]"
  if !inRange shape row then
    .invalidArgument (index ++ " is out of bounds: need 0 <= index < [" ++
      ",".intercalate (shape.map toString) ++ "]")
  else if !flags.2 then
    .invalidArgument (index ++ " is out of order. Many sparse ops require sorted indices.\n" ++
      "    Use `tf.sparse.reorder` to create a correctly ordered copy.\n\n")
  else if !flags.1 then .invalidArgument (index ++ " is repeated")
  else .ok

/-- The loop over the rows from row `n` on.  `dims` are the dimensions in the order in which they
are compared, and `prev` is the row before. -/
def indicesValidHelper (shape : List Int) (dims : List Nat) :
    Nat → Option (List Int) → List (List Int) → Status
  | _, _, [] => .ok
  | n, prev, row :: rows =>
    let flags := prev.elim (true, true) fun prev => dims.foldl (compareDim prev row) (false, true)
    match rowStatus shape n row flags with
    | .ok => indicesValidHelper shape dims (n + 1) (some row) rows
    | status => status

/-- The loop of the fast paths keeps a flag for each of `checks` and one for the order. -/
def fastLoop (checks : List (List Int → Bool)) (index : List Int → Int) :
    List Bool → Bool → Int → List (List Int) → Bool
  | flags, orderValid, _, [] => flags.all id && orderValid
  | flags, orderValid, prevIndex, row :: rows =>
    fastLoop checks index (zipWith (fun flag check => flag && check row) flags checks)
      (orderValid && prevIndex < index row) (index row) rows

def fastPath (checks : List (List Int → Bool)) (index : List Int → Int) (rows : List (List Int)) :
    Bool :=
  fastLoop checks index (checks.map fun _ => true) true (-1) rows

def indicesValidVectorFastPath (shape : List Int) (rows : List (List Int)) : Bool :=
  let maxIndex := shape.getD 0 0
  fastPath [fun row => row.getD 0 0 < maxIndex] (·.getD 0 0) rows

/-- The low and the high word of an index are read from memory. -/
def indicesValidMatrix32BitFastPath (shape : List Int) (rows : List (List Int)) : Bool :=
  let maxRows := toInt32 (shape.getD 0 0)
  let maxCols := toInt32 (shape.getD 1 0)
  let row32 row := toInt32 (row.getD 0 0)
  let col32 row := toInt32 (row.getD 1 0)
  fastPath [fun row => row.getD 0 0 / 2 ^ 32 = 0, fun row => 0 ≤ row32 row ∧ row32 row < maxRows,
      fun row => row.getD 1 0 / 2 ^ 32 = 0, fun row => 0 ≤ col32 row ∧ col32 row < maxCols]
    (fun row => toInt64 (row32 row * 2 ^ 32 + col32 row)) rows

def indicesValid (t : SparseTensor α) (order : List Int) : Status :=
  let rows := t.entries.map Prod.fst
  if t.shape.length = 1 ∧ indicesValidVectorFastPath t.shape rows then .ok
  else if order.any (· < 0) then
    .failedPrecondition ("Order was not provided.  Provide an order at " ++
      "construction time or run ReorderInPlace")
  else if order = (range order.length).map Int.ofNat then
    if t.shape.length = 1 ∧ indicesValidVectorFastPath t.shape rows then .ok
    else if (t.shape.length = 2 ∧ t.shape.getD 0 0 ≤ 2 ^ 31 - 1 ∧ t.shape.getD 1 0 ≤ 2 ^ 31 - 1) ∧
        indicesValidMatrix32BitFastPath t.shape rows then .ok
    else indicesValidHelper t.shape (range t.shape.length) 0 none rows
  else indicesValidHelper t.shape (order.map Int.toNat) 0 none rows

/-! ## What is valid -/

/-- Row `a` is before row `b` in the lexicographic order with respect to `dims`. -/
def Before (dims : List Nat) (a b : List Int) : Prop :=
  dims.map (a.getD · 0) < dims.map (b.getD · 0)

def Sorted (shape : List Int) (dims : List Nat) (rows : List (List Int)) : Prop :=
  (∀ row ∈ rows, inRange shape row) ∧ rows.IsChain (Before dims)

variable {shape prev row : List Int} {dims : List Nat} {rows : List (List Int)} {n : Nat}
    {checks : List (List Int → Bool)} {index : List Int → Int} {b : Bool} {p : Int}

theorem inRange_iff : inRange shape row ↔
    ∀ (d : Nat) x size, row[d]? = some x → shape[d]? = some size → 0 ≤ x ∧ x < size := by
  simp only [inRange, all_eq_true, decide_eq_true_iff, mem_iff_getElem?, getElem?_zip_eq_some]
  constructor
  · exact fun h d x size hx hsize => h (x, size) ⟨d, hx, hsize⟩
  · exact fun h x ⟨d, hx, hsize⟩ => h d x.1 x.2 hx hsize

/-! ## The general path -/

theorem foldl_compareDim_different :
    dims.foldl (compareDim prev row) (true, b) = (true, b) := by
  induction dims with
  | nil => rfl
  | cons d dims ih => simpa [compareDim] using ih

theorem foldl_compareDim_decreasing :
    (dims.foldl (compareDim prev row) (b, false)).2 = false := by
  induction dims generalizing b with
  | nil => rfl
  | cons d dims ih => exact ih

/-- As long as all differences are zero, the flags are as they were at first. -/
theorem foldl_compareDim_iff (hprev : ∀ d, 0 ≤ prev.getD d 0 ∧ prev.getD d 0 < 2 ^ 63)
    (hrow : ∀ d, 0 ≤ row.getD d 0 ∧ row.getD d 0 < 2 ^ 63) :
    dims.foldl (compareDim prev row) (false, true) = (true, true) ↔ Before dims prev row := by
  rw [Before]
  induction dims with
  | nil => simp
  | cons d dims ih =>
    have hdiff : toInt64 (row.getD d 0 - prev.getD d 0) = row.getD d 0 - prev.getD d 0 := by
      have hp := hprev d
      have hr := hrow d
      exact toInt64_of_lt (by omega) (by omega)
    rw [foldl_cons, map_cons, map_cons, cons_lt_cons_iff, compareDim, hdiff]
    generalize prev.getD d 0 = p at *
    generalize row.getD d 0 = r at *
    rcases lt_trichotomy p r with hlt | rfl | hgt
    · simp [hlt, foldl_compareDim_different]
    · simpa using ih
    · simp only [hgt.not_gt, hgt.ne', false_and, or_false, iff_false]
      intro h
      have hflags : (dims.foldl (compareDim prev row) (false, false)).2 = false :=
        foldl_compareDim_decreasing
      simp [hgt.not_gt, hgt] at h
      simp [h] at hflags

theorem rowStatus_eq_ok {flags : Bool × Bool} :
    rowStatus shape n row flags = .ok ↔ inRange shape row ∧ flags = (true, true) := by
  obtain ⟨different, increasing⟩ := flags
  rw [rowStatus]
  cases inRange shape row <;> cases increasing <;> cases different <;> simp

section

variable (hshape : ∀ v ∈ shape, v < 2 ^ 63) (hlen : ∀ row ∈ rows, row.length = shape.length)
include hshape

theorem getD_bounds (hrow : inRange shape row) (hl : row.length = shape.length) (d : Nat) :
    0 ≤ row.getD d 0 ∧ row.getD d 0 < 2 ^ 63 := by
  rw [getD_eq_getElem?_getD]
  by_cases hd : d < row.length
  · have hd' : d < shape.length := hl ▸ hd
    have hin := inRange_iff.1 hrow d _ _ (getElem?_eq_getElem hd) (getElem?_eq_getElem hd')
    rw [getElem?_eq_getElem hd]
    exact ⟨hin.1, hin.2.trans (hshape _ (getElem_mem hd'))⟩
  · rw [getElem?_eq_none (not_lt.1 hd)]
    decide

include hlen

theorem indicesValidHelper_iff {p : Option (List Int)}
    (hprev : ∀ prev ∈ p, inRange shape prev ∧ prev.length = shape.length) :
    indicesValidHelper shape dims n p rows = .ok ↔
      (∀ row ∈ rows, inRange shape row) ∧ (p.toList ++ rows).IsChain (Before dims) := by
  induction rows generalizing n p with
  | nil => cases p <;> simp [indicesValidHelper]
  | cons row rows ih =>
    obtain ⟨hl, hlen⟩ := forall_mem_cons.1 hlen
    have hstatus : rowStatus shape n row (p.elim (true, true) fun prev =>
        dims.foldl (compareDim prev row) (false, true)) = .ok ↔
          inRange shape row ∧ ∀ prev ∈ p, Before dims prev row := by
      rw [rowStatus_eq_ok]
      refine and_congr_right fun hrow => ?_
      cases p with
      | none => simp
      | some prev =>
        obtain ⟨hin, hl'⟩ := hprev prev rfl
        simpa using foldl_compareDim_iff (getD_bounds hshape hin hl') (getD_bounds hshape hrow hl)
    have hchain : (p.toList ++ row :: rows).IsChain (Before dims) ↔
        (∀ prev ∈ p, Before dims prev row) ∧ (row :: rows).IsChain (Before dims) := by
      cases p <;> simp
    rw [forall_mem_cons, hchain, and_and_and_comm, ← hstatus, indicesValidHelper]
    split
    · rename_i hok
      have hrest := ih (n := n + 1) (p := some row) hlen (by simp [hl, (hstatus.1 hok).1])
      simpa [hok] using hrest
    · rename_i hne
      exact iff_of_false hne fun h => hne h.1

end

/-! ## The fast paths -/

theorem fastLoop_iff {f : (List Int → Bool) → Bool} {o : Bool} :
    fastLoop checks index (checks.map f) o p rows ↔
      (∀ check ∈ checks, f check ∧ ∀ row ∈ rows, check row) ∧ o ∧
        (p :: rows.map index).IsChain (· < ·) := by
  induction rows generalizing f o p with
  | nil => simp [fastLoop]
  | cons row rows ih =>
    rw [fastLoop, zipWith_map_left, zipWith_self, ih]
    simp [and_assoc]

/-- A fast path is exact if it is on every single row and on every two rows in range. -/
theorem fastPath_iff_sorted (hrow : ∀ row ∈ rows,
      (∀ check ∈ checks, check row) ∧ -1 < index row ↔ inRange shape row)
    (hpair : ∀ a ∈ rows, ∀ b ∈ rows, inRange shape a → inRange shape b →
      (index a < index b ↔ Before dims a b)) :
    fastPath checks index rows ↔ Sorted shape dims rows := by
  have hchain (hin : ∀ row ∈ rows, inRange shape row) :
      rows.IsChain (fun a b => index a < index b) ↔ rows.IsChain (Before dims) :=
    IsChain.iff_of_mem_imp fun _ _ ha hb => hpair _ ha _ hb (hin _ ha) (hin _ hb)
  rw [fastPath, fastLoop_iff, isChain_iff_pairwise, pairwise_cons, ← isChain_iff_pairwise,
    forall_mem_map, isChain_map]
  constructor
  · rintro ⟨hcheck, -, hpos, hch⟩
    have hin : ∀ row ∈ rows, inRange shape row := fun row hr =>
      (hrow row hr).1 ⟨fun check hc => (hcheck check hc).2 row hr, hpos row hr⟩
    exact ⟨hin, (hchain hin).1 hch⟩
  · rintro ⟨hin, hch⟩
    have hboth row hr := (hrow row hr).2 (hin row hr)
    exact ⟨fun check hc => ⟨rfl, fun row hr => (hboth row hr).1 check hc⟩, rfl,
      fun row hr => (hboth row hr).2, (hchain hin).2 hch⟩

theorem indicesValidVectorFastPath_iff (hone : shape.length = 1)
    (hlen : ∀ row ∈ rows, row.length = shape.length) :
    indicesValidVectorFastPath shape rows ↔ Sorted shape (range shape.length) rows := by
  obtain ⟨v, rfl⟩ := length_eq_one_iff.1 hone
  refine fastPath_iff_sorted (fun row hr => ?_) fun a ha b hb _ _ => ?_
  · obtain ⟨x, rfl⟩ := length_eq_one_iff.1 (hlen row hr)
    simp [inRange]
    omega
  · obtain ⟨x, rfl⟩ := length_eq_one_iff.1 (hlen a ha)
    obtain ⟨y, rfl⟩ := length_eq_one_iff.1 (hlen b hb)
    simp [Before, cons_lt_cons_iff]

theorem indicesValidMatrix32BitFastPath_iff (htwo : shape.length = 2)
    (hshape : ∀ v ∈ shape, 0 ≤ v ∧ v ≤ 2 ^ 31 - 1)
    (hlen : ∀ row ∈ rows, row.length = shape.length) :
    indicesValidMatrix32BitFastPath shape rows ↔ Sorted shape (range shape.length) rows := by
  obtain ⟨r, c, rfl⟩ := length_eq_two.1 htwo
  simp at hshape
  refine fastPath_iff_sorted (fun row hrow => ?_) fun a ha b hb hina hinb => ?_
  · obtain ⟨x, y, rfl⟩ := length_eq_two.1 (hlen row hrow)
    simp [inRange, toInt32, toInt64, Int.bmod_def]
    omega
  · obtain ⟨x, y, rfl⟩ := length_eq_two.1 (hlen a ha)
    obtain ⟨x', y', rfl⟩ := length_eq_two.1 (hlen b hb)
    simp [inRange] at hina hinb
    simp [Before, range_succ, cons_lt_cons_iff, toInt32, toInt64, Int.bmod_def]
    omega

/-- `IndicesValid` is exact for every order, and a fast path decides as the general one. -/
theorem indicesValid_ok_iff {t : SparseTensor α} {order : List Int}
    (hshape : ∀ v ∈ t.shape, 0 ≤ v ∧ v < 2 ^ 63)
    (hrank : ∀ e ∈ t.entries, e.1.length = t.shape.length)
    (horder : order.Perm ((range t.shape.length).map Int.ofNat)) :
    (indicesValid t order = .ok ↔ t.InBounds ∧
      (t.entries.map Prod.fst).IsChain (Before (order.map Int.toNat))) ∧
    (t.shape.length = 1 → (indicesValidVectorFastPath t.shape (t.entries.map Prod.fst) ↔
      indicesValidHelper t.shape [0] 0 none (t.entries.map Prod.fst) = .ok)) ∧
    (t.shape.length = 2 → (∀ v ∈ t.shape, v ≤ 2 ^ 31 - 1) →
      (indicesValidMatrix32BitFastPath t.shape (t.entries.map Prod.fst) ↔
        indicesValidHelper t.shape [0, 1] 0 none (t.entries.map Prod.fst) = .ok)) := by
  have hlen : ∀ row ∈ t.entries.map Prod.fst, row.length = t.shape.length :=
    forall_mem_map.2 hrank
  have hgeneral (dims : List Nat) :
      indicesValidHelper t.shape dims 0 none (t.entries.map Prod.fst) = .ok ↔
        Sorted t.shape dims (t.entries.map Prod.fst) :=
    indicesValidHelper_iff (p := none) (fun v hv => (hshape v hv).2) hlen (by simp)
  have hvector hone := indicesValidVectorFastPath_iff hone hlen
  have hmatrix htwo (hle : ∀ v ∈ t.shape, v ≤ 2 ^ 31 - 1) :=
    indicesValidMatrix32BitFastPath_iff htwo (fun v hv => ⟨(hshape v hv).1, hle v hv⟩) hlen
  refine ⟨?_, fun hone => ?_, fun htwo hle => ?_⟩
  · have hin : t.InBounds ↔ ∀ row ∈ t.entries.map Prod.fst, inRange t.shape row := by
      rw [forall_mem_map]
      exact forall₂_congr fun e he => by rw [inRange_iff, and_iff_right (hrank e he)]
    have hneg : ¬order.any (· < 0) := by simp [horder.mem_iff]
    have hdims (hstd : order = (range order.length).map Int.ofNat) :
        order.map Int.toNat = range t.shape.length := by
      have hlength := horder.length_eq
      rw [length_map, length_range] at hlength
      rw [hstd, hlength, map_map]
      exact map_id _
    have hfast (hone : t.shape.length = 1) : order = (range order.length).map Int.ofNat := by
      rw [hone] at horder
      rw [perm_singleton.1 horder]
      rfl
    rw [hin]
    by_cases hv : t.shape.length = 1 ∧ indicesValidVectorFastPath t.shape (t.entries.map Prod.fst)
    · rw [indicesValid, if_pos hv, hdims (hfast hv.1)]
      exact iff_of_true rfl ((hvector hv.1).1 hv.2)
    · rw [indicesValid, if_neg hv, if_neg hneg]
      split_ifs with hstd hm
      · rw [hdims hstd]
        refine iff_of_true rfl ((hmatrix hm.1.1 ?_).1 hm.2)
        obtain ⟨r, c, heq⟩ := length_eq_two.1 hm.1.1
        simpa [heq] using hm.1.2
      · rw [hgeneral, hdims hstd]
        rfl
      · exact hgeneral _
  · rw [hvector hone, hgeneral, hone]
    rfl
  · rw [hmatrix htwo hle, hgeneral, htwo]
    rfl

theorem indicesValid_ok_iff_columns :
    (indicesValid ⟨[([1, 0], 'a'), ([0, 2], 'b')], [2, 3]⟩ [1, 0] = .ok ↔
      (SparseTensor.mk [([1, 0], 'a'), ([0, 2], 'b')] [2, 3]).InBounds ∧
        [[1, 0], [0, 2]].IsChain (Before [1, 0])) :=
  (indicesValid_ok_iff (by decide) (by decide) (by decide)).1

end TfReading.Sparse
