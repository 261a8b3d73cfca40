import Mathlib.Data.List.Basic
import Mathlib.Data.List.GetD

/-!
# The two constructors of `lite/tools/optimize/sparsity/format_converter.cc`

The metadata of a sparse tensor is stored by level.  The reader looks for block `b` at the level
that the traversal order has at place `b`, where the writer has put another block if the order is
not its own inverse there.
-/

namespace TfReading.Lite

open List

inductive DimensionType
  | dense
  | sparseCSR

structure DimMetadata where
  format : DimensionType
  denseSize : Int

structure Sparsity where
  traversalOrder : List Nat
  blockMap : List Nat
  dimMetadata : List DimMetadata

/-- The size that the reader takes for each block of a tensor with the given rank. -/
def Sparsity.blockSize (s : Sparsity) (rank : Nat) : List Int :=
  (range s.blockMap.length).map fun b =>
    (s.dimMetadata[s.traversalOrder.getD (rank + b) 0]?.map DimMetadata.denseSize).getD 0

structure FormatConverter where
  blockedShape : List Int
  traversalOrder : List Nat
  format : List DimensionType
  blockSize : List Int
  blockMap : List Nat

/-- The loop of both constructors over the dimensions from `i` on, with the blocks that are left.
It returns the sizes of the blocks it has met.  The sizes are positive, as the source divides by
them. -/
def blocks : Nat → List (Nat × Int) → List Int → List Int × List Int
  | i, (mapped, size) :: rest, dim :: shape =>
    if mapped = i then
      let (dims, sizes) := blocks (i + 1) rest shape
      (dim.tdiv size :: dims, size :: sizes)
    else
      let (dims, sizes) := blocks (i + 1) ((mapped, size) :: rest) shape
      (dim :: dims, sizes)
  | _, _, shape => (shape, [])

namespace FormatConverter

def ofFormat (shape : List Int) (traversalOrder : List Nat) (format : List DimensionType)
    (blockSize : List Int) (blockMap : List Nat) : FormatConverter where
  blockedShape := (blocks 0 (blockMap.zip blockSize) shape).1
  traversalOrder := traversalOrder
  -- Only dense blocks are supported.
  format := ((range shape.length).map fun i => format.getD (traversalOrder.getD i 0) .dense) ++
    replicate blockMap.length .dense
  blockSize := blockSize
  blockMap := blockMap

/-- What `DenseToSparse` writes before its loop over the elements, which only adds to the segments
and indices of compressed levels. -/
def sparsity (c : FormatConverter) : Sparsity where
  traversalOrder := c.traversalOrder
  blockMap := c.blockMap
  dimMetadata := c.format.mapIdx fun i format =>
    match format with
    | .dense => ⟨.dense, (c.blockedShape ++ c.blockSize).getD (c.traversalOrder.getD i 0) 0⟩
    | .sparseCSR => ⟨.sparseCSR, 0⟩

def ofSparsity (shape : List Int) (s : Sparsity) : FormatConverter :=
  let (dims, sizes) := blocks 0 (s.blockMap.zip (s.blockSize shape.length)) shape
  { blockedShape := dims
    traversalOrder := s.traversalOrder
    format := s.dimMetadata.map DimMetadata.format
    blockSize := sizes ++ replicate (s.blockMap.length - sizes.length) 0
    blockMap := s.blockMap }

end FormatConverter

open FormatConverter

variable {blockMap traversalOrder : List Nat} {shape blockSize : List Int} {i : Nat}
  {format : List DimensionType}

theorem length_blocks (l : List (Nat × Int)) : (blocks i l shape).1.length = shape.length := by
  fun_induction blocks i l shape <;> simp_all

theorem blocks_prefix (i : Nat) (l : List (Nat × Int)) (shape : List Int) :
    (blocks i l shape).2 <+: l.map Prod.snd := by
  fun_induction blocks i l shape <;> simp_all

/-- The loop meets all blocks exactly if they are in the order of their dimensions. -/
theorem length_blocks_eq_iff (i : Nat) (l : List (Nat × Int)) (shape : List Int) :
    (blocks i l shape).2.length = l.length ↔ l.map Prod.fst <+ range' i shape.length := by
  induction shape generalizing i l with
  | nil => cases l <;> simp [blocks]
  | cons dim shape ih =>
    cases l with
    | nil => simp [blocks]
    | cons block rest =>
      rw [blocks, length_cons, length_cons, range'_succ, map_cons]
      split
      next h => simp [ih, h]
      next h => simpa [cons_sublist_cons', h] using ih (i + 1) (block :: rest)

theorem format_block (hi : shape.length ≤ i) (hlt : i < shape.length + blockMap.length) :
    (ofFormat shape traversalOrder format blockSize blockMap).format[i]? = some .dense := by
  simp only [ofFormat]
  rw [getElem?_append_right (by simpa using hi), getElem?_replicate_of_lt (by simp; omega)]

theorem denseSize_level {c : FormatConverter} (h : c.format[i]? = some .dense) :
    c.sparsity.dimMetadata[i]?.map DimMetadata.denseSize =
      some ((c.blockedShape ++ c.blockSize).getD (c.traversalOrder.getD i 0) 0) := by
  rw [sparsity, getElem?_mapIdx, h]
  rfl

/-- The reader has the block sizes of the writer if the loop meets all blocks and the sizes that it
reads are right. -/
theorem ofSparsity_blockSize_iff (s : Sparsity) (shape : List Int)
    (hpos : ∀ size ∈ blockSize, 0 < size) : (ofSparsity shape s).blockSize = blockSize ↔
      s.blockMap <+ range shape.length ∧ s.blockSize shape.length = blockSize := by
  have hread : (s.blockSize shape.length).length = s.blockMap.length := by
    simp [Sparsity.blockSize]
  have hinit := blocks_prefix 0 (s.blockMap.zip (s.blockSize shape.length)) shape
  have hall := length_blocks_eq_iff 0 (s.blockMap.zip (s.blockSize shape.length)) shape
  rw [map_snd_zip (Nat.le_of_eq hread)] at hinit
  rw [map_fst_zip (Nat.le_of_eq hread.symm), ← range_eq_range', length_zip, hread,
    Nat.min_self] at hall
  rw [← hall]
  change (blocks 0 (s.blockMap.zip _) shape).2 ++ replicate (_ - _) 0 = _ ↔ _
  constructor
  · intro h
    have hrest : s.blockMap.length -
        (blocks 0 (s.blockMap.zip (s.blockSize shape.length)) shape).2.length = 0 := by
      by_contra hne
      have hmem := hpos 0 (h ▸ mem_append_right _ (mem_replicate.2 ⟨hne, rfl⟩))
      exact absurd hmem (by decide)
    have hlen := hinit.length_le
    rw [hrest, replicate_zero, append_nil] at h
    exact ⟨by omega, (hinit.eq_of_length (by omega)).symm.trans h⟩
  · rintro ⟨hmet, rfl⟩
    rw [hmet, Nat.sub_self, replicate_zero, append_nil]
    exact hinit.eq_of_length (hmet.trans hread.symm)

/-- With positive sizes, the reader has the block sizes and the blocked shape of the writer if and
only if the blocks are in the order of their dimensions and two steps of the traversal order lead
from each block to one of the same size. -/
theorem ofSparsity_sparsity_iff (hpos : ∀ size ∈ blockSize, 0 < size)
    (horder : ∀ l ∈ range' shape.length blockMap.length,
      traversalOrder.getD l 0 ∈ range' shape.length blockMap.length) :
    let writer := ofFormat shape traversalOrder format blockSize blockMap
    let reader := ofSparsity shape writer.sparsity
    reader.blockSize = writer.blockSize ∧ reader.blockedShape = writer.blockedShape ↔
      blockMap <+ range shape.length ∧ (range blockMap.length).map (fun b => blockSize.getD
        (traversalOrder.getD (traversalOrder.getD (shape.length + b) 0) 0 - shape.length) 0) =
          blockSize := by
  intro writer reader
  have hread : writer.sparsity.blockSize shape.length = (range blockMap.length).map fun b =>
      blockSize.getD
        (traversalOrder.getD (traversalOrder.getD (shape.length + b) 0) 0 - shape.length) 0 := by
    refine map_congr_left fun b hb => ?_
    have hb : b < blockMap.length := mem_range.1 hb
    have hlevel := horder (shape.length + b) (mem_range'_1.2 (by omega))
    have hback := (mem_range'_1.1 (horder _ hlevel)).1
    rw [mem_range'_1] at hlevel
    have hformat : writer.format[traversalOrder.getD (shape.length + b) 0]? = some .dense :=
      format_block hlevel.1 hlevel.2
    refine (congrArg (Option.getD · 0) (denseSize_level hformat)).trans ?_
    have hshape : writer.blockedShape.length = shape.length := length_blocks _
    change (_ ++ blockSize).getD (traversalOrder.getD _ 0) 0 = _
    rw [getD_append_right _ _ _ _ (hshape ▸ hback), hshape]
  rw [← hread]
  have hiff := ofSparsity_blockSize_iff writer.sparsity shape hpos
  refine ⟨fun h => hiff.1 h.1, fun h => ⟨hiff.2 h, ?_⟩⟩
  change (blocks 0 (blockMap.zip _) shape).1 = _
  rw [h.2]
  rfl

theorem ofSparsity_sparsity_swap :
    (ofSparsity [4, 6] (ofFormat [4, 6] [0, 1, 3, 2] [.dense, .sparseCSR] [2, 3]
      [0, 1]).sparsity).blockSize = [2, 3] :=
  ((ofSparsity_sparsity_iff (by decide) (by decide)).2 ⟨.refl _, by decide⟩).1

/-- The three blocks of a tensor stored in the order 1, 2, 0. -/
theorem ofSparsity_cycle :
    (ofSparsity [2, 3, 5] (ofFormat [2, 3, 5] [0, 1, 2, 4, 5, 3] (replicate 3 .dense) [2, 3, 5]
      [0, 1, 2]).sparsity).blockSize = [5, 2, 3] := by
  decide

end TfReading.Lite
