import TfReading.Bfc.Collect

/-!
# Chunks in use

Marking a chunk used or free changes no block.  The bytes in use are a sum over all chunk
slots, and fewer than what the regions hold.
-/

namespace TfReading.Bfc

open Outcome Tiling Finset

namespace Heap

variable {s s' t : Heap} {holes holes' : List ChunkHandle} {h k : ChunkHandle} {c : Chunk}

/-! ## Changing a chunk in place -/

theorem setChunk_self : (s.setChunk h c).chunks h = c := Function.update_self ..

theorem setChunk_of_ne (hk : k ≠ h) : (s.setChunk h c).chunks k = s.chunks k :=
  Function.update_of_ne hk ..

theorem inPlace_setChunk (hblock : c.block = s.block h) : InPlace s (s.setChunk h c) h where
  numChunks := rfl
  freeChunksList := rfl
  regionManager := rfl
  rest _ := setChunk_of_ne
  block := by
    rw [block, setChunk_self]
    exact hblock

theorem Inv.setChunk_unbinned (hs : s.Inv holes) (hr : s.Registered h)
    (hblock : c.block = s.block h) (hbin : c.binNum = none) (hout : ∀ b, h ∉ s.bins b)
    (hholes : ∀ j, j ≠ h → (j ∈ holes' ↔ j ∈ holes)) (hc : c.inUse = true ∨ h ∈ holes') :
    (s.setChunk h c).Inv holes' := by
  have hin := inPlace_setChunk hblock
  refine ⟨hin.mapped hr hs.toMapped, ?_, hin.recycled hr hs.recycled⟩
  refine hs.toBinned.frame rfl (fun b j hj hjh => ?_) (fun j hjh => ?_)
    (fun j _ => hin.registered_iff j) hholes fun j hjh => ?_
  · exact hout b (hjh ▸ hj)
  · rw [setChunk_of_ne hjh]
    exact ⟨rfl, rfl, rfl, rfl⟩
  · rw [hjh, setChunk_self]
    exact ⟨hbin, fun _ hu => hc.resolve_left (by simp [hu])⟩

theorem Tidy.setChunk (ht : s.Tidy holes) (hblock : c.block = s.block h)
    (hfreed : c.freedAtCount = (s.chunks h).freedAtCount)
    (hholes : ∀ j ∈ holes, j ≠ h → j ∈ holes') (hc : c.inUse = true ∨ h ∈ holes') :
    (s.setChunk h c).Tidy holes' where
  untimed j hj := by
    rw [(inPlace_setChunk hblock).registered_iff] at hj
    by_cases hjh : j = h
    · rw [hjh, setChunk_self, hfreed]
      exact ht.untimed h (hjh ▸ hj)
    · rw [setChunk_of_ne hjh]
      exact ht.untimed j hj
  apart i j hi hj hn hif hjf := by
    rw [(inPlace_setChunk hblock).registered_iff] at hi hj
    have hin : ∀ k, k = h → ((s.setChunk h c).chunks k).inUse = false → k ∈ holes' := by
      intro k hk hf
      rw [hk, setChunk_self] at hf
      rw [hf] at hc
      exact hk ▸ hc.resolve_left Bool.false_ne_true
    by_cases hih : i = h
    · exact .inl (hin i hih hif)
    · by_cases hjh : j = h
      · exact .inr (hin j hjh hjf)
      · rw [setChunk_of_ne hih] at hn hif
        rw [setChunk_of_ne hjh] at hjf
        exact (ht.apart i j hi hj hn hif hjf).imp (fun hm => hholes i hm hih)
          fun hm => hholes j hm hjh

theorem chunks_setChunk_freedAtCount (s : Heap) (h j : ChunkHandle) (n : Nat) :
    ∃ m, (s.setChunk h { s.chunks h with freedAtCount := n }).chunks j =
      { s.chunks j with freedAtCount := m } := by
  by_cases hjh : j = h
  · exact ⟨n, by rw [hjh, setChunk_self]⟩
  · exact ⟨(s.chunks j).freedAtCount, by rw [setChunk_of_ne hjh]⟩

theorem Inv.setChunk_freedAtCount (hs : s.Inv holes) (hr : s.Registered h) (n : Nat) :
    (s.setChunk h { s.chunks h with freedAtCount := n }).Inv holes := by
  have hin : InPlace s (s.setChunk h { s.chunks h with freedAtCount := n }) h :=
    inPlace_setChunk rfl
  refine ⟨hin.mapped hr hs.toMapped, ?_, hin.recycled hr hs.recycled⟩
  refine hs.toBinned.frame rfl (fun _ _ _ => id) (fun j _ => ?_)
    (fun j _ => hin.registered_iff j) (fun _ _ => .rfl) fun _ hj => hj.elim
  obtain ⟨m, hm⟩ := chunks_setChunk_freedAtCount s h j n
  rw [hm]
  exact ⟨rfl, rfl, rfl, rfl⟩

/-! ## Bytes in use -/

def bytesOf (c : Chunk) : Nat := if c.inUse then c.size else 0

def bytesInUse (s : Heap) : Nat := ∑ h ∈ Finset.range s.numChunks, bytesOf (s.chunks h)

theorem Mapped.not_inUse (hs : s.Mapped) (hh : s.numChunks ≤ h) : (s.chunks h).inUse = false := by
  cases hu : (s.chunks h).inUse with
  | false => rfl
  | true => exact absurd (hs.valid (hs.inUse_registered hu)) (not_lt.mpr hh)

theorem KeepsUse.bytesInUse_eq (hk : KeepsUse s s') (hs : s.Mapped) :
    s'.bytesInUse = s.bytesInUse := by
  have hsame : ∀ h, bytesOf (s'.chunks h) = bytesOf (s.chunks h) := by
    intro h
    rw [bytesOf, bytesOf, hk.inUse h]
    split
    next hu => exact hk.size h hu
    · rfl
  rw [bytesInUse, bytesInUse, sum_congr rfl fun h _ => hsame h]
  refine (sum_subset (range_subset_range.mpr hk.numChunks) fun h _ hh => ?_).symm
  rw [bytesOf, hs.not_inUse (by simpa using hh)]
  rfl

theorem bytesInUse_setChunk (hv : h < s.numChunks) :
    (s.setChunk h c).bytesInUse + bytesOf (s.chunks h) = s.bytesInUse + bytesOf c := by
  have hmem := mem_range.mpr hv
  have hrest : ∑ j ∈ (range s.numChunks).erase h, bytesOf ((s.setChunk h c).chunks j) =
      ∑ j ∈ (range s.numChunks).erase h, bytesOf (s.chunks j) :=
    sum_congr rfl fun j hj => by rw [setChunk_of_ne (ne_of_mem_erase hj)]
  show ∑ j ∈ range s.numChunks, _ + _ = ∑ j ∈ range s.numChunks, _ + _
  rw [← sum_erase_add _ _ hmem, ← sum_erase_add _ _ hmem, hrest, setChunk_self]
  omega

theorem Mapped.exists_bytes (hs : s.Mapped) (S : Finset ChunkHandle)
    (hS : ∀ h ∈ S, s.Registered h) :
    ∃ F : Finset Nat, F.card = ∑ h ∈ S, (s.chunks h).size ∧ ∀ a ∈ F, s.owns a := by
  obtain ⟨F, hcard, hF⟩ := hs.tiled.exists_bytes S hS
  refine ⟨F, hcard, fun a ha => ?_⟩
  obtain ⟨lo, hi, ⟨r, hr, rfl, rfl⟩, h1, h2⟩ := hF a ha
  exact ⟨r, hr, h1, h2⟩

theorem Mapped.exists_bytes_inUse (hs : s.Mapped) :
    ∃ F : Finset Nat, F.card = s.bytesInUse ∧ ∀ a ∈ F, s.owns a := by
  obtain ⟨F, hcard, hF⟩ := hs.exists_bytes
    ((range s.numChunks).filter fun h => (s.chunks h).inUse = true)
    fun h hh => hs.inUse_registered (mem_filter.mp hh).2
  refine ⟨F, ?_, hF⟩
  rw [hcard, sum_filter]
  rfl

end Heap
end TfReading.Bfc
