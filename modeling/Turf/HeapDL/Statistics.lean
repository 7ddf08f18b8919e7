import Turf.HeapDL.Aligned

/-!
# What the statistics count

The traversal of `internal_malloc_stats` adds up the sizes of the blocks and nothing else: it
passes over free chunks and over the segment records, and stops at `top` and at fenceposts.
-/
namespace Turf.HeapDL

open Turf.Lib.Extents

variable {c : Config} {m : MallocState} {s : Segment} {i : Nat}

/-- The bytes of the chunks in use. -/
def MallocState.blockBytes (m : MallocState) : Nat := total Prod.snd m.blocks

theorem usedFrom_chunks {sc : Option Nat} {tail : List Cell} {chunks : List Chunk} {q : Nat}
    (hbase : s.base ≤ q) (hpos : ∀ x ∈ chunks, 0 < x.size)
    (hend : q + total Chunk.size chunks ≤ s.base + s.size)
    (htop : ∀ a, s.base ≤ a → a < q + total Chunk.size chunks → a ≠ m.top)
    (hsc : ∀ a, a < q + total Chunk.size chunks → sc ≠ some a) :
    m.usedFrom c s sc q (chunks.map .chunk ++ tail) =
      total Prod.snd (marked Chunk.size Chunk.isInuse q chunks) +
        m.usedFrom c s sc (q + total Chunk.size chunks) tail := by
  induction chunks generalizing q with
  | nil => simp
  | cons x xs ih =>
    obtain ⟨hx, hxs⟩ := List.forall_mem_cons.mp hpos
    rw [total_cons] at hend htop hsc
    have hq : q < q + (x.size + total Chunk.size xs) := by omega
    have hholds : s.holds q := ⟨hbase, by omega⟩
    have hstep := ih (q := q + x.size) (by omega) hxs (by omega)
      (by rw [Nat.add_assoc]; exact htop) (by rw [Nat.add_assoc]; exact hsc)
    have hne : Cell.chunk x ≠ .fencepost := by simp
    have hsize : (Cell.chunk x).size c = x.size := rfl
    have huse : (Cell.chunk x).isInuse = x.isInuse := rfl
    rw [List.map_cons, List.cons_append, MallocState.usedFrom,
      if_pos ⟨hholds, htop q hbase hq, hne⟩, hsize, huse, hstep, total_cons, marked, Nat.add_assoc q]
    by_cases h : x.isInuse = true
    · simp [h, hsc q hq, Nat.add_assoc]
    · simp [h]

theorem usedIn_eq (w : WF c m) (hi : m.segs[i]? = some s) :
    m.usedIn c s i = total Prod.snd s.blocks := by
  have hc := constants c
  have hsound := w.sound s (List.mem_of_getElem? hi)
  have hfoot := hsound.foot
  have hpos : ∀ x ∈ s.chunks, 0 < x.size := by
    intro x hx
    have h := hsound.sizes x hx
    omega
  have htrail : s.base + total Chunk.size s.chunks = s.trailer := rfl
  have hend : s.base + total Chunk.size s.chunks ≤ s.base + s.size := by
    unfold Segment.total at hfoot
    omega
  unfold MallocState.usedIn MallocState.cells
  by_cases h0 : i = 0
  · -- the traversal of the first segment stops at `top`
    subst h0
    have htop : m.top = s.trailer := by
      cases hs : m.segs with
      | nil => simp [hs] at hi
      | cons s₀ others =>
        obtain rfl : s₀ = s := by simpa [hs] using hi
        simp [MallocState.top, hs]
    rw [if_pos rfl, if_pos rfl, usedFrom_chunks le_rfl hpos hend (by intro a _ ha; omega) (by simp),
      htrail, MallocState.usedFrom, if_neg (by simp [htop])]
    rfl
  · -- elsewhere it passes over the record and stops at a fencepost
    have hnotop : ∀ a, s.base ≤ a → a < s.base + total Chunk.size s.chunks → a ≠ m.top := by
      intro a ha hlt heq
      subst heq
      exact h0 (top_in_first w hi ⟨ha, by omega⟩)
    rw [if_neg h0, if_neg h0, usedFrom_chunks le_rfl hpos hend hnotop
      (by intro a ha; simp; omega), htrail]
    have hfence : ∀ q, m.usedFrom c s (some s.trailer) q (fenceposts c s) = 0 := by
      intro q
      rw [fenceposts, Nat.add_comm 1, List.replicate_succ, MallocState.usedFrom, if_neg (by simp)]
    rw [MallocState.usedFrom]
    simp only [hfence]
    simp [Segment.blocks]

/-- `getStats` counts the bytes of the blocks, as far as `size_t` goes. -/
theorem inUseBytes_eq (w : WF c m) :
    (internalMallocStats c m).inUseBytes = m.blockBytes % modulus c := by
  unfold internalMallocStats
  split
  · next hs => simp [MallocState.blockBytes, MallocState.blocks, hs]
  · have hused : total (fun si => m.usedIn c si.1 si.2) m.segs.zipIdx =
        total (fun si => total Prod.snd si.1.blocks) m.segs.zipIdx := by
      apply total_congr
      intro si hsi
      exact usedIn_eq w (List.mem_zipIdx_iff_getElem?.mp hsi)
    have hfst : total (fun si => total Prod.snd si.1.blocks) m.segs.zipIdx =
        total (fun s : Segment => total Prod.snd s.blocks) (m.segs.zipIdx.map Prod.fst) :=
      (total_map (fun s : Segment => total Prod.snd s.blocks) Prod.fst m.segs.zipIdx).symm
    rw [hused, hfst, List.zipIdx_map_fst, MallocState.blockBytes, MallocState.blocks, total_flatMap]
    rfl

variable {m' : MallocState} {gone added : List (Nat × Nat)}

/-- How an operation changes the bytes in use. -/
theorem Becomes.bytes (h : Becomes c m m' gone added) :
    m'.blockBytes + total Prod.snd gone = m.blockBytes + total Prod.snd added := by
  have hsum := total_perm Prod.snd h.blocks
  rwa [total_append, total_append] at hsum

end Turf.HeapDL
