import Turf.HeapDL.System

/-!
# Freeing, trimming and unmapping

Whatever goes back to the system holds no block: the tail of top, or a segment whose first
chunk is free and leaves room for the trailer only.
-/
namespace Turf.HeapDL

open Turf.Lib.Extents

variable {c : Config} {m m' : MallocState} {s : Segment} {p n : Nat}

/-- A segment that its first chunk spans has no other chunk. -/
theorem spanned_blocks {least : Nat} (h : s.Sound c least) {x : Chunk} {more : List Chunk}
    (hs : s.chunks = x :: more) (hfree : x.isInuse = false)
    (hspan : s.base + s.size - topFootSize c ≤ s.base + x.size) : s.blocks = [] := by
  have hfoot := h.foot
  have htotal : s.total = x.size + total Chunk.size more := by simp [Segment.total, hs]
  have hmore : more = [] := by
    cases more with
    | nil => rfl
    | cons y ys =>
      have hy := h.sizes y (by simp [hs])
      have hpos := minChunkSize_pos c
      rw [total_cons] at htotal
      omega
  simp [Segment.blocks, hs, hmore, hfree]

theorem releaseLoop_spec (ans : Answers) {least : Nat} {others : List Segment}
    (h : ∀ s ∈ others, s.Sound c least) :
    (∀ s ∈ (releaseLoop c ans others).1, s.Sound c least) ∧
      ((releaseLoop c ans others).1.map Segment.extent).Sublist (others.map Segment.extent) ∧
      (releaseLoop c ans others).1.flatMap Segment.blocks = others.flatMap Segment.blocks := by
  induction others with
  | nil => exact ⟨h, .slnil, rfl⟩
  | cons s rest ih =>
    obtain ⟨hs, hrest⟩ := List.forall_mem_cons.mp h
    obtain ⟨hsound, hsub, hblocks⟩ := ih hrest
    have hkeep : ∀ t : Segment, t.Sound c least → t.extent = s.extent → t.blocks = s.blocks →
        (∀ u ∈ t :: (releaseLoop c ans rest).1, u.Sound c least) ∧
          ((t :: (releaseLoop c ans rest).1).map Segment.extent).Sublist
            ((s :: rest).map Segment.extent) ∧
          (t :: (releaseLoop c ans rest).1).flatMap Segment.blocks =
            (s :: rest).flatMap Segment.blocks := by
      intro t ht hext htb
      refine ⟨List.forall_mem_cons.mpr ⟨ht, hsound⟩, ?_, ?_⟩
      · simpa [hext] using hsub
      · simp [htb, hblocks]
    rw [releaseLoop]
    split
    · exact hkeep s hs rfl rfl
    · next x more hchunks =>
      split
      · next hcond =>
        obtain ⟨hx, hspan⟩ := Bool.and_eq_true_iff.mp hcond
        have hx : x.isInuse = false := by simpa using hx
        have hb := spanned_blocks hs hchunks hx (by simpa using hspan)
        split
        · refine ⟨hsound, hsub.cons _, ?_⟩
          rw [List.flatMap_cons, hb, List.nil_append]
          exact hblocks
        · have hstate : Chunk.isInuse { x with state := .binned } = false := rfl
          apply hkeep
          · refine ⟨?_, ?_, hs.bound, hs.least⟩
            · have hsizes := hs.sizes
              rw [hchunks] at hsizes
              simpa using hsizes
            · have hfoot := hs.foot
              unfold Segment.total at *
              rw [hchunks] at hfoot
              exact hfoot
          · rfl
          · simp [Segment.blocks, hchunks, marked, hstate, hx]
      · exact hkeep s hs rfl rfl

theorem releaseUnusedSegments_becomes (w : WF c m) (ans : Answers) :
    Becomes c m (m.releaseUnusedSegments c ans).1 [] [] := by
  unfold MallocState.releaseUnusedSegments
  split
  · exact SameHeap.becomes ⟨rfl, rfl, rfl, rfl, rfl, rfl⟩ w rfl
  · next s others hs =>
    have hsound := w.sound
    have htop := w.top
    have hap := w.apart
    rw [hs] at hsound htop hap
    obtain ⟨hs₀, hothers⟩ := List.forall_mem_cons.mp hsound
    obtain ⟨hrest, hsub, hblocks⟩ := releaseLoop_spec ans hothers
    refine ⟨⟨?_, htop, ?_, ?_, w.direct, w.mflags, w.limit⟩, ?_, rfl⟩
    · exact List.forall_mem_cons.mpr ⟨hs₀, hrest⟩
    · exact hap.sublist (hsub.cons_cons _)
    · intro h
      cases h
    · unfold Segment.blocks at hblocks
      simp [MallocState.blocks, hs, hblocks]

theorem shrinkTop_becomes (w : WF c m) (pad : Nat) (ans : Answers) :
    Becomes c m (m.shrinkTop c pad ans).1 [] [] := by
  unfold MallocState.shrinkTop
  split
  · exact .refl w
  · next sp others hs =>
    simp only
    split
    · next hcond =>
      have hi : m.segs[0]? = some sp := by rw [hs]; rfl
      have hroom := w.top sp (by simp [hs])
      have hsound := w.sound sp (by simp [hs])
      have hextra : ((m.topsize - pad + (granularity c - 1)) / granularity c - 1) *
          granularity c ≤ m.topsize - pad := by
        have hg := granularity_pos c
        have h := Nat.div_mul_le_self (m.topsize - pad + (granularity c - 1)) (granularity c)
        rw [Nat.sub_mul, Nat.one_mul]
        omega
      generalize ((m.topsize - pad + (granularity c - 1)) / granularity c - 1) *
        granularity c = extra at hextra hcond ⊢
      have hset : Becomes c m { m with
          segs := m.segs.set 0 { sp with size := sp.size - extra }
          topsize := m.topsize - extra } [] [] := by
        refine Becomes.of_set (w.set hi ⟨hsound.sizes, ?_, ?_, hsound.least⟩ ?_ ?_
          (fun h => absurd rfl h)) hi (.refl _)
        · unfold Segment.total at *
          simp only
          omega
        · have hbound := hsound.bound
          simp only
          omega
        · intro j u hj hu
          have hap := w.apart_of hi hu hj
          unfold Apart Segment.extent at *
          simp only at *
          omega
        · intro _
          unfold Segment.total at *
          simp only
          omega
      refine hset.congr ⟨?_, rfl, rfl, rfl, rfl, rfl⟩ rfl
      simp [hs]
    · exact .refl w

theorem sysTrim_becomes (w : WF c m) (pad : Nat) (ans : Answers) :
    Becomes c m (m.sysTrim c pad ans) [] [] := by
  unfold MallocState.sysTrim
  split
  · have hshrink := shrinkTop_becomes w (pad + topFootSize c) ans
    have h := hshrink.trans (releaseUnusedSegments_becomes hshrink.wf ans)
    simp only
    split
    · exact h.congr ⟨rfl, rfl, rfl, rfl, rfl, rfl⟩ rfl
    · exact h
  · exact .refl w

theorem afterFree_becomes (w : WF c m) (landing : Landing) (ans : Answers) :
    Becomes c m (m.afterFree c landing ans) [] [] := by
  unfold MallocState.afterFree
  split
  · split
    · exact sysTrim_becomes w 0 ans
    · exact .refl w
  · exact .refl w
  · split
    · exact .refl w
    · simp only
      have hcount : SameHeap m
          { m with releaseChecks := (m.releaseChecks + maxSizeT c) % modulus c } :=
        ⟨rfl, rfl, rfl, rfl, rfl, rfl⟩
      have h := hcount.becomes w rfl
      split
      · exact h.trans (releaseUnusedSegments_becomes h.wf ans)
      · exact h

theorem subInUse_same (c : Config) (m : MallocState) (n : Nat) : SameHeap m (m.subInUse c n) := by
  unfold MallocState.subInUse
  split <;> exact ⟨rfl, rfl, rfl, rfl, rfl, rfl⟩

/-- Freeing a block takes it away and lowers the counter by its size. -/
theorem dlfree_spec (w : WF c m) (h : (p, n) ∈ m.blocks) (ans : Answers) :
    ∃ m', m.dlfree c (chunk2mem c p) ans = some m' ∧
      Becomes c (m.subInUse c n) m' [(p, n)] [] := by
  obtain ⟨st, hst, hin, haddr, hc⟩ := inuseAt_block w h
  obtain ⟨s, hs, hbase, -, hmin⟩ := mem_blocks_bounds w h
  have hleast := (w.sound s hs).least
  have hconst := constants c
  have hlt := block_lt w h
  have hmem : chunk2mem c p ≠ 0 := by
    unfold chunk2mem
    omega
  simp only at hbase hmin
  have hp : p < modulus c := by omega
  have hsize : st.chunk.size = n := by rw [hc]
  have hsub := subInUse_same c m n
  have hin' : st.In (m.subInUse c n) := ⟨by rw [hsub.segs]; exact hin.seg, hin.chunks⟩
  have hcons := consolidate_spec (w.congr hsub) hin' (by rw [hc]; rfl)
  rw [haddr, hsize] at hcons
  have hafter := afterFree_becomes hcons.wf ((m.subInUse c n).consolidate st).2 ans
  refine ⟨_, ?_, hcons.trans hafter⟩
  rw [MallocState.dlfree, if_neg hmem, mem2chunk_chunk2mem hp]
  simp only
  rw [if_neg (by omega)]
  simp [hst, hsize]

theorem disposeChunk_spec (w : WF c m) (h : (p, n) ∈ m.blocks) :
    ∃ m', m.disposeChunk p = some m' ∧ Becomes c m m' [(p, n)] [] := by
  obtain ⟨st, hst, hin, haddr, hc⟩ := inuseAt_block w h
  have hsize : st.chunk.size = n := by rw [hc]
  have hcons := consolidate_spec w hin (by rw [hc]; rfl)
  rw [haddr, hsize] at hcons
  exact ⟨_, by rw [MallocState.disposeChunk, hst]; rfl, hcons⟩

end Turf.HeapDL
