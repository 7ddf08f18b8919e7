import Turf.HeapDL.Chunks

/-!
# Serving a request

Every branch of `dlmalloc` that finds memory adds one block, large enough for the padded
request, and leaves the other blocks alone.
-/
namespace Turf.HeapDL

open Turf.Lib.Extents

variable {c : Config} {m m' : MallocState} {s : Segment} {i nb tbase tsize : Nat} {st : Site}

/-- The result is a new block of at least `nb` bytes. -/
def Serves (c : Config) (m : MallocState) (nb : Nat) (r : MallocState × Nat) : Prop :=
  ∃ p n, r.2 = chunk2mem c p ∧ nb ≤ n ∧ Becomes c m r.1 [] [(p, n)]

theorem Serves.after {r : MallocState × Nat} (h : Becomes c m m' [] []) (hs : Serves c m' nb r) :
    Serves c m nb r := by
  obtain ⟨p, n, hp, hn, hb⟩ := hs
  exact ⟨p, n, hp, hn, h.trans hb⟩

@[simp] theorem retireDv_size (x : Chunk) : x.retireDv.size = x.size := by
  unfold Chunk.retireDv
  split <;> rfl

@[simp] theorem retireDv_isInuse (x : Chunk) : x.retireDv.isInuse = x.isInuse := by
  unfold Chunk.retireDv Chunk.isDv
  split
  · next h =>
    have h : x.state = .dv := by simpa using h
    simp [Chunk.isInuse, h]
  · rfl

theorem retireDv_total (chunks : List Chunk) :
    total Chunk.size (chunks.map Chunk.retireDv) = total Chunk.size chunks := by
  rw [total_map]
  exact total_congr _ fun x _ => retireDv_size x

theorem retireDv_becomes (w : WF c m) : Becomes c m m.retireDv [] [] := by
  have htotal : ∀ s : Segment,
      Segment.total { s with chunks := s.chunks.map Chunk.retireDv } = s.total :=
    fun s => retireDv_total s.chunks
  have hblocks : m.retireDv.blocks = m.blocks := by
    unfold MallocState.blocks MallocState.retireDv
    rw [List.flatMap_map]
    congr 1
    funext s
    exact marked_map Chunk.size Chunk.isInuse retireDv_size retireDv_isInuse s.base s.chunks
  refine ⟨⟨?_, ?_, ?_, ?_, w.direct, w.mflags, w.limit⟩, by simp [hblocks], rfl⟩
  · intro t ht
    obtain ⟨s, hs, rfl⟩ := List.mem_map.mp ht
    have h := w.sound s hs
    refine ⟨?_, by rw [htotal]; exact h.foot, h.bound, h.least⟩
    intro x hx
    obtain ⟨y, hy, rfl⟩ := List.mem_map.mp hx
    rw [retireDv_size]
    exact h.sizes y hy
  · intro t ht
    obtain ⟨s, hs, rfl⟩ : ∃ s, m.segs.head? = some s ∧
        { s with chunks := s.chunks.map Chunk.retireDv } = t := by
      simpa [MallocState.retireDv, List.head?_map] using ht
    rw [htotal]
    exact w.top s hs
  · have hmap : m.retireDv.segs.map Segment.extent = m.segs.map Segment.extent := by
      simp [MallocState.retireDv, Segment.extent, Function.comp_def]
    rw [hmap]
    exact w.apart
  · intro h
    exact w.uninitialized (List.map_eq_nil_iff.mp h)

/-- A free chunk that serves a request whole. -/
theorem Site.In.whole (hin : st.In m) (w : WF c m) (hfree : st.chunk.isInuse = false)
    (hnb : nb ≤ st.chunk.size) :
    Serves c m nb (m.write st (st.left ++ ⟨st.chunk.size, .inuse⟩ :: st.right),
      chunk2mem c st.address) := by
  have hmin := hin.size_ge w
  have h := hin.recut w [⟨st.chunk.size, .inuse⟩] (by simp) (by simpa using hmin)
  refine ⟨st.address, st.chunk.size, rfl, hnb, ?_⟩
  simpa [hfree] using h

/-- A free chunk that is split for a request. -/
theorem Site.In.divided (hin : st.In m) (w : WF c m) (hfree : st.chunk.isInuse = false)
    (hmin : minChunkSize c ≤ nb) (hnb : nb + minChunkSize c ≤ st.chunk.size) (rest : Chunk)
    (hrest : rest.size = st.chunk.size - nb) (hinuse : rest.isInuse = false) :
    Serves c m nb (m.write st (st.left ++ ⟨nb, .inuse⟩ :: rest :: st.right),
      chunk2mem c st.address) := by
  have h := hin.recut w [⟨nb, .inuse⟩, rest] (by simp; omega) (by simp; omega)
  refine ⟨st.address, nb, rfl, le_rfl, ?_⟩
  simpa [hfree, hinuse, marked] using h

theorem takeBinned_serves (hin : st.In m) (w : WF c m) (hfree : st.chunk.isInuse = false)
    (hmin : minChunkSize c ≤ nb) (hnb : nb ≤ st.chunk.size) (small : Bool) :
    Serves c m nb (m.takeBinned c small nb st, chunk2mem c st.address) := by
  unfold MallocState.takeBinned
  simp only
  split
  · exact hin.whole w hfree hnb
  · split
    · -- the old designated victim is binned first
      have hret := retireDv_becomes w
      have hin' : Site.In
          ⟨st.index, { st.seg with chunks := st.seg.chunks.map Chunk.retireDv },
            st.left.map Chunk.retireDv, st.chunk.retireDv, st.right.map Chunk.retireDv⟩
          m.retireDv := by
        constructor
        · simp [MallocState.retireDv, hin.seg]
        · simp [hin.chunks]
      have haddr : st.seg.base + total Chunk.size (st.left.map Chunk.retireDv) = st.address := by
        rw [retireDv_total, Site.address]
      have h := hin'.divided hret.wf (by simpa using hfree) hmin (by simp; omega)
        ⟨st.chunk.size - nb, .dv⟩ (by simp) rfl
      rw [Site.address, haddr] at h
      exact h.after hret
    · exact hin.divided w hfree hmin (by omega) _ rfl rfl

theorem takeDv_serves (hin : st.In m) (w : WF c m) (hfree : st.chunk.isInuse = false)
    (hmin : minChunkSize c ≤ nb) (hnb : nb ≤ st.chunk.size) :
    Serves c m nb (m.takeDv c nb st, chunk2mem c st.address) := by
  unfold MallocState.takeDv
  simp only
  split
  · exact hin.divided w hfree hmin (by omega) _ rfl rfl
  · exact hin.whole w hfree hnb

theorem splitTop_serves (w : WF c m) (hmin : minChunkSize c ≤ nb) (hnb : nb < m.topsize) :
    Serves c m nb (m.splitTop nb, chunk2mem c m.top) := by
  cases hs : m.segs with
  | nil =>
    rw [w.uninitialized hs] at hnb
    cases hnb
  | cons s others =>
    have hi : m.segs[0]? = some s := by rw [hs]; rfl
    have h := w.retop hi (by simp : s.chunks = s.chunks ++ []) [⟨nb, .inuse⟩] (m.topsize - nb)
      (by simp; omega) (by simpa using hmin)
    refine ⟨m.top, nb, rfl, le_rfl, ?_⟩
    have hsplit : m.splitTop nb = { m with
        segs := m.segs.set 0 { s with chunks := s.chunks ++ [⟨nb, .inuse⟩] }
        topsize := m.topsize - nb } := by
      simp [MallocState.splitTop, hs]
    have htop : m.top = s.base + total Chunk.size s.chunks := by
      simp [MallocState.top, hs, Segment.trailer, Segment.total]
    rw [hsplit, htop]
    simpa [Chunk.isInuse] using h

theorem allocFromTop_serves (w : WF c m) (hmin : minChunkSize c ≤ nb) (hnb : nb < m.topsize) :
    Serves c m nb (m.allocFromTop c nb) := by
  rw [MallocState.allocFromTop, if_pos hnb]
  exact splitTop_serves w hmin hnb

end Turf.HeapDL
