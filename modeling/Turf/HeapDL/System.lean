import Turf.HeapDL.Serving

/-!
# Memory from the system

A mapping that the system grants starts the heap, extends its top, grows a segment downwards or
becomes a segment of its own; in each case the request is served from it.
-/
namespace Turf.HeapDL

open Turf.Lib.Extents

variable {c : Config} {m m' : MallocState} {s : Segment} {i nb tbase tsize : Nat}

/-- Top lies in the first segment and in no other. -/
theorem top_in_first (w : WF c m) (hi : m.segs[i]? = some s) (h : s.holds m.top) : i = 0 := by
  by_contra hne
  cases hs : m.segs with
  | nil => simp [hs] at hi
  | cons s₀ others =>
    have h₀ : m.segs[0]? = some s₀ := by rw [hs]; rfl
    have hap := w.apart_of h₀ hi hne
    have hfoot := (w.sound s₀ (List.mem_of_getElem? h₀)).foot
    have hpos := constants c
    have htop : m.top = s₀.trailer := by simp [MallocState.top, hs]
    unfold Segment.holds at h
    unfold Apart Segment.extent at hap
    rw [htop, Segment.trailer] at h
    simp only at hap
    omega

/-- What a grant and the segments of the heap have to do with each other. -/
theorem apart_union (w : WF c m) {u : Segment} (hu : u ∈ m.segs) {a b k : Nat}
    (h₁ : Apart u.extent (a, b)) (h₂ : Apart u.extent (a + b, k)) : Apart u.extent (a, b + k) := by
  have hfoot := (w.sound u hu).foot
  have hpos := constants c
  unfold Apart Segment.extent at *
  simp only at *
  omega

theorem firstMapping (w : WF c m) (hs : m.segs = []) (hg : Grant c m tbase tsize)
    (hsize : topFootSize c ≤ tsize) {least : Nat} (hleast : least ≤ tbase) :
    Becomes c m { m with
      segs := [⟨tbase, tsize, []⟩], topsize := tsize - topFootSize c, leastAddr := least }
      [] [] := by
  refine ⟨⟨?_, ?_, ?_, ?_, w.direct, w.mflags, w.limit⟩, ?_, rfl⟩
  · intro t ht
    obtain rfl := List.mem_singleton.mp ht
    exact ⟨by simp, by simpa [Segment.total] using hsize, hg.2.2.1, hleast⟩
  · intro t ht
    obtain rfl : (⟨tbase, tsize, []⟩ : Segment) = t := by simpa using ht
    simp [Segment.total]
    omega
  · exact List.pairwise_singleton _ _
  · intro h
    cases h
  · simp [MallocState.blocks, hs]

/-- A mapping right behind the first segment extends `top`. -/
theorem appendMapping (w : WF c m) (hi : m.segs[i]? = some s) (htop : s.holds m.top)
    (hg : Grant c m tbase tsize) (hbase : tbase = s.base + s.size) :
    Becomes c m { m with
      segs := m.segs.set i { s with size := s.size + tsize }, topsize := m.topsize + tsize }
      [] [] := by
  have h0 := top_in_first w hi htop
  subst h0
  have hsound := w.sound s (List.mem_of_getElem? hi)
  have hroom := w.top_first hi
  have hbound := hg.2.2.1
  have hfoot := hsound.foot
  refine Becomes.of_set (w.set (t := { s with size := s.size + tsize }) hi
    ⟨hsound.sizes, ?_, ?_, hsound.least⟩ ?_ ?_ ?_) hi (.refl _)
  · unfold Segment.total at *
    simp only
    omega
  · simp only
    omega
  · intro j u hj hu
    have hmem := List.mem_of_getElem? hu
    apply apart_union w hmem (w.apart_of hi hu hj)
    rw [← hbase]
    exact symm (hg.2.2.2 u hmem)
  · intro _
    unfold Segment.total at *
    simp only
    omega
  · exact fun h => absurd rfl h

theorem prependChunks_total {chunks : List Chunk} {k q : Nat} :
    total Chunk.size (prependChunks k q chunks) = k + q + total Chunk.size chunks := by
  unfold prependChunks
  split
  · simp
  · split <;> simp <;> omega

theorem prependChunks_sizes {chunks : List Chunk} {k q : Nat} (hk : minChunkSize c ≤ k)
    (hq : minChunkSize c ≤ q) (h : ∀ x ∈ chunks, minChunkSize c ≤ x.size) :
    ∀ x ∈ prependChunks k q chunks, minChunkSize c ≤ x.size := by
  unfold prependChunks
  split
  · simp [hk, hq]
  · next oldfirst rest =>
    obtain ⟨hf, hr⟩ := List.forall_mem_cons.mp h
    split
    · simpa [hk, hq, hf] using hr
    · simp only [List.forall_mem_cons]
      exact ⟨hk, by omega, hr⟩

theorem prependChunks_marked {chunks : List Chunk} {b k q : Nat} :
    marked Chunk.size Chunk.isInuse b (prependChunks k q chunks) =
      (b, k) :: marked Chunk.size Chunk.isInuse (b + k + q) chunks := by
  have hb : ∀ n, Chunk.isInuse ⟨n, .binned⟩ = false := fun n => rfl
  unfold prependChunks
  split
  · simp [marked, hb]
  · next oldfirst rest =>
    split
    · simp [marked, hb]
    · next h =>
      have h : oldfirst.isInuse = false := by simpa using h
      have h' : Chunk.isInuse { oldfirst with size := q + oldfirst.size } = false := h
      simp [marked, h, h', Nat.add_assoc]

theorem prependAlloc_serves (w : WF c m) (hi : m.segs[i]? = some s) (hg : Grant c m tbase tsize)
    (hbase : s.base = tbase + tsize) (hleast : m.leastAddr ≤ tbase) (hmin : minChunkSize c ≤ nb)
    (hnb : nb + sysAllocPadding c ≤ tsize) :
    Serves c m nb (m.prependAlloc tbase tsize nb i s, chunk2mem c tbase) := by
  have hc := constants c
  have hpad : sysAllocPadding c = topFootSize c + mallocAlignment c := rfl
  have hsound := w.sound s (List.mem_of_getElem? hi)
  have hfoot := hsound.foot
  have hbound := hsound.bound
  have hext : ∀ j u, j ≠ i → m.segs[j]? = some u →
      Apart u.extent (tbase, tsize + s.size) := by
    intro j u hj hu
    have hmem := List.mem_of_getElem? hu
    apply apart_union w hmem (symm (hg.2.2.2 u hmem))
    rw [← hbase]
    exact w.apart_of hi hu hj
  refine ⟨tbase, nb, rfl, le_rfl, ?_⟩
  unfold MallocState.prependAlloc
  simp only
  split
  · next htop =>
    -- the first segment has no chunks, and `top` takes the rest
    have hholds : s.holds m.top := by
      unfold Segment.holds
      omega
    have h0 := top_in_first w hi hholds
    subst h0
    have hroom := w.top_first hi
    have hnone : s.chunks = [] := by
      have htrail : m.top = s.trailer := by
        cases hs : m.segs with
        | nil => simp [hs] at hi
        | cons s₀ others =>
          obtain rfl : s₀ = s := by simpa [hs] using hi
          simp [MallocState.top, hs]
      rw [htrail, Segment.trailer] at htop
      cases hch : s.chunks with
      | nil => rfl
      | cons x xs =>
        have hx := hsound.sizes x (by simp [hch])
        have htot : s.total = x.size + total Chunk.size xs := by simp [Segment.total, hch]
        omega
    have htot : s.total = 0 := by simp [Segment.total, hnone]
    refine Becomes.of_set (w.set
      (t := ⟨tbase, s.size + tsize, ⟨nb, .inuse⟩ :: s.chunks⟩) hi ⟨?_, ?_, ?_, hleast⟩ ?_ ?_ ?_) hi ?_
    · simpa [hnone] using hmin
    · simp [Segment.total, hnone]
      omega
    · simp only
      omega
    · intro j u hj hu
      rw [Segment.extent, Nat.add_comm]
      exact hext j u hj hu
    · intro _
      simp [Segment.total, hnone]
      omega
    · exact fun h => absurd rfl h
    · simp [Segment.blocks, hnone, marked]
  · have htotal : total Chunk.size (prependChunks nb (tsize - nb) s.chunks) = tsize + s.total := by
      rw [prependChunks_total, Segment.total]
      omega
    refine Becomes.of_set (w.set
      (t := ⟨tbase, s.size + tsize, prependChunks nb (tsize - nb) s.chunks⟩) hi
      ⟨?_, ?_, ?_, hleast⟩ ?_ ?_ (fun _ => rfl)) hi ?_
    · exact prependChunks_sizes hmin (by omega) hsound.sizes
    · rw [Segment.total, htotal]
      simp only
      omega
    · simp only
      omega
    · intro j u hj hu
      rw [Segment.extent, Nat.add_comm]
      exact hext j u hj hu
    · intro h0
      subst h0
      have hroom := w.top_first hi
      rw [Segment.total, htotal]
      simp only
      omega
    · rw [Segment.blocks, prependChunks_marked,
        show tbase + nb + (tsize - nb) = s.base by omega, List.append_nil]
      exact (List.perm_append_singleton _ _).symm

theorem recordAddress_spec (s : Segment) :
    recordAddress c s = s.trailer ∨
      (s.trailer + minChunkSize c ≤ recordAddress c s ∧
        recordAddress c s + topFootSize c ≤ s.base + s.size) := by
  have hc := constants c
  have hmask : chunkAlignMask c = mallocAlignment c - 1 := rfl
  have hoff : ∀ a, alignOffset c a ≤ chunkAlignMask c := by
    intro a
    unfold alignOffset
    split
    · exact Nat.zero_le _
    · have h := Nat.mod_lt (mallocAlignment c - a % mallocAlignment c)
        (show 0 < mallocAlignment c by omega)
      omega
  unfold recordAddress
  simp only
  split
  · exact .inl rfl
  · right
    have h := hoff (chunk2mem c (s.base + s.size -
      (segmentRecordSize c + 4 * sizeT c + chunkAlignMask c)))
    omega

theorem closeSegment_blocks (s : Segment) : (closeSegment c s).blocks = s.blocks := by
  unfold closeSegment
  simp only
  split
  · have hb : ∀ n, Chunk.isInuse ⟨n, .binned⟩ = false := fun n => rfl
    simp [Segment.blocks, marked_append, hb]
  · rfl

theorem closeSegment_sound {least : Nat} (h : s.Sound c least) :
    (closeSegment c s).Sound c least ∧ (closeSegment c s).extent = s.extent := by
  unfold closeSegment
  simp only
  split
  · next hne =>
    rcases recordAddress_spec (c := c) s with heq | ⟨hlow, hhigh⟩
    · exact absurd heq hne
    · refine ⟨⟨?_, ?_, h.bound, h.least⟩, rfl⟩
      · intro x hx
        rcases List.mem_append.mp hx with hx | hx
        · exact h.sizes x hx
        · obtain rfl := List.mem_singleton.mp hx
          simp only
          omega
      · have htr : s.trailer = s.base + total Chunk.size s.chunks := rfl
        simp [Segment.total]
        omega
  · exact ⟨h, rfl⟩

/-- A mapping apart from all segments becomes the first one, with a new `top`. -/
theorem addMapping (w : WF c m) (hs : m.segs ≠ []) (hg : Grant c m tbase tsize)
    (hsize : topFootSize c ≤ tsize) (hleast : m.leastAddr ≤ tbase) :
    Becomes c m (m.addSegment c tbase tsize) [] [] := by
  cases hsegs : m.segs with
  | nil => exact absurd hsegs hs
  | cons s others =>
    have hadd : m.addSegment c tbase tsize =
        { m.initTop (tsize - topFootSize c) with
          segs := ⟨tbase, tsize, []⟩ :: closeSegment c s :: others } := by
      simp [MallocState.addSegment, hsegs]
    have hsound := w.sound
    have hap := w.apart
    rw [hsegs] at hsound hap
    obtain ⟨hs₀, hothers⟩ := List.forall_mem_cons.mp hsound
    obtain ⟨hclosed, hext⟩ := closeSegment_sound hs₀
    rw [hadd]
    refine ⟨⟨?_, ?_, ?_, ?_, w.direct, w.mflags, w.limit⟩, ?_, rfl⟩
    · simp only [List.forall_mem_cons]
      exact ⟨⟨by simp, by simpa [Segment.total] using hsize, hg.2.2.1, hleast⟩, hclosed, hothers⟩
    · intro t ht
      obtain rfl : (⟨tbase, tsize, []⟩ : Segment) = t := by simpa using ht
      simp [Segment.total, MallocState.initTop]
      omega
    · have hnew : ∀ e ∈ m.segs.map Segment.extent, Apart (tbase, tsize) e := by
        intro e he
        obtain ⟨u, hu, rfl⟩ := List.mem_map.mp he
        exact hg.2.2.2 u hu
      rw [hsegs] at hnew
      simp only [List.map_cons, hext] at hap hnew ⊢
      exact List.pairwise_cons.mpr ⟨hnew, hap⟩
    · intro h
      cases h
    · have hb := closeSegment_blocks (c := c) s
      unfold Segment.blocks at hb
      simp [MallocState.blocks, hsegs, hb]

theorem zipIdx_find_spec {q : Segment × Nat → Bool} {r : Segment × Nat}
    (h : m.segs.zipIdx.find? q = some r) : m.segs[r.2]? = some r.1 ∧ q r = true :=
  ⟨List.mem_zipIdx_iff_getElem?.mp (List.mem_of_find?_eq_some h), List.find?_some h⟩

theorem allocFromTop_after (h : Becomes c m m' [] []) (hmin : minChunkSize c ≤ nb)
    (hnb : nb < m'.topsize) : Serves c m nb (m'.allocFromTop c nb) :=
  (allocFromTop_serves h.wf hmin hnb).after h

theorem useMapping_serves (w : WF c m) (hg : Grant c m tbase tsize) (hmin : minChunkSize c ≤ nb)
    (hnb : nb + sysAllocPadding c ≤ tsize) : Serves c m nb (m.useMapping c nb tbase tsize) := by
  have hc := constants c
  have hpad : sysAllocPadding c = topFootSize c + mallocAlignment c := rfl
  have hfp : SameHeap m (m.addFootprint c tsize) := ⟨rfl, rfl, rfl, rfl, rfl, rfl⟩
  have hb := hfp.becomes w rfl
  generalize hm' : m.addFootprint c tsize = m' at hb
  have hg' : Grant c m' tbase tsize := by rw [← hm']; exact hg
  apply Serves.after hb
  unfold MallocState.useMapping
  simp only [hm']
  split
  · next hs =>
    generalize hl : (if m'.leastAddr = 0 then tbase else min tbase m'.leastAddr) = least
    have hle : least ≤ tbase := by
      rw [← hl]
      split
      · exact le_rfl
      · exact Nat.min_le_left _ _
    have h := firstMapping hb.wf hs hg' (by omega) hle
    refine allocFromTop_after (h.congr ?_ ?_) hmin ?_
    · exact ⟨rfl, rfl, rfl, rfl, rfl, rfl⟩
    · rfl
    · simp [MallocState.initTop]
      omega
  · next hs =>
    split
    · next s i hfind =>
      obtain ⟨hafter, hholds⟩ := Option.filter_eq_some_iff.mp hfind
      obtain ⟨hi, hend⟩ := zipIdx_find_spec hafter
      have h := appendMapping hb.wf hi (by simpa using hholds) hg' (by simpa using hend)
      refine allocFromTop_after (h.congr ?_ ?_) hmin ?_
      · exact ⟨rfl, rfl, rfl, rfl, rfl, rfl⟩
      · rfl
      · simp [MallocState.initTop]
        omega
    · have hlow := hb.wf.lower (Nat.min_le_right tbase m'.leastAddr)
      have hlowb : Becomes c m' { m' with leastAddr := min tbase m'.leastAddr } [] [] :=
        ⟨hlow, .refl _, rfl⟩
      apply Serves.after hlowb
      have hle : min tbase m'.leastAddr ≤ tbase := Nat.min_le_left _ _
      split
      · next s i hfind =>
        obtain ⟨hi, hend⟩ := zipIdx_find_spec hfind
        exact prependAlloc_serves hlow hi hg' (by simpa using hend) hle hmin hnb
      · have h := addMapping hlow hs hg' (by omega) hle
        apply allocFromTop_after h hmin
        cases hsegs : m'.segs with
        | nil => exact absurd hsegs hs
        | cons s others =>
          simp [MallocState.addSegment, MallocState.initTop]
          omega

theorem overLimit_false (w : WF c m) (n : Nat) : m.overLimit c n = false := by
  simp [MallocState.overLimit, w.limit]

theorem useMmap_false (w : WF c m) : m.useMmap = false := by
  simp [MallocState.useMmap, w.mflags]

/-- With the mapping of single chunks never enabled and no limit set, `sys_alloc` goes to an
ordinary mapping unless the padded request is too big for one. -/
theorem sysAlloc_eq (w : WF c m) (nb : Nat) (ans : Answers) :
    m.sysAlloc c nb ans =
      if sysAllocSize c nb ≤ nb then (m, 0)
      else ans.mmap.elim (m, 0) fun tbase => m.useMapping c nb tbase (sysAllocSize c nb) := by
  cases h : ans.mmap <;>
    simp [MallocState.sysAlloc, useMmap_false w, overLimit_false w, h]

/-- There is memory for a padded request: a binned chunk, the designated victim, `top`, or a
mapping that the system grants. -/
def MemoryFor (c : Config) (m : MallocState) (nb : Nat) (ans : Answers) : Prop :=
  ans.bin ≠ none ∨ nb ≤ m.dvsize ∨ nb < m.topsize ∨
    (nb < sysAllocSize c nb ∧ ans.mmap ≠ none)

theorem serve_serves (w : WF c m) {bytes : Nat} {ans : Answers} (hp : ans.Possible c m bytes)
    (hf : MemoryFor c m (paddedRequest c bytes) ans) :
    Serves c m (paddedRequest c bytes) (m.serve c bytes ans) := by
  have hmin := paddedRequest_ge c bytes
  unfold MallocState.serve
  simp only
  split
  · next st hst =>
    obtain ⟨v, hv, hat⟩ := Option.bind_eq_some_iff.mp hst
    obtain ⟨-, st', hst', hsize⟩ := hp.1 v hv
    obtain rfl : st' = st := Option.some.inj (hst'.symm.trans hat)
    obtain ⟨hin, hsel⟩ := find_spec hat
    have hfree : st'.chunk.isInuse = false := by
      have hstate : st'.chunk.state = .binned := by simpa using (Bool.and_eq_true_iff.mp hsel).2
      simp [Chunk.isInuse, hstate]
    exact takeBinned_serves hin w hfree hmin hsize _
  · next hbin =>
    have hnobin : ans.bin = none := by
      cases hb : ans.bin with
      | none => rfl
      | some v =>
        obtain ⟨-, st, hst, -⟩ := hp.1 v hb
        rw [hb, Option.bind_some] at hbin
        rw [hbin] at hst
        cases hst
    split
    · next st hst =>
      obtain ⟨hdv, hsize⟩ := Option.filter_eq_some_iff.mp hst
      obtain ⟨hin, hsel⟩ := find_spec hdv
      have hfree : st.chunk.isInuse = false := by
        have hstate : st.chunk.state = .dv := by simpa [Chunk.isDv] using hsel
        simp [Chunk.isInuse, hstate]
      exact takeDv_serves hin w hfree hmin (by simpa using hsize)
    · next hdv =>
      have hnodv : ¬ paddedRequest c bytes ≤ m.dvsize := by
        have hpos := minChunkSize_pos c
        unfold MallocState.dvsize
        cases h : m.dv with
        | none => simp only; omega
        | some st => simpa [h, Option.filter_some] using hdv
      split
      · next htop => exact splitTop_serves w hmin htop
      · next htop =>
        rcases hf with h | h | h | ⟨hlt, hmap⟩
        · exact absurd hnobin h
        · exact absurd h hnodv
        · exact absurd h htop
        · obtain ⟨tbase, htb⟩ := Option.ne_none_iff_exists'.mp hmap
          rw [sysAlloc_eq w, if_neg (by omega), htb]
          exact useMapping_serves w (hp.2 tbase htb) hmin
            (sysAllocSize_spec c (paddedRequest_lt c) hlt)

theorem serve_fails (w : WF c m) {bytes : Nat} {ans : Answers}
    (hf : ¬ MemoryFor c m (paddedRequest c bytes) ans) : m.serve c bytes ans = (m, 0) := by
  unfold MemoryFor at hf
  push Not at hf
  obtain ⟨hbin, hdv, htop, hmap⟩ := hf
  have hnodv : m.dv.filter (fun st => paddedRequest c bytes ≤ st.chunk.size) = none := by
    unfold MallocState.dvsize at hdv
    cases h : m.dv with
    | none => rfl
    | some st => simpa [h, Option.filter_some] using hdv
  have hsys : m.sysAlloc c (paddedRequest c bytes) ans = (m, 0) := by
    rw [sysAlloc_eq w]
    split
    · rfl
    · next h =>
      rw [hmap (by omega)]
      rfl
  simp [MallocState.serve, hbin, hnodv, hsys, htop.not_gt]

theorem mem2chunk_chunk2mem {p : Nat} (hp : p < modulus c) : mem2chunk c (chunk2mem c p) = p := by
  unfold mem2chunk chunk2mem
  rw [show p + 2 * sizeT c + modulus c - 2 * sizeT c = p + modulus c by omega,
    Nat.add_mod_right, Nat.mod_eq_of_lt hp]

theorem block_lt (w : WF c m) {p n : Nat} (h : (p, n) ∈ m.blocks) : p + n ≤ modulus c := by
  obtain ⟨s, hs, -, hle, -⟩ := mem_blocks_bounds w h
  have hfoot := (w.sound s hs).foot
  have hbound := (w.sound s hs).bound
  unfold Segment.trailer at hle
  simp only at hle
  omega

/-- `dlmalloc` where there is memory: the new block has the size the counter grows by. -/
theorem dlmalloc_serves (hfast : c.fastStats = true) (w : WF c m) {bytes : Nat} {ans : Answers} (hp : ans.Possible c m bytes)
    (hf : MemoryFor c m (paddedRequest c bytes) ans) :
    ∃ p n m', m.dlmalloc c bytes ans =
        some ({ m' with inUseBytes := (m.inUseBytes + n) % modulus c }, chunk2mem c p) ∧
      paddedRequest c bytes ≤ n ∧ p < modulus c ∧ Becomes c m m' [] [(p, n)] := by
  obtain ⟨p, n, hp, hn, hb⟩ := serve_serves w hp hf
  have hmem : (p, n) ∈ (m.serve c bytes ans).1.blocks := by
    have h := hb.blocks.mem_iff (a := (p, n))
    simpa using h
  have hlt := block_lt hb.wf hmem
  have hge := paddedRequest_ge c bytes
  have hpos := minChunkSize_pos c
  have hp' : p < modulus c := by omega
  refine ⟨p, n, (m.serve c bytes ans).1, ?_, hn, hp', hb⟩
  simp only [MallocState.dlmalloc, hfast, hp, mem2chunk_chunk2mem hp', chunksize_block hb.wf hmem]
  simp [hb.counter]

/-- Without memory it reads a header below a null pointer. -/
theorem dlmalloc_fails (hfast : c.fastStats = true) (w : WF c m) {bytes : Nat} {ans : Answers}
    (hf : ¬ MemoryFor c m (paddedRequest c bytes) ans) : m.dlmalloc c bytes ans = none := by
  simp [MallocState.dlmalloc, hfast, serve_fails w hf, chunksize_null w]

end Turf.HeapDL
