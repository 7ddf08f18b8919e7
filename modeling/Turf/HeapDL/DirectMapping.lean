import Turf.HeapDL.Realloc

/-!
# The direct mapping of large chunks is never enabled

`sys_alloc` maps a large chunk on its own only if `m->mflags` has `USE_MMAP_BIT`. A zeroed heap
does not have it, and no function on the way sets it: the default flags that `init_mparams`
computes are stored in `mparams` and never copied.
-/
namespace Turf.HeapDL

variable {c : Config} {m m' m'' : MallocState} {ans : Answers}

/-- The flags and the chunks mapped on their own stay as they are. -/
structure KeepsMmap (m m' : MallocState) : Prop where
  mflags : m'.mflags = m.mflags
  direct : m'.direct = m.direct

theorem KeepsMmap.trans (h : KeepsMmap m m') (h' : KeepsMmap m' m'') : KeepsMmap m m'' :=
  ⟨h'.mflags.trans h.mflags, h'.direct.trans h.direct⟩

/-- Direct mapping is off, and no chunk is mapped on its own. -/
def NoMmap (m : MallocState) : Prop := m.mflags = 0 ∧ m.direct = []

theorem KeepsMmap.noMmap (h : KeepsMmap m m') (hm : NoMmap m) : NoMmap m' :=
  ⟨h.mflags.trans hm.1, h.direct.trans hm.2⟩

theorem takeBinned_keeps (h : KeepsMmap m m') (small : Bool) (nb : Nat) (st : Site) :
    KeepsMmap m (m'.takeBinned c small nb st) := by
  unfold MallocState.takeBinned
  simp only
  split
  · exact ⟨h.mflags, h.direct⟩
  · split <;> exact ⟨h.mflags, h.direct⟩

theorem takeDv_keeps (h : KeepsMmap m m') (nb : Nat) (st : Site) :
    KeepsMmap m (m'.takeDv c nb st) := by
  unfold MallocState.takeDv
  simp only
  split <;> exact ⟨h.mflags, h.direct⟩

theorem splitTop_keeps (h : KeepsMmap m m') (nb : Nat) : KeepsMmap m (m'.splitTop nb) := by
  unfold MallocState.splitTop
  split
  · exact h
  · exact ⟨h.mflags, h.direct⟩

theorem allocFromTop_keeps (h : KeepsMmap m m') (nb : Nat) :
    KeepsMmap m (m'.allocFromTop c nb).1 := by
  unfold MallocState.allocFromTop
  split
  · exact splitTop_keeps h nb
  · exact h

theorem addSegment_keeps (h : KeepsMmap m m') (tbase tsize : Nat) :
    KeepsMmap m (m'.addSegment c tbase tsize) := by
  unfold MallocState.addSegment
  split
  · exact h
  · exact ⟨h.mflags, h.direct⟩

theorem prependAlloc_keeps (h : KeepsMmap m m') (tbase tsize nb i : Nat) (s : Segment) :
    KeepsMmap m (m'.prependAlloc tbase tsize nb i s) := by
  unfold MallocState.prependAlloc
  simp only
  split <;> exact ⟨h.mflags, h.direct⟩

theorem useMapping_keeps (nb tbase tsize : Nat) :
    KeepsMmap m (m.useMapping c nb tbase tsize).1 := by
  unfold MallocState.useMapping
  simp only
  split
  · apply allocFromTop_keeps
    exact ⟨rfl, rfl⟩
  · split
    · apply allocFromTop_keeps
      exact ⟨rfl, rfl⟩
    · split
      · apply prependAlloc_keeps
        exact ⟨rfl, rfl⟩
      · apply allocFromTop_keeps
        apply addSegment_keeps
        exact ⟨rfl, rfl⟩

/-- With direct mapping off, `sys_alloc` goes to an ordinary mapping. -/
theorem sysAlloc_of_noMmap (h : NoMmap m) (nb : Nat) (ans : Answers) :
    m.sysAlloc c nb ans =
      if sysAllocSize c nb ≤ nb || m.overLimit c (sysAllocSize c nb) then (m, 0)
      else ans.mmap.elim (m, 0) fun tbase => m.useMapping c nb tbase (sysAllocSize c nb) := by
  have hoff : m.useMmap = false := by simp [MallocState.useMmap, h.1]
  cases hm : ans.mmap <;> simp [MallocState.sysAlloc, hoff, hm]

theorem sysAlloc_keeps (h : NoMmap m) (nb : Nat) (ans : Answers) :
    KeepsMmap m (m.sysAlloc c nb ans).1 := by
  rw [sysAlloc_of_noMmap h]
  split
  · exact ⟨rfl, rfl⟩
  · cases ans.mmap with
    | none => exact ⟨rfl, rfl⟩
    | some tbase => exact useMapping_keeps nb tbase _

theorem serve_keeps (h : NoMmap m) (bytes : Nat) (ans : Answers) :
    KeepsMmap m (m.serve c bytes ans).1 := by
  have hrefl : KeepsMmap m m := ⟨rfl, rfl⟩
  unfold MallocState.serve
  simp only
  split
  · exact takeBinned_keeps hrefl _ _ _
  · split
    · exact takeDv_keeps hrefl _ _
    · split
      · exact splitTop_keeps hrefl _
      · exact sysAlloc_keeps h _ ans

theorem dlmalloc_noMmap (h : NoMmap m) {bytes mem : Nat}
    (hr : m.dlmalloc c bytes ans = some (m', mem)) : NoMmap m' := by
  have hserve := (serve_keeps (c := c) h bytes ans).noMmap h
  unfold MallocState.dlmalloc at hr
  simp only at hr
  split at hr
  · obtain ⟨n, -, he⟩ := Option.map_eq_some_iff.mp hr
    cases he
    exact hserve
  · have he := Option.some.inj hr
    rw [he] at hserve
    exact hserve

theorem consolidate_keeps (h : KeepsMmap m m') (st : Site) :
    KeepsMmap m (m'.consolidate st).1 := by
  unfold MallocState.consolidate
  simp only
  split
  · split <;> exact ⟨h.mflags, h.direct⟩
  · split <;> exact ⟨h.mflags, h.direct⟩

theorem releaseUnusedSegments_keeps (h : KeepsMmap m m') (ans : Answers) :
    KeepsMmap m (m'.releaseUnusedSegments c ans).1 := by
  unfold MallocState.releaseUnusedSegments
  split <;> exact ⟨h.mflags, h.direct⟩

theorem sysTrim_keeps (h : KeepsMmap m m') (pad : Nat) (ans : Answers) :
    KeepsMmap m (m'.sysTrim c pad ans) := by
  have hshrink : KeepsMmap m (m'.shrinkTop c (pad + topFootSize c) ans).1 := by
    unfold MallocState.shrinkTop
    split
    · exact h
    · simp only
      split
      · exact ⟨h.mflags, h.direct⟩
      · exact h
  have hrelease := releaseUnusedSegments_keeps (c := c) hshrink ans
  unfold MallocState.sysTrim
  split
  · simp only
    split
    · exact ⟨hrelease.mflags, hrelease.direct⟩
    · exact hrelease
  · exact h

theorem afterFree_keeps (h : KeepsMmap m m') (landing : Landing) (ans : Answers) :
    KeepsMmap m (m'.afterFree c landing ans) := by
  unfold MallocState.afterFree
  split
  · split
    · exact sysTrim_keeps h 0 ans
    · exact h
  · exact h
  · split
    · exact h
    · simp only
      split
      · apply releaseUnusedSegments_keeps
        exact ⟨h.mflags, h.direct⟩
      · exact ⟨h.mflags, h.direct⟩

theorem dlfree_noMmap (h : NoMmap m) {mem : Nat} (hr : m.dlfree c mem ans = some m') :
    NoMmap m' := by
  have hsub : ∀ n, KeepsMmap m (m.subInUse c n) := by
    intro n
    unfold MallocState.subInUse
    split <;> exact ⟨rfl, rfl⟩
  unfold MallocState.dlfree at hr
  simp only [h.2] at hr
  split at hr
  · cases hr
    exact h
  · split at hr
    · cases hr
    · split at hr
      · cases hr
        exact (afterFree_keeps (consolidate_keeps (hsub _) _) _ ans).noMmap h
      · cases hr

theorem splitInuse_keeps {p n : Nat} (hr : m.splitInuse p n = some m') : KeepsMmap m m' := by
  obtain ⟨st, -, rfl⟩ := Option.map_eq_some_iff.mp hr
  exact ⟨rfl, rfl⟩

theorem disposeChunk_keeps {p : Nat} (hr : m.disposeChunk p = some m') : KeepsMmap m m' := by
  obtain ⟨st, -, rfl⟩ := Option.map_eq_some_iff.mp hr
  exact consolidate_keeps ⟨rfl, rfl⟩ st

/-- Giving back one part of a chunk split in two. -/
theorem giveBack_keeps {p q n : Nat} (hr : (m.splitInuse p n).bind (MallocState.disposeChunk q) =
    some m') : KeepsMmap m m' := by
  obtain ⟨m₁, h₁, h₂⟩ := Option.bind_eq_some_iff.mp hr
  exact (splitInuse_keeps h₁).trans (disposeChunk_keeps h₂)

theorem alignBlock_noMmap (h : NoMmap m) {nb alignment p mem : Nat}
    (hr : m.alignBlock c nb alignment p = some (m', mem)) : NoMmap m' := by
  obtain ⟨⟨m₁, q⟩, h₁, h₂⟩ := Option.bind_eq_some_iff.mp hr
  obtain ⟨m₂, htrim, he⟩ := Option.map_eq_some_iff.mp h₂
  cases he
  have hlead : NoMmap m₁ := by
    unfold MallocState.alignLeader at h₁
    split at h₁
    · cases h₁
      exact h
    · simp only at h₁
      split at h₁
      · obtain ⟨m₃, h₃, he⟩ := Option.map_eq_some_iff.mp h₁
        cases he
        exact (giveBack_keeps h₃).noMmap h
      · cases h₁
        exact ⟨h.1, by simp [h.2]⟩
  unfold MallocState.trimRest at htrim
  split at htrim
  · split at htrim
    · exact (giveBack_keeps htrim).noMmap hlead
    · cases htrim
      exact hlead
  · cases htrim
    exact hlead

theorem dlmemalign_noMmap (h : NoMmap m) {alignment bytes mem : Nat}
    (hr : m.dlmemalign c alignment bytes ans = some (m', mem)) : NoMmap m' := by
  unfold MallocState.dlmemalign at hr
  split at hr
  · exact dlmalloc_noMmap h hr
  · obtain ⟨al, -, hr⟩ := Option.bind_eq_some_iff.mp hr
    split at hr
    · cases hr
      exact h
    · obtain ⟨⟨m₁, mem₁⟩, h₁, h₂⟩ := Option.bind_eq_some_iff.mp hr
      have hm₁ := dlmalloc_noMmap h h₁
      split at h₂
      · cases h₂
        exact hm₁
      · exact alignBlock_noMmap hm₁ h₂

theorem resizeInPlace_keeps {p nb : Nat} {st : Site} {q : Option Nat}
    (hr : m.resizeInPlace c p nb st = some (m', q)) : KeepsMmap m m' := by
  have hmap : ∀ {r : Option MallocState} {p : Nat}, (r.map fun m => (m, some p)) = some (m', q) →
      r = some m' := by
    intro r p h
    obtain ⟨m₁, h₁, he⟩ := Option.map_eq_some_iff.mp h
    cases he
    exact h₁
  unfold MallocState.resizeInPlace at hr
  simp only at hr
  split at hr
  · split at hr
    · exact giveBack_keeps (hmap hr)
    · cases hr
      exact ⟨rfl, rfl⟩
  · split at hr
    · split at hr <;> cases hr <;> exact ⟨rfl, rfl⟩
    · split at hr
      · cases hr
        exact ⟨rfl, rfl⟩
      · split at hr
        · cases hr
          exact ⟨rfl, rfl⟩
        · split at hr
          · cases hr
            exact ⟨rfl, rfl⟩
          · have hd := disposeChunk_keeps (hmap hr)
            exact ⟨hd.mflags, hd.direct⟩

theorem tryReallocChunk_noMmap (h : NoMmap m) {p nb : Nat} {q : Option Nat}
    (hr : m.tryReallocChunk c p nb ans = some (m', q)) : NoMmap m' := by
  unfold MallocState.tryReallocChunk at hr
  simp only [h.2] at hr
  split at hr
  · cases hr
  · split at hr
    · exact (resizeInPlace_keeps hr).noMmap h
    · cases hr

theorem dlrealloc_noMmap (h : NoMmap m) {oldmem bytes mem : Nat}
    (hr : m.dlrealloc c oldmem bytes ans = some (m', mem)) : NoMmap m' := by
  unfold MallocState.dlrealloc at hr
  split at hr
  · exact dlmalloc_noMmap h hr
  · split at hr
    · cases hr
      exact h
    · obtain ⟨⟨m₁, q⟩, h₁, h₂⟩ := Option.bind_eq_some_iff.mp hr
      have hm₁ := tryReallocChunk_noMmap h h₁
      split at h₂
      · cases h₂
        exact hm₁
      · obtain ⟨⟨m₂, mem₂⟩, h₂, h₃⟩ := Option.bind_eq_some_iff.mp h₂
        have hm₂ := dlmalloc_noMmap hm₁ h₂
        split at h₃
        · cases h₃
          exact hm₂
        · obtain ⟨m₃, hfree, he⟩ := Option.map_eq_some_iff.mp h₃
          cases he
          exact dlfree_noMmap hm₂ hfree

theorem execCall_noMmap (h : NoMmap m) {k : Call} {mem : Nat}
    (hr : execCall c m ans k = some (m', mem)) : NoMmap m' := by
  cases k with
  | realloc ptr newSize => exact dlrealloc_noMmap h hr
  | op o =>
    cases o with
    | alloc size => exact dlmalloc_noMmap h hr
    | allocAligned size alignment => exact dlmemalign_noMmap h hr
    | free ptr =>
      obtain ⟨m₁, h₁, he⟩ := Option.map_eq_some_iff.mp hr
      cases he
      exact dlfree_noMmap h h₁

/-- No call ever turns direct mapping on. -/
theorem Reachable.noMmap (h : Reachable c m) : NoMmap m := by
  induction h with
  | zeroed => exact ⟨rfl, rfl⟩
  | call _ hk ih => exact execCall_noMmap ih hk

/-- `dlmalloc` falls through to `sys_alloc` with a large request, no limit is set, and the
system would grant it a mapping of its own. -/
structure LargeRequest (c : Config) (m : MallocState) (bytes : Nat) (ans : Answers) : Prop where
  bin : ans.bin = none
  dv : m.dvsize < paddedRequest c bytes
  top : m.topsize ≤ paddedRequest c bytes
  large : defaultMmapThreshold ≤ paddedRequest c bytes
  initialized : m.topsize ≠ 0
  limit : m.footprintLimit = 0
  direct : ans.directMmap ≠ none

/-- The block returned is a chunk mapped on its own. -/
def ServedDirectly (c : Config) (r : MallocState × Nat) : Prop :=
  ∃ d ∈ r.1.direct, r.2 = chunk2mem c d.address

theorem serve_large (h : NoMmap m) {bytes : Nat} (hl : LargeRequest c m bytes ans) :
    m.serve c bytes ans =
      if sysAllocSize c (paddedRequest c bytes) ≤ paddedRequest c bytes then (m, 0)
      else ans.mmap.elim (m, 0) fun tbase =>
        m.useMapping c (paddedRequest c bytes) tbase (sysAllocSize c (paddedRequest c bytes)) := by
  have hdv : m.dv.filter (fun st => paddedRequest c bytes ≤ st.chunk.size) = none := by
    have hsize := hl.dv
    unfold MallocState.dvsize at hsize
    cases hv : m.dv with
    | none => rfl
    | some st => simpa [hv, Option.filter_some] using hsize
  have hlimit : m.overLimit c (sysAllocSize c (paddedRequest c bytes)) = false := by
    simp [MallocState.overLimit, hl.limit]
  have hfall : m.serve c bytes ans = m.sysAlloc c (paddedRequest c bytes) ans := by
    simp [MallocState.serve, hl.bin, hdv, Nat.not_lt.mpr hl.top]
  rw [hfall, sysAlloc_of_noMmap h, hlimit, Bool.or_false]
  simp only [decide_eq_true_eq]

/-- In no reachable state is a large request served by a mapping of its own: it goes to an
ordinary mapping, out of which the block is cut. -/
theorem large_request_not_direct (hm : Reachable c m) {bytes : Nat}
    (hl : LargeRequest c m bytes ans) :
    ¬ ServedDirectly c (m.serve c bytes ans) ∧
      m.serve c bytes ans =
        if sysAllocSize c (paddedRequest c bytes) ≤ paddedRequest c bytes then (m, 0)
        else ans.mmap.elim (m, 0) fun tbase =>
          m.useMapping c (paddedRequest c bytes) tbase
            (sysAllocSize c (paddedRequest c bytes)) := by
  refine ⟨?_, serve_large hm.noMmap hl⟩
  intro ⟨d, hd, _⟩
  rw [((serve_keeps hm.noMmap bytes ans).noMmap hm.noMmap).2] at hd
  cases hd

/-- Without fast statistics, 8-byte `size_t` and pages of 4 KiB. -/
def plainPages4K : Config := { pages4K with fastStats := false }

/-- An ordinary mapping is granted at `tbase`, a direct one at 16 MiB. -/
def grants (tbase : Nat) : Answers := ⟨none, some 16777216, some tbase, none, fun _ _ => true⟩

/-- The heap after a first small allocation. -/
def smallHeap : MallocState :=
  ⟨[⟨65536, 4096, [⟨112, .inuse⟩]⟩], [], 3904, 2097152, 4095, 65536, 4096, 4096, 0, 0, 0⟩

theorem smallHeap_reachable : Reachable plainPages4K smallHeap := by
  have h : execCall plainPages4K .zeroInit (grants 65536) (.op (.alloc 100)) =
      some (smallHeap, 65552) := by
    decide +kernel
  exact .call .zeroed h

theorem smallHeap_large : LargeRequest plainPages4K smallHeap 300000 (grants 1048576) := by
  constructor <;> decide +kernel

/-- A block of 300000 bytes is cut out of a segment, and freeing it gives nothing back. -/
theorem large_block_in_segment :
    Reachable plainPages4K smallHeap ∧
      LargeRequest plainPages4K smallHeap 300000 (grants 1048576) ∧
      ∃ m m', smallHeap.serve plainPages4K 300000 (grants 1048576) = (m, 1048592) ∧
        m.direct = [] ∧ m.dlfree plainPages4K 1048592 (grants 1048576) = some m' ∧
        m'.footprint ≠ smallHeap.footprint := by
  refine ⟨smallHeap_reachable, smallHeap_large,
    (smallHeap.serve plainPages4K 300000 (grants 1048576)).1,
    ((smallHeap.serve plainPages4K 300000 (grants 1048576)).1.dlfree plainPages4K 1048592
      (grants 1048576)).get (by decide +kernel), ?_, ?_, ?_, ?_⟩
  all_goals decide +kernel

theorem large_request_not_direct_small :
    ¬ ServedDirectly plainPages4K (smallHeap.serve plainPages4K 300000 (grants 1048576)) :=
  (large_request_not_direct smallHeap_reachable smallHeap_large).1

end Turf.HeapDL
