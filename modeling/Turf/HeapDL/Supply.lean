import Turf.HeapDL.Checked

/-!
# What the heap of a session has to give

The bins of a session hold the free chunks of its heap, `dlmalloc` takes the one that fits best, and it
returns null, or with fast statistics does not return, only if there is none and the system has no memory
either.
-/
namespace Turf.HeapDL

open Turf.Lib.DigitalTree Turf.Lib.DigitalTree.Trie Turf.Lib.Extents Turf.Lib.Schedule

variable {c : Config} {narrow : Bool} {ans : Answers} {s : Session} {h : Heap} {m : MallocState} {bytes i mem : Nat}
  {t : Segment} {ls : List (Call × Answers)}

/-! ## The heap that is told which chunk to take -/

/-- The calls of a session with their answers, each with the pointer it returns. -/
def Session.transcript (c : Config) (narrow : Bool) : Session → List (Call × Answers) → List ((Call × Answers) × Nat)
  | _, [] => []
  | s, l :: ls =>
    match s.heap.exec c narrow l.2 l.1 with
    | some r => (l, r.2) :: transcript c narrow ⟨r.1, heldAfter s.held r.2 l.1⟩ ls
    | none => []

/-- The call returns the pointer when it is told some chunk to take. -/
def Returns (c : Config) (m : MallocState) (l : (Call × Answers) × Nat) (m' : MallocState) : Prop :=
  ∃ bin, execCall c m { l.1.2 with bin := bin } l.1.1 = some (m', l.2)

theorem run_returns {s' : Session} (hr : run (Session.next c narrow) s ls = some s') :
    (s.transcript c narrow ls).map Prod.fst = ls ∧
      Runs (Returns c) s.heap.m (s.transcript c narrow ls) s'.heap.m := by
  induction ls generalizing s with
  | nil =>
    cases hr
    exact ⟨rfl, .nil _⟩
  | cons l ls ih =>
    obtain ⟨t, hs, hrest⟩ := run_cons.mp hr
    obtain ⟨-, -, h', mem, hexec, rfl⟩ := Session.next_cases hs
    have hplain : ∃ bin, (s.heap.exec c narrow l.2 l.1).map Heap.plain =
      execCall c s.heap.m { l.2 with bin := bin } l.1 := exec_plain l.1
    obtain ⟨bin, hplain⟩ := hplain
    obtain ⟨hcalls, hruns⟩ := ih hrest
    rw [hexec] at hplain
    rw [Session.transcript, hexec]
    exact ⟨congrArg (l :: ·) hcalls, .cons ⟨bin, hplain.symm⟩ hruns⟩

theorem Reachable.runs {m m' : MallocState} {ks : List ((Call × Answers) × Nat)} (hm : Reachable c m)
    (h : Runs (Returns c) m ks m') : Reachable c m' := by
  induction h with
  | nil m => exact hm
  | cons hk _ ih =>
    obtain ⟨bin, hexec⟩ := hk
    exact ih (hm.call hexec)

/-- A session whose bins are forgotten is a run of the heap that is told which chunk to take: the same calls
with the same answers of the system return the same pointers. -/
theorem session_reachable (hr : run (Session.next c narrow) .zeroed ls = some s) :
    Reachable c s.heap.m ∧ (Session.zeroed.transcript c narrow ls).map Prod.fst = ls ∧
      Runs (Returns c) .zeroInit (Session.zeroed.transcript c narrow ls) s.heap.m := by
  obtain ⟨hcalls, hruns⟩ := run_returns hr
  exact ⟨Reachable.zeroed.runs hruns, hcalls, hruns⟩

theorem fewCalls_reachable : ∃ s, run (Session.next plainPages4K false) .zeroed fewCalls = some s ∧
    Reachable plainPages4K s.heap.m ∧
    Runs (Returns plainPages4K) .zeroInit (Session.zeroed.transcript plainPages4K false fewCalls) s.heap.m := by
  obtain ⟨s, hs⟩ := fewCalls_run
  obtain ⟨hreach, -, hruns⟩ := session_reachable hs
  exact ⟨s, hs, hreach, hruns⟩

/-! ## Free chunks -/

/-- In every session the bins hold the free chunks beside the designated victim, each in the bin of its size,
the two maps tell the bins that are not empty, and the digits of a size lead to its place in a tree. -/
theorem session_bins (hpage : 9 ≤ c.granularityShift) (hr : run (Session.next c narrow) .zeroed ls = some s) :
    s.heap.bins.entries.Perm (s.heap.m.extents Chunk.isBinned) ∧
      ∀ i, (s.heap.bins.smallmap.getLsbD i ↔ s.heap.bins.smallbins i ≠ []) ∧
        (s.heap.bins.treemap.getLsbD i ↔ s.heap.bins.treebins i ≠ .nil) ∧
        (∀ e ∈ s.heap.bins.smallbins i, e.2 = smallIndex2size i) ∧
        (∀ k ∈ (s.heap.bins.treebins i).keys, computeTreeIndex narrow k = i ∧ isSmall k = false) ∧
        Placed (treeDigit c i) 0 (s.heap.bins.treebins i) := by
  have inv := (Session.run_inv hpage hr).heap
  have hsound := inv.sound
  exact ⟨inv.linked, fun i => ⟨hsound.smallmap i, hsound.treemap i, hsound.small i, hsound.index i, hsound.placed i⟩⟩

theorem fewCalls_bins : ∃ s, run (Session.next plainPages4K false) .zeroed fewCalls = some s ∧
    s.heap.bins.entries.Perm (s.heap.m.extents Chunk.isBinned) := by
  obtain ⟨s, hs⟩ := fewCalls_run
  exact ⟨s, hs, (session_bins (by decide) hs).1⟩

theorem Segment.Neat.spaced_from {closed : Bool} (hn : t.Neat c closed) {l r : List Chunk} (hchunks : t.chunks = l ++ r) :
    Spaced (r.map Chunk.isInuse ++ [closed]) := by
  have hspaced := hn.spaced
  rw [hchunks, List.map_append, List.append_assoc] at hspaced
  exact hspaced.right

/-- In every session free chunks are merged: of two neighbours one is in use, and so is the one before `top`.
There is one designated victim at most, and the footprint is the size of all segments. -/
theorem session_coalesced (hpage : 9 ≤ c.granularityShift) (hr : run (Session.next c narrow) .zeroed ls = some s) :
    (∀ (i : Nat) (t : Segment), s.heap.m.segs[i]? = some t →
      (∀ l x y r, t.chunks = l ++ x :: y :: r → x.isInuse = true ∨ y.isInuse = true) ∧
        ∀ l x, t.chunks = l ++ [x] → i = 0 → x.isInuse = true) ∧
      s.heap.m.dvCount ≤ 1 ∧ s.heap.m.footprint = total Segment.size s.heap.m.segs ∧
      s.heap.m.footprint ≤ s.heap.m.maxFootprint := by
  have hneat := (Session.run_inv hpage hr).heap.neat
  refine ⟨fun i t ht => ⟨fun l x y r hchunks => ?_, fun l x hchunks h0 => ?_⟩, hneat.dv, hneat.footprint, hneat.peak⟩
  · exact (List.isChain_cons_cons.mp ((hneat.segs i t ht).spaced_from hchunks)).1
  · have hlast := (List.isChain_cons_cons.mp ((hneat.segs i t ht).spaced_from hchunks)).1
    simpa [h0] using hlast

theorem fewCalls_coalesced : ∃ s, run (Session.next plainPages4K false) .zeroed fewCalls = some s ∧
    s.heap.m.footprint = total Segment.size s.heap.m.segs := by
  obtain ⟨s, hs⟩ := fewCalls_run
  exact ⟨s, hs, (session_coalesced (by decide) hs).2.2.1⟩

/-! ## Bytes in use -/

/-- In every session the statistics count what the caller holds, each block with its header and without
wrapping around, and no more than the system was asked for. -/
theorem session_stats (hpage : 9 ≤ c.granularityShift) (hr : run (Session.next c narrow) .zeroed ls = some s) :
    total (fun l => l.size + chunkOverhead c) s.held ≤ (internalMallocStats c s.heap.m).inUseBytes ∧
      (internalMallocStats c s.heap.m).inUseBytes = total Prod.snd s.heap.m.blocks ∧
      (internalMallocStats c s.heap.m).inUseBytes ≤ s.heap.m.footprint ∧
      s.heap.m.blocks.length = s.held.length := by
  obtain ⟨inv, bs, hbs, hcovers⟩ := Session.run_inv hpage hr
  have hheld : total (fun l => l.size + chunkOverhead c) s.held ≤ total Prod.snd s.heap.m.blocks := by
    rw [← total_perm Prod.snd hbs]
    exact total_forall₂_le hcovers fun e l hcover => hcover.size
  have hblocks : total Prod.snd s.heap.m.blocks ≤ s.heap.m.footprint := by
    rw [inv.neat.footprint, MallocState.blocks, total_flatMap]
    refine total_le fun t ht => (total_marked_le Chunk.size Chunk.isInuse t.base t.chunks).trans ?_
    have hfoot := (inv.wf.sound t ht).foot
    unfold Segment.total at hfoot
    omega
  have hstats : (internalMallocStats c s.heap.m).inUseBytes = total Prod.snd s.heap.m.blocks := by
    rw [inUseBytes_eq inv.wf, MallocState.blockBytes]
    exact Nat.mod_eq_of_lt (hblocks.trans_lt (footprint_lt inv.wf inv.neat))
  exact ⟨hstats ▸ hheld, hstats, hstats ▸ hblocks, hbs.length_eq.symm.trans hcovers.length_eq⟩

theorem fewCalls_stats : ∃ s, run (Session.next plainPages4K false) .zeroed fewCalls = some s ∧
    (internalMallocStats plainPages4K s.heap.m).inUseBytes ≤ s.heap.m.footprint := by
  obtain ⟨s, hs⟩ := fewCalls_run
  exact ⟨s, hs, (session_stats (by decide) hs).2.2.1⟩

theorem blocks_nil (hblocks : m.blocks = []) (ht : t ∈ m.segs) {x : Chunk} (hx : x ∈ t.chunks) : x.isInuse = false := by
  by_contra huse
  obtain ⟨l, r, hchunks⟩ := List.append_of_mem hx
  obtain ⟨i, hi⟩ := List.getElem?_of_mem ht
  have hin : Site.In ⟨i, t, l, x, r⟩ m := ⟨hi, hchunks⟩
  have hmem := hin.mem_blocks (Bool.of_not_eq_false huse)
  rw [hblocks] at hmem
  cases hmem

/-- Once everything is given back all memory is in one piece: the first segment has no chunk beside `top`, and
any other one at most. -/
theorem session_no_leak (hpage : 9 ≤ c.granularityShift) (hr : run (Session.next c narrow) .zeroed ls = some s)
    (hheld : s.held = []) : s.heap.m.blocks = [] ∧
      ∀ (i : Nat) (t : Segment), s.heap.m.segs[i]? = some t → t.chunks.length ≤ 1 ∧ (i = 0 → t.chunks = []) := by
  obtain ⟨inv, bs, hbs, hcovers⟩ := Session.run_inv hpage hr
  rw [hheld, List.forall₂_nil_right_iff] at hcovers
  have hblocks : s.heap.m.blocks = [] := (hcovers ▸ hbs).symm.eq_nil
  refine ⟨hblocks, fun i t ht => ?_⟩
  have hspaced := (inv.neat.segs i t ht).spaced
  have hfree : ∀ b ∈ t.chunks.map Chunk.isInuse, b = false := by
    intro b hb
    obtain ⟨x, hx, rfl⟩ := List.mem_map.mp hb
    exact blocks_nil hblocks (List.mem_of_getElem? ht) hx
  constructor
  · rcases hspaced.left.eq_of_unmarked hfree with hnone | hone
    · simp [List.map_eq_nil_iff.mp hnone]
    · have hlen := congrArg List.length hone
      rw [List.length_map] at hlen
      exact hlen.le
  · rintro rfl
    have hall : ∀ b ∈ t.chunks.map Chunk.isInuse ++ [0 != 0], b = false := by
      intro b hb
      rcases List.mem_append.mp hb with hb | hb
      · exact hfree b hb
      · simpa using hb
    rcases hspaced.eq_of_unmarked hall with hnone | hone
    · simp at hnone
    · simpa using hone

/-- A block is resized and given back. -/
def backCalls : List (Call × Answers) :=
  [(.op (.alloc 100), grants 65536), (.realloc 65552 300, refuses), (.op (.free 65552), refuses)]

theorem backCalls_no_leak : ∃ s, run (Session.next plainPages4K false) .zeroed backCalls = some s ∧
    s.held = [] ∧ s.heap.m.blocks = [] := by
  have hrun : ((run (Session.next plainPages4K false) .zeroed backCalls).map Session.held) = some [] := by
    decide +kernel
  obtain ⟨s, hs, hheld⟩ := Option.map_eq_some_iff.mp hrun
  exact ⟨s, hs, hheld, (session_no_leak (by decide) hs hheld).1⟩

/-! ## Best fit -/

theorem dlmalloc_pointer {h' : Heap} (he : h.dlmalloc c narrow bytes ans = some (h', mem)) :
    mem = (h.m.serve c bytes (h.searching c narrow bytes ans)).2 := by
  obtain ⟨r, hr, heq⟩ := Option.map_eq_some_iff.mp he
  obtain ⟨-, rfl⟩ := Prod.mk.inj heq
  exact (dlmalloc_same hr).2

/-- A chunk that the search finds is the one that is handed out. -/
theorem Heap.Inv.serve_found (inv : h.Inv c narrow) {e : Nat × Nat}
    (hs : h.bins.search c narrow bytes h.m.dvsize = some e) :
    (h.m.serve c bytes (h.searching c narrow bytes ans)).2 = chunk2mem c e.1 := by
  obtain ⟨hmem, -⟩ := inv.sound.search_mem inv.sizes hs
  obtain ⟨st, hst, -, -, haddr, -⟩ := inv.binned_site hmem
  have hbin : (h.searching c narrow bytes ans).bin.bind h.m.binnedAt = some st := by
    rw [Heap.searching, hs]
    exact hst
  unfold MallocState.serve
  simp only [hbin, haddr]

theorem MallocState.dvsize_lt (w : WF c m) : m.dvsize < modulus c := by
  have hc := constants c
  unfold MallocState.dvsize
  cases hdv : m.dv with
  | none =>
    simp only
    omega
  | some st =>
    obtain ⟨hin, -⟩ := find_spec hdv
    have hbounds := hin.bounds w
    have hbound := (hin.sound w).bound
    simp only
    omega

/-- In every session `dlmalloc` takes the smallest chunk of the bins that is large enough. If it takes none of
them although there are some, the designated victim is large enough and, for a large request, no larger. -/
theorem session_best_fit (hpage : 9 ≤ c.granularityShift) (hr : run (Session.next c narrow) .zeroed ls = some s)
    (hfits : FitsIndex narrow s.heap.m.footprint) (hbytes : bytes < maxRequest c) {h' : Heap}
    (he : s.heap.dlmalloc c narrow bytes ans = some (h', mem)) :
    (∀ e, s.heap.bins.search c narrow bytes s.heap.m.dvsize = some e →
      mem = chunk2mem c e.1 ∧ e ∈ s.heap.m.extents Chunk.isBinned ∧ paddedRequest c bytes ≤ e.2 ∧
        ∀ e' ∈ s.heap.m.extents Chunk.isBinned, paddedRequest c bytes ≤ e'.2 → e.2 ≤ e'.2) ∧
      (s.heap.bins.search c narrow bytes s.heap.m.dvsize = none →
        ∀ e ∈ s.heap.m.extents Chunk.isBinned, paddedRequest c bytes ≤ e.2 →
          paddedRequest c bytes ≤ s.heap.m.dvsize ∧ (maxSmallRequest c < bytes → s.heap.m.dvsize ≤ e.2)) := by
  have inv := (Session.run_inv hpage hr).heap
  obtain ⟨hsome, hnone⟩ :=
    inv.sound.search_answer (inv.fits hfits) hbytes (MallocState.dvsize_lt inv.wf)
  refine ⟨fun e hsearch => ?_, fun hsearch e he => hnone hsearch e (inv.linked.mem_iff.mpr he)⟩
  obtain ⟨⟨hmem, hle, hleast⟩, -⟩ := hsome e hsearch
  refine ⟨(dlmalloc_pointer he).trans (inv.serve_found hsearch), inv.linked.mem_iff.mp hmem, hle, ?_⟩
  exact fun e' he' => hleast e' (inv.linked.mem_iff.mpr he')

theorem fewCalls_best_fit : ∃ s h' mem, run (Session.next plainPages4K false) .zeroed fewCalls = some s ∧
    s.heap.dlmalloc plainPages4K false 70 refuses = some (h', mem) ∧
    ∀ e, s.heap.bins.search plainPages4K false 70 s.heap.m.dvsize = some e → mem = chunk2mem plainPages4K e.1 := by
  obtain ⟨s, hs⟩ := fewCalls_run
  obtain ⟨⟨h', mem⟩, he⟩ := Option.isSome_iff_exists.mp (dlmalloc_returns (c := plainPages4K) rfl false s.heap 70 refuses)
  refine ⟨s, h', mem, hs, he, fun e hsearch => ?_⟩
  exact ((session_best_fit (by decide) hs (fitsIndex_wide _) (by decide) he).1 e hsearch).1

/-! ## Null -/

/-- The designated victim is among the free chunks. -/
theorem Neat.free_cases (hn : Neat c m) {e : Nat × Nat} (he : e ∈ m.extents fun x => !x.isInuse) :
    e ∈ m.extents Chunk.isBinned ∨ e.2 = m.dvsize := by
  obtain ⟨st, hin, hfree, haddr, hsize⟩ := mem_extents.mp he
  rcases st.chunk.cases with hs | hs | hs
  · rw [hs] at hfree
    cases hfree
  · exact .inl (mem_extents.mpr ⟨st, hin, by rw [hs]; rfl, haddr, hsize⟩)
  · have hmem : e ∈ m.extents Chunk.isDv := mem_extents.mpr ⟨st, hin, by rw [hs]; rfl, haddr, hsize⟩
    rcases hn.dv_cases with ⟨-, hnone⟩ | ⟨st', hdv, -, -, hone⟩
    · rw [hnone] at hmem
      cases hmem
    · rw [hone] at hmem
      rw [MallocState.dvsize, hdv, List.mem_singleton.mp hmem]
      exact .inr rfl

theorem MallocState.dvsize_cases (m : MallocState) :
    m.dvsize = 0 ∨ ∃ e ∈ m.extents fun x => !x.isInuse, e.2 = m.dvsize := by
  unfold MallocState.dvsize
  cases hdv : m.dv with
  | none => exact .inl rfl
  | some st =>
    obtain ⟨hin, hsel⟩ := find_spec hdv
    exact .inr ⟨(st.address, st.chunk.size), mem_extents.mpr ⟨st, hin, by simp [isInuse_of_isDv hsel], rfl, rfl⟩, rfl⟩

theorem mem_free_of_binned {e : Nat × Nat} (he : e ∈ m.extents Chunk.isBinned) :
    e ∈ m.extents fun x => !x.isInuse := by
  obtain ⟨st, hin, hbin, haddr, hsize⟩ := mem_extents.mp he
  exact mem_extents.mpr ⟨st, hin, by simp [isInuse_of_isBinned hbin], haddr, hsize⟩

/-- Neither the bins nor the designated victim serve a request that no free chunk is large enough for. -/
theorem Heap.Inv.unserved_iff (inv : h.Inv c narrow) (hfits : h.bins.Fits c narrow) (hbytes : bytes < maxRequest c) :
    h.bins.search c narrow bytes h.m.dvsize = none ∧ h.m.dvsize < paddedRequest c bytes ↔
      ∀ e ∈ h.m.extents fun x => !x.isInuse, e.2 < paddedRequest c bytes := by
  obtain ⟨hsome, hnone⟩ := inv.sound.search_answer hfits hbytes (MallocState.dvsize_lt inv.wf)
  constructor
  · rintro ⟨hsearch, hdv⟩ e he
    rcases inv.neat.free_cases he with hbin | heq
    · by_contra hge
      have hle := (hnone hsearch e (inv.linked.mem_iff.mpr hbin) (Nat.le_of_not_lt hge)).1
      omega
    · omega
  · intro hsmall
    constructor
    · cases hsearch : h.bins.search c narrow bytes h.m.dvsize with
      | none => rfl
      | some e =>
        obtain ⟨⟨hmem, hle, -⟩, -⟩ := hsome e hsearch
        exact absurd hle (hsmall e (mem_free_of_binned (inv.linked.mem_iff.mp hmem))).not_ge
    · rcases h.m.dvsize_cases with h0 | ⟨e, he, heq⟩
      · have hmin := paddedRequest_ge c bytes
        have hpos := minChunkSize_pos c
        omega
      · exact heq ▸ hsmall e he

theorem Heap.Inv.null_iff (hfast : c.fastStats = false) (inv : h.Inv c narrow) (hg : Granted c h.m bytes ans) :
    (∃ h', h.dlmalloc c narrow bytes ans = some (h', 0)) ↔
      ¬ MemoryFor c h.m (paddedRequest c bytes) (h.searching c narrow bytes ans) := by
  constructor
  · rintro ⟨h', he⟩ hf
    obtain ⟨p, n, hp, -, -⟩ := serve_serves inv.wf (searching_possible inv hg) hf
    exact chunk2mem_ne_zero c p (hp.symm.trans (dlmalloc_pointer he).symm)
  · intro hf
    simp [Heap.dlmalloc, MallocState.dlmalloc, hfast, serve_fails inv.wf hf]

/-- There is memory for a request exactly if a free chunk is large enough, `top` is larger, or the system maps
memory of a size that does not wrap around. -/
theorem Heap.Inv.memoryFor_iff (inv : h.Inv c narrow) (hfits : h.bins.Fits c narrow) (hbytes : bytes < maxRequest c) :
    MemoryFor c h.m (paddedRequest c bytes) (h.searching c narrow bytes ans) ↔
      (∃ e ∈ h.m.extents fun x => !x.isInuse, paddedRequest c bytes ≤ e.2) ∨ paddedRequest c bytes < h.m.topsize ∨
        (paddedRequest c bytes < sysAllocSize c (paddedRequest c bytes) ∧ ans.mmap ≠ none) := by
  have hbin : (h.searching c narrow bytes ans).bin = none ↔ h.bins.search c narrow bytes h.m.dvsize = none :=
    Option.map_eq_none_iff
  have hserved : ((h.searching c narrow bytes ans).bin ≠ none ∨ paddedRequest c bytes ≤ h.m.dvsize) ↔
      ∃ e ∈ h.m.extents fun x => !x.isInuse, paddedRequest c bytes ≤ e.2 := by
    have hnot := not_congr (inv.unserved_iff hfits hbytes)
    rw [← hbin, not_and_or, not_lt] at hnot
    rw [ne_eq, hnot]
    simp only [not_forall, not_lt, exists_prop]
  have hmap : (h.searching c narrow bytes ans).mmap = ans.mmap := rfl
  rw [MemoryFor, ← or_assoc, hserved, hmap]

/-- In every session an allocation returns null exactly if no free chunk is large enough, `top` is not
either, and the system maps nothing or the size of the mapping wraps around. -/
theorem alloc_null_iff (hfast : c.fastStats = false) (hpage : 9 ≤ c.granularityShift)
    (hr : run (Session.next c narrow) .zeroed ls = some s) (hfits : FitsIndex narrow s.heap.m.footprint)
    (hbytes : bytes < maxRequest c) (hg : Granted c s.heap.m bytes ans) :
    (∃ h', s.heap.dlmalloc c narrow bytes ans = some (h', 0)) ↔
      (∀ e ∈ s.heap.m.extents fun x => !x.isInuse, e.2 < paddedRequest c bytes) ∧
        s.heap.m.topsize ≤ paddedRequest c bytes ∧
        (sysAllocSize c (paddedRequest c bytes) ≤ paddedRequest c bytes ∨ ans.mmap = none) := by
  have inv := (Session.run_inv hpage hr).heap
  rw [inv.null_iff hfast hg, inv.memoryFor_iff (inv.fits hfits) hbytes, not_or, not_or, not_and_or, not_not]
  simp only [not_exists, not_and, not_le, not_lt]

theorem fewCalls_null : ∃ s, run (Session.next plainPages4K false) .zeroed fewCalls = some s ∧
    ((∃ h', s.heap.dlmalloc plainPages4K false 5000 refuses = some (h', 0)) ↔
      (∀ e ∈ s.heap.m.extents fun x => !x.isInuse, e.2 < paddedRequest plainPages4K 5000) ∧
        s.heap.m.topsize ≤ paddedRequest plainPages4K 5000 ∧
        (sysAllocSize plainPages4K (paddedRequest plainPages4K 5000) ≤ paddedRequest plainPages4K 5000 ∨
          refuses.mmap = none)) := by
  obtain ⟨s, hs⟩ := fewCalls_run
  refine ⟨s, hs, alloc_null_iff rfl (by decide) hs (fitsIndex_wide _) (by decide) ?_⟩
  intro tbase hmap
  cases hmap

/-! ## Fast statistics -/

/-- Frees, and allocations that ask for no more than the default alignment. -/
def Call.Unaligned (c : Config) : Call → Prop
  | .op (.allocAligned _ alignment) => alignment ≤ mallocAlignment c
  | .op _ => True
  | .realloc _ _ => False

/-- With fast statistics an allocation returns exactly if there is memory for it, and then the counter agrees. -/
theorem Heap.Inv.fast_cases (hfast : c.fastStats = true) (inv : h.Inv c narrow) (hg : Granted c h.m bytes ans)
    (hagrees : h.m.Agrees c) :
    (MemoryFor c h.m (paddedRequest c bytes) (h.searching c narrow bytes ans) ∧ ∃ h' mem,
        h.dlmalloc c narrow bytes ans = some (h', mem) ∧ mem ≠ 0 ∧ h'.m.Agrees c) ∨
      ¬ MemoryFor c h.m (paddedRequest c bytes) (h.searching c narrow bytes ans) ∧
        h.dlmalloc c narrow bytes ans = none := by
  have hplain : (h.dlmalloc c narrow bytes ans).map Heap.plain =
    h.m.dlmalloc c bytes (h.searching c narrow bytes ans) := dlmalloc_plain
  rcases dlmalloc_cases hfast inv.wf (searching_possible inv hg) with ⟨hf, p, n, m', he, hblock, -, -⟩ | ⟨hf, he⟩
  · rw [he] at hplain
    obtain ⟨⟨h', mem⟩, hr, heq⟩ := Option.map_eq_some_iff.mp hplain
    obtain ⟨rfl, rfl⟩ := Prod.mk.inj heq
    have hmod := constants c
    exact .inl ⟨hf, h', _, hr, chunk2mem_ne_zero c p, (hblock.agrees_iff inv.wf hagrees le_rfl (by omega)).mpr rfl⟩
  · rw [he] at hplain
    exact .inr ⟨hf, Option.map_eq_none_iff.mp hplain⟩

theorem Session.agrees_step (hfast : c.fastStats = true) {s' : Session} {l : Call × Answers}
    (hs : s.next c narrow l = some s') (hl : l.1.Unaligned c) (inv : s.Inv c narrow)
    (hagrees : s.heap.m.Agrees c) : s'.heap.m.Agrees c := by
  obtain ⟨hlawful, hg, h', mem, he, rfl⟩ := Session.next_cases hs
  obtain ⟨k, ans⟩ := l
  have hmalloc : ∀ bytes, Granted c s.heap.m bytes ans → s.heap.dlmalloc c narrow bytes ans = some (h', mem) →
      h'.m.Agrees c := by
    intro bytes hgrant hr
    rcases inv.heap.fast_cases hfast hgrant hagrees with ⟨-, h₁, mem₁, hr₁, -, hafter⟩ | ⟨-, hnone⟩
    · rw [hr] at hr₁
      cases hr₁
      exact hafter
    · rw [hr] at hnone
      cases hnone
  cases k with
  | op o =>
    cases o with
    | alloc size => exact hmalloc size (hg size rfl) he
    | allocAligned size alignment =>
      have hal : alignment ≤ mallocAlignment c := hl
      rw [Heap.exec, Heap.dlmemalign, if_pos hal] at he
      exact hmalloc size (hg size (by simp [callRequest, mallocRequest, hal])) he
    | free ptr =>
      obtain ⟨p, n, bs, rfl, hblocks, -⟩ := inv.block hlawful
      have hmem : (p, n) ∈ s.heap.m.blocks := hblocks.mem_iff.mpr List.mem_cons_self
      obtain ⟨m', hspec, hb⟩ := dlfree_spec inv.heap.wf hmem ans
      have hplain : (s.heap.dlfree c narrow (chunk2mem c p) ans).map Heap.m = _ := dlfree_plain
      obtain ⟨h₁, hfree, heq⟩ := Option.map_eq_some_iff.mp he
      cases heq
      rw [hfree, hspec] at hplain
      rw [Option.some.inj hplain]
      exact dlfree_agrees hfast inv.heap.wf hmem hagrees hb
  | realloc ptr newSize => exact absurd hl id

/-- In every session of frees and of allocations with the default alignment the fast counter agrees with the
traversal, and a further allocation returns exactly if a free chunk is large enough, `top` is larger, or the
system maps memory of a size that does not wrap around. -/
theorem session_agrees (hfast : c.fastStats = true) (hpage : 9 ≤ c.granularityShift)
    (hr : run (Session.next c narrow) .zeroed ls = some s) (hls : ∀ l ∈ ls, l.1.Unaligned c) :
    s.heap.m.Agrees c ∧ ∀ bytes ans, FitsIndex narrow s.heap.m.footprint → bytes < maxRequest c →
      Granted c s.heap.m bytes ans → ((s.heap.dlmalloc c narrow bytes ans).isSome ↔
        (∃ e ∈ s.heap.m.extents fun x => !x.isInuse, paddedRequest c bytes ≤ e.2) ∨
          paddedRequest c bytes < s.heap.m.topsize ∨
          (paddedRequest c bytes < sysAllocSize c (paddedRequest c bytes) ∧ ans.mmap ≠ none)) := by
  have hstep : ∀ (s : Session) (l : Call × Answers) (s' : Session), s.next c narrow l = some s' → l.1.Unaligned c →
      s.Inv c narrow ∧ s.heap.m.Agrees c → s'.Inv c narrow ∧ s'.heap.m.Agrees c :=
    fun s l s' hs hl hinv => ⟨hinv.1.step hpage hs, Session.agrees_step hfast hs hl hinv.1 hinv.2⟩
  obtain ⟨inv, hagrees⟩ := run_preserves_labels hstep hr hls ⟨Session.inv_zeroed, agrees_zeroed⟩
  refine ⟨hagrees, fun bytes ans hfits hbytes hg => ?_⟩
  rw [← inv.heap.memoryFor_iff (inv.heap.fits hfits) hbytes]
  rcases inv.heap.fast_cases hfast hg hagrees with ⟨hf, h', mem, hr, -, -⟩ | ⟨hf, hnone⟩
  · rw [hr]
    exact iff_of_true rfl hf
  · rw [hnone]
    exact iff_of_false Bool.false_ne_true hf

end Turf.HeapDL
