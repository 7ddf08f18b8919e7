import Turf.HeapDL.BinSound
import Turf.HeapDL.Chunks
import Turf.HeapDL.Heap
import Turf.Lib.Layout

/-!
# Bins in step with the segments

No two free chunks are neighbours, also not with `top`, one at most is the designated victim, and the
bins hold the others. The chunks of a segment are recut with the bins in step.
-/
namespace Turf.HeapDL

open Turf.Lib.Extents

variable {c : Config} {narrow : Bool} {m m' m'' : MallocState} {b b' b'' : Bins} {s t : Segment} {i p n : Nat}
  {st st' : Site} {mark : Chunk → Bool} {gone added gone' added' : List (Nat × Nat)}

def Chunk.isBinned (p : Chunk) : Bool := p.state = .binned

/-! ## Chunks by address -/

theorem mem_extents : (p, n) ∈ m.extents mark ↔
    ∃ st : Site, st.In m ∧ mark st.chunk = true ∧ st.address = p ∧ st.chunk.size = n := by
  constructor
  · intro h
    obtain ⟨s, hs, hmem⟩ := List.mem_flatMap.mp h
    obtain ⟨i, hi⟩ := List.getElem?_of_mem hs
    obtain ⟨l, x, r, hl, hx, hp, hn⟩ := (mem_marked Chunk.size mark).mp hmem
    exact ⟨⟨i, s, l, x, r⟩, ⟨hi, hl⟩, hx, hp.symm, hn.symm⟩
  · intro ⟨st, hin, hx, hp, hn⟩
    apply List.mem_flatMap.mpr ⟨st.seg, List.mem_of_getElem? hin.seg, _⟩
    exact (mem_marked Chunk.size mark).mpr ⟨st.left, st.chunk, st.right, hin.chunks, hx, hp.symm, hn.symm⟩

/-- Pieces that start at one place are one. -/
theorem split_unique {l l' r r' : List Chunk} {x x' : Chunk} (hpos : ∀ y ∈ l ++ x :: r, 0 < y.size)
    (h : l ++ x :: r = l' ++ x' :: r') (htotal : total Chunk.size l = total Chunk.size l') :
    l = l' ∧ x = x' ∧ r = r' := by
  induction l generalizing l' with
  | nil =>
    cases l' with
    | nil =>
      obtain ⟨rfl, rfl⟩ := List.cons.inj h
      exact ⟨rfl, rfl, rfl⟩
    | cons y ys =>
      obtain ⟨rfl, -⟩ := List.cons.inj h
      have hx := hpos x (by simp)
      rw [total_nil, total_cons] at htotal
      omega
  | cons y ys ih =>
    cases l' with
    | nil =>
      have hy := hpos y (by simp)
      rw [total_nil, total_cons] at htotal
      omega
    | cons y' ys' =>
      obtain ⟨rfl, htail⟩ := List.cons.inj h
      rw [total_cons, total_cons] at htotal
      obtain ⟨rfl, rfl, rfl⟩ := ih (fun z hz => hpos z (List.mem_cons_of_mem _ hz)) htail (by omega)
      exact ⟨rfl, rfl, rfl⟩

theorem Site.In.bounds (hin : st.In m) (w : WF c m) :
    st.seg.base ≤ st.address ∧ st.address + st.chunk.size + topFootSize c ≤ st.seg.base + st.seg.size ∧
      minChunkSize c ≤ st.chunk.size := by
  have hfoot := (hin.sound w).foot
  have hmin := hin.size_ge w
  have htotal : st.seg.total = total Chunk.size st.left + (st.chunk.size + total Chunk.size st.right) := by
    rw [Segment.total, hin.chunks, total_append, total_cons]
  unfold Site.address
  omega

/-- Chunks at one address are one. -/
theorem Site.In.unique (hin : st.In m) (hin' : st'.In m) (w : WF c m) (h : st.address = st'.address) :
    st = st' := by
  have hpos := minChunkSize_pos c
  have hidx : st.index = st'.index := by
    by_contra hne
    have hap := w.apart_of hin.seg hin'.seg (Ne.symm hne)
    have hb := hin.bounds w
    have hb' := hin'.bounds w
    unfold Apart Segment.extent at hap
    simp only at hap
    omega
  have hseg : st.seg = st'.seg := by
    have hget := hin'.seg
    rw [← hidx, hin.seg] at hget
    exact Option.some.inj hget
  obtain ⟨i, s, l, x, r⟩ := st
  obtain ⟨i', s', l', x', r'⟩ := st'
  obtain rfl : i = i' := hidx
  obtain rfl : s = s' := hseg
  have hchunks : s.chunks = l ++ x :: r := hin.chunks
  have hchunks' : s.chunks = l' ++ x' :: r' := hin'.chunks
  have htotal : s.base + total Chunk.size l = s.base + total Chunk.size l' := h
  obtain ⟨rfl, rfl, rfl⟩ := split_unique (fun y hy => by
    have hy := (hin.sound w).sizes y (hchunks ▸ hy)
    omega) (hchunks.symm.trans hchunks') (by omega)
  rfl

theorem find_eq {sel : Nat → Chunk → Bool} (w : WF c m) (hin : st.In m) (hsel : sel st.address st.chunk = true)
    (haddr : ∀ q x, sel q x = true → q = st.address) : m.find sel = some st := by
  obtain ⟨st', hst'⟩ := Option.isSome_iff_exists.mp (find_isSome hin hsel)
  obtain ⟨hin', hsel'⟩ := find_spec hst'
  rw [hst', hin'.unique hin w (haddr _ _ hsel')]

theorem binnedAt_eq (w : WF c m) (hin : st.In m) (h : st.chunk.isBinned = true) :
    m.binnedAt st.address = some st := by
  have h : st.chunk.state = .binned := of_decide_eq_true h
  exact find_eq w hin (by simp [h]) fun q x hsel => by simp at hsel; exact hsel.1

theorem isInuse_of_isBinned {x : Chunk} (h : x.isBinned = true) : x.isInuse = false := by
  have h : x.state = .binned := of_decide_eq_true h
  simp [Chunk.isInuse, h]

theorem isInuse_of_isDv {x : Chunk} (h : x.isDv = true) : x.isInuse = false := by
  have h : x.state = .dv := of_decide_eq_true h
  simp [Chunk.isInuse, h]

/-- A chunk is in use, binned or the designated victim. -/
theorem Chunk.cases (x : Chunk) : x = ⟨x.size, .inuse⟩ ∨ x = ⟨x.size, .binned⟩ ∨ x = ⟨x.size, .dv⟩ := by
  obtain ⟨n, _ | _ | _⟩ := x <;> simp

theorem isBinned_of_isInuse {x : Chunk} (hx : x.isInuse = true) : x.isBinned = false := by
  rcases x.cases with hs | hs | hs <;> rw [hs] at hx ⊢ <;> first | rfl | cases hx

theorem isDv_of_isInuse {x : Chunk} (hx : x.isInuse = true) : x.isDv = false := by
  rcases x.cases with hs | hs | hs <;> rw [hs] at hx ⊢ <;> first | rfl | cases hx

/-! ## What an operation does to the chunks of a kind -/

/-- What happens to the chunks that a test selects. -/
abbrev Trades (mark : Chunk → Bool) (m m' : MallocState) (gone added : List (Nat × Nat)) : Prop :=
  Exchange (m.extents mark) (m'.extents mark) gone added

theorem Trades.set (mark : Chunk → Bool) (hi : m.segs[i]? = some s) (t : Segment) (ts : Nat) :
    Trades mark m { m with segs := m.segs.set i t, topsize := ts }
      (marked Chunk.size mark s.base s.chunks) (marked Chunk.size mark t.base t.chunks) :=
  flatMap_set_perm (fun s : Segment => marked Chunk.size mark s.base s.chunks) hi t

/-- Chunks are recut, either in place or with no chunk behind them. -/
theorem Trades.recut (mark : Chunk → Bool) (hi : m.segs[i]? = some s) {left old right : List Chunk}
    (hs : s.chunks = left ++ old ++ right) (new : List Chunk) (ts : Nat)
    (hright : total Chunk.size new = total Chunk.size old ∨ right = []) :
    Trades mark m { m with segs := m.segs.set i { s with chunks := left ++ new ++ right }, topsize := ts }
      (marked Chunk.size mark (s.base + total Chunk.size left) old)
      (marked Chunk.size mark (s.base + total Chunk.size left) new) := by
  have hset := Trades.set mark hi { s with chunks := left ++ new ++ right } ts
  have hshift : marked Chunk.size mark
        (s.base + (total Chunk.size left + total Chunk.size new)) right =
      marked Chunk.size mark
        (s.base + (total Chunk.size left + total Chunk.size old)) right := by
    rcases hright with h | rfl
    · rw [h]
    · rfl
  refine List.perm_iff_count.mpr fun e => ?_
  have hcount := List.perm_iff_count.mp hset e
  simp only [hs, marked_append, total_append, hshift, List.count_append] at hcount ⊢
  omega

/-! ## Bins -/

/-- The bins are sound, and what happens to the chunks in them. -/
structure Relinks (c : Config) (narrow : Bool) (b b' : Bins) (gone added : List (Nat × Nat)) : Prop where
  sound : b'.Sound c narrow
  entries : Exchange b.entries b'.entries gone added

theorem Bins.Sound.relinks (h : b.Sound c narrow) : Relinks c narrow b b [] [] := ⟨h, .refl _⟩

theorem Bins.Sound.unlinks (h : b.Sound c narrow) (hmem : (p, n) ∈ b.entries) :
    Relinks c narrow b (b.unlinkChunk narrow p n) [(p, n)] [] := by
  obtain ⟨hsound, hperm⟩ := h.unlinkChunk hmem
  refine ⟨hsound, ?_⟩
  rw [Exchange, List.append_nil]
  exact (List.perm_append_singleton _ _).trans hperm.symm

theorem Bins.Sound.links (h : b.Sound c narrow) (h8 : 8 ∣ n) (p : Nat) :
    Relinks c narrow b (b.insertChunk c narrow p n) [] [(p, n)] := by
  obtain ⟨hsound, hperm⟩ := h.insertChunk h8 p
  refine ⟨hsound, ?_⟩
  rw [Exchange, List.append_nil]
  exact hperm.trans (List.perm_append_singleton _ _).symm

theorem Relinks.trans (h : Relinks c narrow b b' gone added) (h' : Relinks c narrow b' b'' gone' added') :
    Relinks c narrow b b'' (gone ++ gone') (added ++ added') :=
  ⟨h'.sound, h.entries.trans h'.entries⟩

/-! ## Neat heaps -/

/-- Whether a segment is closed by its record; the first one is by `top`, which is free. -/
structure Segment.Neat (c : Config) (closed : Bool) (s : Segment) : Prop where
  aligned : granularity c ∣ s.base
  pos : 0 < s.base
  granular : granularity c ∣ s.size
  sizes : ∀ x ∈ s.chunks, mallocAlignment c ∣ x.size
  spaced : Spaced (s.chunks.map Chunk.isInuse ++ [closed])

/-- How many chunks are taken for the designated victim. -/
def MallocState.dvCount (m : MallocState) : Nat := (m.segs.flatMap Segment.chunks).countP Chunk.isDv

structure Neat (c : Config) (m : MallocState) : Prop where
  segs : ∀ (i : Nat) (s : Segment), m.segs[i]? = some s → s.Neat c (i != 0)
  top : ∀ s ∈ m.segs.head?, s.total + m.topsize + topFootSize c = s.size ∧ 0 < m.topsize
  dv : m.dvCount ≤ 1
  footprint : m.footprint = total Segment.size m.segs
  peak : m.footprint ≤ m.maxFootprint

theorem neat_zeroInit : Neat c .zeroInit := by
  constructor <;> simp [MallocState.zeroInit, MallocState.dvCount]

/-- The fields that neatness is about. -/
structure SameShape (m m' : MallocState) : Prop where
  segs : m'.segs = m.segs
  topsize : m'.topsize = m.topsize
  footprint : m'.footprint = m.footprint
  maxFootprint : m'.maxFootprint = m.maxFootprint

theorem Neat.congr (h : Neat c m) (hs : SameShape m m') : Neat c m' := by
  obtain ⟨hsegs, htop, hfoot, hpeak⟩ := hs
  refine ⟨?_, ?_, ?_, ?_, ?_⟩
  · rw [hsegs]
    exact h.segs
  · rw [hsegs, htop]
    exact h.top
  · rw [MallocState.dvCount, hsegs]
    exact h.dv
  · rw [hfoot, hsegs]
    exact h.footprint
  · rw [hfoot, hpeak]
    exact h.peak

theorem Neat.top_first (h : Neat c m) (hi : m.segs[0]? = some s) :
    s.total + m.topsize + topFootSize c = s.size ∧ 0 < m.topsize :=
  h.top s (by rw [List.head?_eq_getElem?, hi]; rfl)

theorem Neat.dv_segment (h : Neat c m) (hi : m.segs[i]? = some s) : s.chunks.countP Chunk.isDv ≤ 1 := by
  have hcount := countP_set Segment.chunks Chunk.isDv hi { s with chunks := [] }
  have hdv := h.dv
  unfold MallocState.dvCount at hdv
  simp only [List.countP_nil] at hcount
  omega

/-- Another segment in the place of one. -/
theorem Neat.set (h : Neat c m) (hi : m.segs[i]? = some s) (ts fp : Nat) {peak : Nat} (ht : t.Neat c (i != 0))
    (htop : i = 0 → t.total + ts + topFootSize c = t.size ∧ 0 < ts) (hts : i ≠ 0 → ts = m.topsize)
    (hdv : m.dvCount + t.chunks.countP Chunk.isDv ≤ 1 + s.chunks.countP Chunk.isDv)
    (hfp : fp + s.size = m.footprint + t.size) (hpeak : fp ≤ peak) :
    Neat c { m with segs := m.segs.set i t, topsize := ts, footprint := fp, maxFootprint := peak } := by
  have hil := (List.getElem?_eq_some_iff.mp hi).1
  refine ⟨fun j u hu => ?_, fun u hu => ?_, ?_, ?_, hpeak⟩
  · by_cases hj : i = j
    · subst hj
      obtain rfl : t = u := Option.some.inj ((List.getElem?_set_self hil).symm.trans hu)
      exact ht
    · rw [List.getElem?_set_ne hj] at hu
      exact h.segs j u hu
  · by_cases h0 : i = 0
    · subst h0
      rw [List.head?_eq_getElem?, List.getElem?_set_self hil] at hu
      obtain rfl := Option.some.inj hu
      exact htop rfl
    · rw [hts h0]
      apply h.top
      rw [List.head?_eq_getElem?, List.getElem?_set_ne h0, ← List.head?_eq_getElem?] at hu
      exact hu
  · have hcount := countP_set Segment.chunks Chunk.isDv hi t
    unfold MallocState.dvCount at hdv ⊢
    simp only
    omega
  · have hsum := total_set Segment.size hi t
    have hfoot := h.footprint
    simp only
    omega

/-- What recut chunks have to satisfy for the heap to stay neat. -/
structure Fitting (c : Config) (m : MallocState) (i ts : Nat) (left old right new : List Chunk) : Prop where
  rest : i ≠ 0 → ts = m.topsize
  top : i = 0 → 0 < ts
  room : total Chunk.size new + ts = total Chunk.size old + m.topsize
  place : ts = m.topsize ∨ right = []
  sizes : ∀ x ∈ new, minChunkSize c ≤ x.size ∧ mallocAlignment c ∣ x.size
  spaced : Spaced ((left ++ new ++ right).map Chunk.isInuse ++ [i != 0])
  dv : m.dvCount + new.countP Chunk.isDv ≤ 1 + old.countP Chunk.isDv

theorem Neat.recut (h : Neat c m) (hi : m.segs[i]? = some s) {left old right : List Chunk}
    (hs : s.chunks = left ++ old ++ right) {new : List Chunk} {ts : Nat}
    (hf : Fitting c m i ts left old right new) :
    Neat c { m with segs := m.segs.set i { s with chunks := left ++ new ++ right }, topsize := ts } := by
  have hneat := h.segs i s hi
  refine h.set hi ts m.footprint ⟨hneat.aligned, hneat.pos, hneat.granular, ?_, hf.spaced⟩ ?_ hf.rest ?_ rfl h.peak
  · intro x hx
    simp only [List.mem_append] at hx
    have hold := hneat.sizes x
    simp only [hs, List.mem_append] at hold
    rcases hx with (hx | hx) | hx
    · exact hold (.inl (.inl hx))
    · exact (hf.sizes x hx).2
    · exact hold (.inr hx)
  · intro h0
    subst h0
    have htop := h.top_first hi
    have hroom := hf.room
    refine ⟨?_, hf.top rfl⟩
    simp only [Segment.total, hs, total_append] at htop ⊢
    omega
  · have hdv := hf.dv
    simp only [hs, List.countP_append]
    omega

/-! ## The invariant -/

structure Heap.Inv (c : Config) (narrow : Bool) (h : Heap) : Prop where
  wf : WF c h.m
  neat : Neat c h.m
  sound : h.bins.Sound c narrow
  linked : h.bins.entries.Perm (h.m.extents Chunk.isBinned)

variable {h : Heap}

theorem Heap.inv_zeroed : Heap.Inv c narrow ⟨.zeroInit, .init⟩ :=
  ⟨wf_zeroInit, neat_zeroInit, Bins.sound_init, by simp [MallocState.extents, MallocState.zeroInit]⟩

theorem Heap.Inv.congr (inv : h.Inv c narrow) (hs : SameHeap h.m m') (hs' : SameShape h.m m') :
    Heap.Inv c narrow ⟨m', h.bins⟩ := by
  refine ⟨inv.wf.congr hs, inv.neat.congr hs', inv.sound, ?_⟩
  unfold MallocState.extents
  rw [hs.segs]
  exact inv.linked

/-- The bins follow the binned chunks. -/
theorem Heap.Inv.relink (inv : h.Inv c narrow) (w : WF c m') (hn : Neat c m')
    (hm : Trades Chunk.isBinned h.m m' gone added) (hb : Relinks c narrow h.bins b' gone added) :
    Heap.Inv c narrow ⟨m', b'⟩ :=
  ⟨w, hn, hb.sound, hb.entries.perm hm inv.linked⟩

theorem Heap.Inv.mem_entries (inv : h.Inv c narrow) (hin : st.In h.m) (hb : st.chunk.isBinned = true) :
    (st.address, st.chunk.size) ∈ h.bins.entries :=
  inv.linked.mem_iff.mpr (mem_extents.mpr ⟨st, hin, hb, rfl, rfl⟩)

theorem Heap.Inv.top_pos (inv : h.Inv c narrow) (hin : st.In h.m) (h0 : st.index = 0) : 0 < h.m.topsize := by
  have hseg := hin.seg
  rw [h0] at hseg
  exact (inv.neat.top_first hseg).2

theorem Heap.Inv.recut (inv : h.Inv c narrow) (hi : h.m.segs[i]? = some s) {left old right : List Chunk}
    (hs : s.chunks = left ++ old ++ right) {new : List Chunk} {ts : Nat}
    (hf : Fitting c h.m i ts left old right new) (b' : Bins)
    (hb : Relinks c narrow h.bins b'
      (marked Chunk.size Chunk.isBinned (s.base + total Chunk.size left) old)
      (marked Chunk.size Chunk.isBinned (s.base + total Chunk.size left) new)) :
    Heap.Inv c narrow
      ⟨{ h.m with segs := h.m.segs.set i { s with chunks := left ++ new ++ right }, topsize := ts }, b'⟩ := by
  have hbecomes := inv.wf.rewrite hi hs new hf.rest hf.room hf.place fun x hx => (hf.sizes x hx).1
  refine inv.relink hbecomes.wf (inv.neat.recut hi hs hf) (Trades.recut _ hi hs new ts ?_) hb
  have hroom := hf.room
  exact hf.place.imp_left fun hts => by omega

end Turf.HeapDL
