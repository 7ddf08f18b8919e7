import Turf.HeapDL.Sizes

/-!
# Well-formed heaps and what an operation does to their blocks

The segments lie apart from one another, and in each of them the chunks leave the room that
the trailer needs. An operation is described by the blocks that disappear and those that
appear; everything else about the chunks in use stays.
-/
namespace Turf.HeapDL

open Turf.Lib.Extents

variable {c : Config} {m m' m'' : MallocState} {s t : Segment} {i : Nat}

def Segment.extent (s : Segment) : Nat × Nat := (s.base, s.size)

def Segment.blocks (s : Segment) : List (Nat × Nat) :=
  marked Chunk.size Chunk.isInuse s.base s.chunks

structure Segment.Sound (c : Config) (least : Nat) (s : Segment) : Prop where
  sizes : ∀ p ∈ s.chunks, minChunkSize c ≤ p.size
  foot : s.total + topFootSize c ≤ s.size
  bound : s.base + s.size ≤ modulus c
  least : least ≤ s.base

structure WF (c : Config) (m : MallocState) : Prop where
  sound : ∀ s ∈ m.segs, s.Sound c m.leastAddr
  top : ∀ s ∈ m.segs.head?, s.total + m.topsize + topFootSize c ≤ s.size
  apart : (m.segs.map Segment.extent).Pairwise Apart
  uninitialized : m.segs = [] → m.topsize = 0
  direct : m.direct = []
  mflags : m.mflags = 0
  limit : m.footprintLimit = 0

theorem wf_zeroInit : WF c .zeroInit := by
  constructor <;> simp [MallocState.zeroInit]

/-- The fields that well-formedness is about. -/
structure SameHeap (m m' : MallocState) : Prop where
  segs : m'.segs = m.segs
  topsize : m'.topsize = m.topsize
  leastAddr : m'.leastAddr = m.leastAddr
  direct : m'.direct = m.direct
  mflags : m'.mflags = m.mflags
  limit : m'.footprintLimit = m.footprintLimit

theorem WF.congr (w : WF c m) (h : SameHeap m m') : WF c m' := by
  obtain ⟨hs, ht, hl, hd, hf, hm⟩ := h
  refine ⟨?_, ?_, ?_, ?_, hd.trans w.direct, hf.trans w.mflags, hm.trans w.limit⟩
  · rw [hs, hl]; exact w.sound
  · rw [hs, ht]; exact w.top
  · rw [hs]; exact w.apart
  · rw [hs, ht]; exact w.uninitialized

theorem WF.lower (w : WF c m) {least : Nat} (h : least ≤ m.leastAddr) :
    WF c { m with leastAddr := least } := by
  refine ⟨?_, w.top, w.apart, w.uninitialized, w.direct, w.mflags, w.limit⟩
  intro s hs
  have hs := w.sound s hs
  exact ⟨hs.sizes, hs.foot, hs.bound, h.trans hs.least⟩

theorem WF.top_first (w : WF c m) (hi : m.segs[0]? = some s) : s.total + m.topsize + topFootSize c ≤ s.size :=
  w.top s (by rw [List.head?_eq_getElem?, hi]; rfl)

/-- Two segments of a well-formed heap. -/
theorem WF.apart_of (w : WF c m) {j : Nat} (hi : m.segs[i]? = some s) (hj : m.segs[j]? = some t)
    (hne : j ≠ i) : Apart t.extent s.extent := by
  have hp := List.pairwise_iff_getElem.mp (List.pairwise_map.mp w.apart)
  obtain ⟨hil, rfl⟩ := List.getElem?_eq_some_iff.mp hi
  obtain ⟨hjl, rfl⟩ := List.getElem?_eq_some_iff.mp hj
  rcases Nat.lt_or_gt_of_ne hne with h | h
  · exact hp j i hjl hil h
  · exact symm (hp i j hil hjl h)

/-- Another segment in the place of one, and the size of top that goes with it. -/
theorem WF.set (w : WF c m) (hi : m.segs[i]? = some s) {ts : Nat} (ht : t.Sound c m.leastAddr)
    (hext : ∀ j u, j ≠ i → m.segs[j]? = some u → Apart u.extent t.extent)
    (htop : i = 0 → t.total + ts + topFootSize c ≤ t.size) (hts : i ≠ 0 → ts = m.topsize) :
    WF c { m with segs := m.segs.set i t, topsize := ts } := by
  have hil := (List.getElem?_eq_some_iff.mp hi).1
  refine ⟨forall_mem_set w.sound ht, ?_, ?_, ?_, w.direct, w.mflags, w.limit⟩
  · intro u hu
    by_cases h0 : i = 0
    · subst h0
      have hut : u = t := by
        have h : (m.segs.set 0 t)[0]? = some t := List.getElem?_set_self hil
        rw [← List.head?_eq_getElem?] at h
        exact Option.some.inj (hu.symm.trans h)
      rw [hut]
      exact htop rfl
    · rw [hts h0]
      apply w.top
      rw [List.head?_eq_getElem?, List.getElem?_set_ne h0, ← List.head?_eq_getElem?] at hu
      exact hu
  · show ((m.segs.set i t).map Segment.extent).Pairwise Apart
    rw [List.map_set]
    apply pairwise_set w.apart
    intro j e hj he
    obtain ⟨u, hu, rfl⟩ := by simpa using he
    exact hext j u hj hu
  · intro h
    have hlen := congrArg List.length h
    simp at hlen
    rw [hlen] at hil
    cases hil

/-- The blocks of `m'` are those of `m`, less `gone` and with `added`. -/
structure Becomes (c : Config) (m m' : MallocState) (gone added : List (Nat × Nat)) : Prop where
  wf : WF c m'
  blocks : (m'.blocks ++ gone).Perm (m.blocks ++ added)
  counter : m'.inUseBytes = m.inUseBytes

variable {gone added gone' added' : List (Nat × Nat)}

theorem Becomes.refl (w : WF c m) : Becomes c m m [] [] := ⟨w, .refl _, rfl⟩

theorem Becomes.trans (h : Becomes c m m' gone added) (h' : Becomes c m' m'' gone' added') :
    Becomes c m m'' (gone ++ gone') (added ++ added') := by
  refine ⟨h'.wf, List.perm_iff_count.mpr ?_, h'.counter.trans h.counter⟩
  intro e
  have h₁ := List.perm_iff_count.mp h.blocks e
  have h₂ := List.perm_iff_count.mp h'.blocks e
  simp only [List.count_append] at h₁ h₂ ⊢
  omega

/-- The same difference with other lists. -/
theorem Becomes.rebalance (h : Becomes c m m' gone added)
    (hp : (gone ++ added').Perm (gone' ++ added)) : Becomes c m m' gone' added' := by
  refine ⟨h.wf, List.perm_iff_count.mpr ?_, h.counter⟩
  intro e
  have h₁ := List.perm_iff_count.mp h.blocks e
  have h₂ := List.perm_iff_count.mp hp e
  simp only [List.count_append] at h₁ h₂ ⊢
  omega

theorem Becomes.congr (h : Becomes c m m' gone added) (hs : SameHeap m' m'')
    (hc : m''.inUseBytes = m'.inUseBytes) : Becomes c m m'' gone added := by
  refine ⟨h.wf.congr hs, ?_, hc.trans h.counter⟩
  unfold MallocState.blocks at *
  rw [hs.segs]
  exact h.blocks

theorem SameHeap.becomes (h : SameHeap m m') (w : WF c m) (hc : m'.inUseBytes = m.inUseBytes) :
    Becomes c m m' [] [] := (Becomes.refl w).congr h hc

theorem blocks_set (hi : m.segs[i]? = some s) (t : Segment) :
    ((m.segs.set i t).flatMap Segment.blocks ++ s.blocks).Perm (m.blocks ++ t.blocks) :=
  flatMap_set_perm Segment.blocks hi t

theorem Becomes.of_set {ts : Nat} (w : WF c { m with segs := m.segs.set i t, topsize := ts })
    (hi : m.segs[i]? = some s) (hb : (t.blocks ++ gone).Perm (s.blocks ++ added)) :
    Becomes c m { m with segs := m.segs.set i t, topsize := ts } gone added := by
  refine ⟨w, List.perm_iff_count.mpr ?_, rfl⟩
  intro e
  have h₁ := List.perm_iff_count.mp (blocks_set hi t) e
  have h₂ := List.perm_iff_count.mp hb e
  have heq : MallocState.blocks { m with segs := m.segs.set i t, topsize := ts } =
      (m.segs.set i t).flatMap Segment.blocks := rfl
  simp only [heq, List.count_append] at h₁ h₂ ⊢
  omega

/-- Chunks of one segment are recut. Either no other chunk moves, or there is none behind them
and `top` takes the difference. -/
theorem WF.rewrite (w : WF c m) (hi : m.segs[i]? = some s) {left old right : List Chunk}
    (hs : s.chunks = left ++ old ++ right) (new : List Chunk) {ts : Nat} (hts : i ≠ 0 → ts = m.topsize)
    (hroom : total Chunk.size new + ts = total Chunk.size old + m.topsize)
    (hright : ts = m.topsize ∨ right = []) (hnew : ∀ p ∈ new, minChunkSize c ≤ p.size) :
    Becomes c m
      { m with segs := m.segs.set i { s with chunks := left ++ new ++ right }, topsize := ts }
      (marked Chunk.size Chunk.isInuse (s.base + total Chunk.size left) old)
      (marked Chunk.size Chunk.isInuse (s.base + total Chunk.size left) new) := by
  have hsound := w.sound s (List.mem_of_getElem? hi)
  have htotal : total Chunk.size (left ++ new ++ right) + ts = s.total + m.topsize := by
    simp only [Segment.total, hs, total_append]
    omega
  have htop : i = 0 → total Chunk.size (left ++ new ++ right) + ts + topFootSize c ≤ s.size := by
    intro h0
    subst h0
    have hroom := w.top_first hi
    omega
  have hfoot : total Chunk.size (left ++ new ++ right) + topFootSize c ≤ s.size := by
    -- `top` gives up no more than it had, in the first segment only
    by_cases h0 : i = 0
    · have hroom := htop h0
      omega
    · have hts := hts h0
      have hfoot := hsound.foot
      omega
  have hsizes : ∀ p ∈ left ++ new ++ right, minChunkSize c ≤ p.size := by
    intro p hp
    have hold := hsound.sizes p
    rw [hs] at hold
    simp only [List.mem_append] at hp hold
    rcases hp with (hp | hp) | hp
    · exact hold (.inl (.inl hp))
    · exact hnew p hp
    · exact hold (.inr hp)
  have hset : WF c
      { m with segs := m.segs.set i { s with chunks := left ++ new ++ right }, topsize := ts } := by
    refine w.set hi ⟨hsizes, hfoot, hsound.bound, hsound.least⟩ ?_ htop hts
    intro j u hj hu
    exact (w.apart_of hi hu hj : Apart u.extent s.extent)
  apply Becomes.of_set hset hi
  have hshift : marked Chunk.size Chunk.isInuse
        (s.base + (total Chunk.size left + total Chunk.size new)) right =
      marked Chunk.size Chunk.isInuse
        (s.base + (total Chunk.size left + total Chunk.size old)) right := by
    rcases hright with h | rfl
    · rw [show total Chunk.size new = total Chunk.size old by omega]
    · rfl
  apply List.perm_iff_count.mpr
  intro e
  simp only [Segment.blocks, hs, marked_append, total_append, hshift, List.count_append]
  omega

/-- Chunks are recut where they lie. -/
theorem WF.recut (w : WF c m) (hi : m.segs[i]? = some s) {left old right : List Chunk}
    (hs : s.chunks = left ++ old ++ right) (new : List Chunk)
    (hsize : total Chunk.size new = total Chunk.size old)
    (hnew : ∀ p ∈ new, minChunkSize c ≤ p.size) :
    Becomes c m
      { m with segs := m.segs.set i { s with chunks := left ++ new ++ right } }
      (marked Chunk.size Chunk.isInuse (s.base + total Chunk.size left) old)
      (marked Chunk.size Chunk.isInuse (s.base + total Chunk.size left) new) :=
  w.rewrite hi hs new (fun _ => rfl) (by rw [hsize]) (.inl rfl) hnew

/-- Chunks at the end of the first segment are recut, `top` taking what is left. -/
theorem WF.retop (w : WF c m) (hi : m.segs[0]? = some s) {left old : List Chunk}
    (hs : s.chunks = left ++ old) (new : List Chunk) (ts : Nat)
    (hsize : total Chunk.size new + ts = total Chunk.size old + m.topsize)
    (hnew : ∀ p ∈ new, minChunkSize c ≤ p.size) :
    Becomes c m
      { m with segs := m.segs.set 0 { s with chunks := left ++ new }, topsize := ts }
      (marked Chunk.size Chunk.isInuse (s.base + total Chunk.size left) old)
      (marked Chunk.size Chunk.isInuse (s.base + total Chunk.size left) new) := by
  have hs' : s.chunks = left ++ old ++ [] := by rw [List.append_nil, hs]
  have h := w.rewrite hi hs' new (fun h => absurd rfl h) hsize (.inr rfl) hnew
  simpa only [List.append_nil] using h

end Turf.HeapDL
