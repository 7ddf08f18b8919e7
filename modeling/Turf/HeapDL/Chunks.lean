import Turf.HeapDL.Wellformed

/-!
# Searching, splitting and consolidating chunks
-/
namespace Turf.HeapDL

open Turf.Lib.Extents

variable {c : Config} {m m' : MallocState} {s : Segment} {i p n : Nat} {st : Site}

/-- The site is one of the heap. -/
structure Site.In (st : Site) (m : MallocState) : Prop where
  seg : m.segs[st.index]? = some st.seg
  chunks : st.seg.chunks = st.left ++ st.chunk :: st.right

theorem find_spec {sel : Nat → Chunk → Bool} (h : m.find sel = some st) :
    st.In m ∧ sel st.address st.chunk = true := by
  obtain ⟨⟨s, i⟩, hmem, hs⟩ := List.exists_of_findSome?_eq_some h
  obtain ⟨⟨l, x, r⟩, hsplit, rfl⟩ := Option.map_eq_some_iff.mp hs
  obtain ⟨hchunks, hsel⟩ := split?_eq_some Chunk.size hsplit
  exact ⟨⟨List.mem_zipIdx_iff_getElem?.mp hmem, hchunks⟩, hsel⟩

theorem find_isSome {sel : Nat → Chunk → Bool} (hi : st.In m)
    (h : sel st.address st.chunk = true) : (m.find sel).isSome := by
  apply List.findSome?_isSome_iff.mpr
  refine ⟨(st.seg, st.index), List.mem_zipIdx_iff_getElem?.mpr hi.seg, ?_⟩
  rw [Option.isSome_map, hi.chunks]
  exact split?_isSome Chunk.size h

theorem inuseAt_spec (h : m.inuseAt p = some st) :
    st.In m ∧ st.address = p ∧ st.chunk.isInuse = true := by
  have hs := find_spec h
  simpa using hs

theorem Site.In.sound (hi : st.In m) (w : WF c m) : st.seg.Sound c m.leastAddr :=
  w.sound _ (List.mem_of_getElem? hi.seg)

theorem Site.In.size_ge (hi : st.In m) (w : WF c m) : minChunkSize c ≤ st.chunk.size :=
  (hi.sound w).sizes _ (by simp [hi.chunks])

theorem Site.In.mem_blocks (hi : st.In m) (h : st.chunk.isInuse = true) :
    (st.address, st.chunk.size) ∈ m.blocks := by
  apply List.mem_flatMap.mpr ⟨st.seg, List.mem_of_getElem? hi.seg, _⟩
  exact (mem_marked Chunk.size Chunk.isInuse).mpr
    ⟨st.left, st.chunk, st.right, hi.chunks, h, rfl, rfl⟩

/-- The extents of the chunks that a test selects. -/
def MallocState.extents (mark : Chunk → Bool) (m : MallocState) : List (Nat × Nat) :=
  m.segs.flatMap fun s => marked Chunk.size mark s.base s.chunks

theorem mem_extents_bounds (w : WF c m) {mark : Chunk → Bool} {e : Nat × Nat} (he : e ∈ m.extents mark) :
    ∃ s ∈ m.segs, s.base ≤ e.1 ∧ e.1 + e.2 ≤ s.trailer ∧ minChunkSize c ≤ e.2 := by
  obtain ⟨s, hs, hmem⟩ := List.mem_flatMap.mp he
  have hb := marked_bounds Chunk.size mark hmem
  obtain ⟨l, x, r, hl, -, -, hn⟩ := (mem_marked Chunk.size mark).mp hmem
  have hx := (w.sound s hs).sizes x (by simp [hl])
  exact ⟨s, hs, hb.1, hb.2, hn ▸ hx⟩

theorem mem_blocks_bounds (w : WF c m) {e : Nat × Nat} (he : e ∈ m.blocks) :
    ∃ s ∈ m.segs, s.base ≤ e.1 ∧ e.1 + e.2 ≤ s.trailer ∧ minChunkSize c ≤ e.2 :=
  mem_extents_bounds w (show e ∈ m.extents Chunk.isInuse from he)

/-- No two chunks overlap. -/
theorem extents_apart (w : WF c m) (mark : Chunk → Bool) : (m.extents mark).Pairwise Apart := by
  apply List.pairwise_flatMap.mpr
  constructor
  · intro s _
    exact marked_apart Chunk.size mark s.base s.chunks
  · apply (List.pairwise_map.mp w.apart).imp_of_mem
    intro s t hs ht h x hx y hy
    have hxb := marked_bounds Chunk.size mark hx
    have hyb := marked_bounds Chunk.size mark hy
    have hsf := (w.sound s hs).foot
    have htf := (w.sound t ht).foot
    unfold Segment.total at hsf htf
    unfold Apart Segment.extent at h
    unfold Apart
    simp only at h
    omega

/-- No two blocks overlap. -/
theorem blocks_apart (w : WF c m) : m.blocks.Pairwise Apart := extents_apart w Chunk.isInuse

theorem blocks_unique (w : WF c m) {n' : Nat} (h : (p, n) ∈ m.blocks) (h' : (p, n') ∈ m.blocks) :
    n = n' := by
  by_contra hne
  have hap := (blocks_apart w).forall h h' (by simpa using hne)
  obtain ⟨-, -, -, -, hn⟩ := mem_blocks_bounds w h
  obtain ⟨-, -, -, -, hn'⟩ := mem_blocks_bounds w h'
  have hpos := minChunkSize_pos c
  unfold Apart at hap
  simp only at hap hn hn'
  omega

/-- The chunk in use at the address of a block is the block. -/
theorem inuseAt_block (w : WF c m) (h : (p, n) ∈ m.blocks) :
    ∃ st, m.inuseAt p = some st ∧ st.In m ∧ st.address = p ∧ st.chunk = ⟨n, .inuse⟩ := by
  obtain ⟨s, hs, hmem⟩ := List.mem_flatMap.mp h
  obtain ⟨i, hi⟩ := List.getElem?_of_mem hs
  obtain ⟨l, x, r, hl, hx, hp, -⟩ := (mem_marked Chunk.size Chunk.isInuse).mp hmem
  have hin : Site.In ⟨i, s, l, x, r⟩ m := ⟨hi, hl⟩
  have hsome : (m.inuseAt p).isSome := find_isSome hin (by simp [Site.address, hp, hx])
  obtain ⟨st, hst⟩ := Option.isSome_iff_exists.mp hsome
  obtain ⟨hst', haddr, huse⟩ := inuseAt_spec hst
  have hsize := hst'.mem_blocks huse
  rw [haddr] at hsize
  refine ⟨st, hst, hst', haddr, ?_⟩
  have hn := blocks_unique w hsize h
  have hstate : st.chunk.state = .inuse := by simpa [Chunk.isInuse] using huse
  rcases hc : st.chunk with ⟨size, state⟩
  rw [hc] at hn hstate
  simp only at hn hstate
  rw [hn, hstate]

theorem inuseAt_of_not_block (h : ∀ n, (p, n) ∉ m.blocks) : m.inuseAt p = none := by
  apply Option.eq_none_iff_forall_not_mem.mpr
  intro st hst
  obtain ⟨hin, haddr, huse⟩ := inuseAt_spec hst
  exact h _ (haddr ▸ hin.mem_blocks huse)

theorem chunksize_block (w : WF c m) (h : (p, n) ∈ m.blocks) : m.chunksize c p = some n := by
  obtain ⟨st, hst, -, -, hc⟩ := inuseAt_block w h
  simp [MallocState.chunksize, hst, hc]

/-- There is no chunk below a null pointer. -/
theorem chunksize_null (w : WF c m) : m.chunksize c (mem2chunk c 0) = none := by
  have hc := constants c
  have hnone : m.inuseAt (mem2chunk c 0) = none := by
    apply inuseAt_of_not_block
    intro n hn
    obtain ⟨s, hs, -, hle, hmin⟩ := mem_blocks_bounds w hn
    have hfoot := (w.sound s hs).foot
    have hbound := (w.sound s hs).bound
    have hp : mem2chunk c 0 = modulus c - 2 * sizeT c := by
      unfold mem2chunk
      rw [Nat.zero_add, Nat.mod_eq_of_lt (by omega)]
    unfold Segment.trailer at hle
    simp only at hle hmin
    omega
  simp [MallocState.chunksize, hnone, w.direct]

@[simp] theorem marked_single (b : Nat) (x : Chunk) :
    marked Chunk.size Chunk.isInuse b [x] = if x.isInuse then [(b, x.size)] else [] := by
  simp [marked]

@[simp] theorem isInuse_inuse (n : Nat) : Chunk.isInuse ⟨n, .inuse⟩ = true := rfl

/-- The chunk at a site is replaced by chunks of the same total size. -/
theorem Site.In.recut (hi : st.In m) (w : WF c m) (new : List Chunk)
    (hsize : total Chunk.size new = st.chunk.size) (hnew : ∀ x ∈ new, minChunkSize c ≤ x.size) :
    Becomes c m (m.write st (st.left ++ new ++ st.right))
      (if st.chunk.isInuse then [(st.address, st.chunk.size)] else [])
      (marked Chunk.size Chunk.isInuse st.address new) := by
  have hchunks : st.seg.chunks = st.left ++ [st.chunk] ++ st.right := by simp [hi.chunks]
  have h := w.recut hi.seg hchunks new (by simpa using hsize) hnew
  rw [marked_single] at h
  exact h

theorem splitInuse_spec (w : WF c m) (h : (p, n) ∈ m.blocks) {k : Nat}
    (hk : minChunkSize c ≤ k) (hn : minChunkSize c + k ≤ n) :
    ∃ m', m.splitInuse p k = some m' ∧ Becomes c m m' [(p, n)] [(p, k), (p + k, n - k)] := by
  obtain ⟨st, hst, hin, rfl, hc⟩ := inuseAt_block w h
  have hsize : st.chunk.size = n := by rw [hc]
  refine ⟨_, by rw [MallocState.splitInuse, hst]; rfl, ?_⟩
  have hb := hin.recut w [⟨k, .inuse⟩, ⟨st.chunk.size - k, .inuse⟩]
    (by simp; omega) (by simp; omega)
  simpa [marked, hc, Chunk.isInuse] using hb

@[simp] theorem freeChunk_size (n : Nat) (d : Bool) : (freeChunk n d).size = n := rfl

@[simp] theorem freeChunk_isInuse (n : Nat) (d : Bool) : (freeChunk n d).isInuse = false := by
  cases d <;> rfl

theorem backward_spec {left l : List Chunk} {k k' : Nat} {d : Bool}
    (h : backward left k = (l, k', d)) :
    ∃ old, left = l ++ old ∧ k' = total Chunk.size old + k ∧ ∀ x ∈ old, x.isInuse = false := by
  have hnone : left = left ++ [] ∧ k = total Chunk.size [] + k ∧
      ∀ x ∈ ([] : List Chunk), x.isInuse = false := by simp
  unfold backward at h
  split at h
  · next prev hprev =>
    have hleft := List.dropLast_append_getLast? prev hprev
    split at h
    · cases h
      exact ⟨[], hnone⟩
    · next hfree =>
      cases h
      exact ⟨[prev], hleft.symm, by simp, by simpa using hfree⟩
  · cases h
    exact ⟨[], hnone⟩

/-- The chunks that a consolidation takes together hold the freed block and nothing else. -/
theorem marked_freed {b : Nat} {old more : List Chunk} {x : Chunk} (hx : x.isInuse = true)
    (hold : ∀ y ∈ old, y.isInuse = false) (hmore : ∀ y ∈ more, y.isInuse = false) :
    marked Chunk.size Chunk.isInuse b (old ++ x :: more) =
      [(b + total Chunk.size old, x.size)] := by
  rw [marked_append, marked_eq_nil _ _ hold, marked, if_pos hx, marked_eq_nil _ _ hmore]
  rfl

/-- A block and the free chunks next to it become one free chunk. -/
theorem Site.In.merged (hin : st.In m) (w : WF c m) (huse : st.chunk.isInuse = true)
    {l old right : List Chunk} (hleft : st.left = l ++ old) (more : List Chunk)
    (hright : st.right = more ++ right)
    (hold : ∀ x ∈ old, x.isInuse = false) (hmore : ∀ x ∈ more, x.isInuse = false) {k : Nat}
    (hk : k = total Chunk.size old + st.chunk.size + total Chunk.size more) (d : Bool) :
    Becomes c m (m.write st (l ++ freeChunk k d :: right)) [(st.address, st.chunk.size)] [] := by
  have hmin := hin.size_ge w
  have hchunks : st.seg.chunks = l ++ (old ++ st.chunk :: more) ++ right := by
    rw [hin.chunks, hleft, hright]
    simp
  have h := w.recut hin.seg hchunks [freeChunk k d] (by simp; omega) (by simp; omega)
  rw [marked_freed huse hold hmore, Nat.add_assoc, ← total_append, ← hleft] at h
  simpa [MallocState.write, Site.address] using h

theorem consolidate_spec (w : WF c m) (hin : st.In m) (huse : st.chunk.isInuse = true) :
    Becomes c m (m.consolidate st).1 [(st.address, st.chunk.size)] [] := by
  obtain ⟨⟨l, k, d⟩, hb⟩ : ∃ r, backward st.left st.chunk.size = r := ⟨_, rfl⟩
  obtain ⟨old, hleft, hk, hold⟩ := backward_spec hb
  have hnone : ∀ x ∈ ([] : List Chunk), x.isInuse = false := by simp
  unfold MallocState.consolidate
  simp only [hb]
  split
  · next hright =>
    split
    · next h0 =>
      -- `top` takes the block in
      have hi : m.segs[0]? = some st.seg := h0 ▸ hin.seg
      have hchunks : st.seg.chunks = l ++ (old ++ st.chunk :: []) := by
        rw [hin.chunks, hleft, hright, List.append_assoc]
      have h := w.retop hi hchunks [] (m.topsize + k) (by simp; omega) (by simp)
      rw [marked_freed huse hold hnone, Nat.add_assoc, ← total_append, ← hleft] at h
      simpa [MallocState.write, Site.address, h0] using h
    · exact hin.merged w huse hleft [] hright hold hnone (by simpa using hk) d
  · next nxt right hright =>
    split
    · exact hin.merged w huse hleft [] hright hold hnone (by simpa using hk) d
    · next hnext =>
      apply hin.merged w huse hleft [nxt] hright hold
      · simpa using hnext
      · simp [hk]

end Turf.HeapDL
