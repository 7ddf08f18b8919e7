import Turf.HeapDL.FastStats
import Turf.HeapDL.Resizing

/-!
# What a call returns

A call that hands out memory leaves the heap as it was and returns a null pointer, or it adds a block that
is large enough and aligned as asked. With the fast statistics compiled out, every such call returns.
-/
namespace Turf.HeapDL

open Turf.Lib.Extents

variable {c : Config} {narrow : Bool} {h h' : Heap} {m m' : MallocState} {b : Bins} {p n nb bytes mem : Nat}
  {st : Site} {ans : Answers} {gone : List (Nat × Nat)}

/-- The heap as it was and a null pointer, or a block of enough bytes beside its header. -/
def Hands (c : Config) (narrow : Bool) (h : Heap) (size alignment : Nat) (gone : List (Nat × Nat))
    (r : Heap × Nat) : Prop :=
  r = (h, 0) ∨ ∃ p n, r.2 = chunk2mem c p ∧ r.1.Inv c narrow ∧ size + chunkOverhead c ≤ n ∧
    (alignment.isPowerOfTwo → alignment ∣ r.2) ∧ Exchange h.m.blocks r.1.m.blocks gone [(p, n)]

/-- What the system may be asked for by a request to `dlmalloc`. -/
def Granted (c : Config) (m : MallocState) (bytes : Nat) (ans : Answers) : Prop :=
  ∀ tbase ∈ ans.mmap, Grant c m tbase (sysAllocSize c (paddedRequest c bytes))

theorem request2size_covers (c : Config) (bytes : Nat) : bytes + chunkOverhead c ≤ request2size c bytes := by
  have hc := constants c
  have hover : chunkOverhead c = sizeT c := rfl
  unfold request2size
  split
  · omega
  · rw [hover]
    exact padRequest_ge c bytes

theorem paddedRequest_covers (h : bytes < maxRequest c) : bytes + chunkOverhead c ≤ paddedRequest c bytes := by
  unfold paddedRequest
  split
  · exact request2size_covers c bytes
  · rw [if_neg (by omega)]
    exact padRequest_ge c bytes

theorem chunk2mem_dvd (h : mallocAlignment c ∣ p) : mallocAlignment c ∣ chunk2mem c p := by
  have htwo : mallocAlignment c ∣ 2 * sizeT c := by
    rcases constants c with ⟨hs, -, ha, -⟩ | ⟨hs, -, ha, -⟩ <;> rw [hs, ha]
  exact Nat.dvd_add h htwo

theorem block_address_lt (w : WF c m) (hmem : (p, n) ∈ m.blocks) : p < modulus c := by
  obtain ⟨s, hs, -, -, hmin⟩ := mem_blocks_bounds w hmem
  have hlt := block_lt w hmem
  have hpos := minChunkSize_pos c
  simp only at hmin
  omega

/-! ## dlmalloc -/

theorem serveBins_fails (w : WF c m) (hf : ¬ MemoryFor c m (paddedRequest c bytes) ans) :
    m.serveBins c narrow bytes ans b = b := by
  unfold MemoryFor at hf
  push Not at hf
  obtain ⟨hbin, hdv, htop, hmap⟩ := hf
  have hnodv : m.dv.filter (fun st => paddedRequest c bytes ≤ st.chunk.size) = none := by
    unfold MallocState.dvsize at hdv
    cases hd : m.dv with
    | none => rfl
    | some st => simpa [hd, Option.filter_some] using hdv
  unfold MallocState.serveBins MallocState.sysAllocBins
  simp only [hbin, Option.bind_none, hnodv, htop.not_gt, ite_false, useMmap_false w, overLimit_false w,
    Bool.false_and, Bool.false_eq_true, Bool.or_false, decide_eq_true_eq]
  split
  · rfl
  · next hsize => rw [hmap (by omega)]

/-- A request that is too big finds no memory. -/
theorem memoryFor_lt (w : WF c m) (hp : ans.Possible c m bytes) (hf : MemoryFor c m (paddedRequest c bytes) ans) :
    bytes < maxRequest c := by
  obtain ⟨p, n, -, hn, hb⟩ := serve_serves w hp hf
  have hmem : (p, n) ∈ (m.serve c bytes ans).1.blocks := Exchange.mem_new hb.blocks
  obtain ⟨s, hs, -, hle, -⟩ := mem_blocks_bounds hb.wf hmem
  have hfoot := (hb.wf.sound s hs).foot
  have hbound := (hb.wf.sound s hs).bound
  have hc := constants c
  by_contra hbig
  have hmax : paddedRequest c bytes = maxSizeT c := by
    rw [paddedRequest, if_neg (by omega), if_pos (by omega)]
  unfold maxSizeT at hmax
  unfold Segment.trailer at hle
  simp only at hle
  omega

/-- The fast statistics touch neither the chunks nor the pointer. -/
theorem dlmalloc_same {r : MallocState × Nat} (hr : m.dlmalloc c bytes ans = some r) :
    r.1.segs = (m.serve c bytes ans).1.segs ∧ r.2 = (m.serve c bytes ans).2 := by
  unfold MallocState.dlmalloc at hr
  simp only at hr
  split at hr
  · obtain ⟨k, -, rfl⟩ := Option.map_eq_some_iff.mp hr
    exact ⟨rfl, rfl⟩
  · obtain rfl := Option.some.inj hr
    exact ⟨rfl, rfl⟩

theorem dlmalloc_hands (inv : h.Inv c narrow) (hg : Granted c h.m bytes ans)
    (he : h.dlmalloc c narrow bytes ans = some (h', mem)) :
    Hands c narrow h bytes (mallocAlignment c) [] (h', mem) := by
  have hposs := searching_possible inv hg
  have hinv := Heap.dlmalloc_inv inv hg he
  obtain ⟨r, hr, heq⟩ := Option.map_eq_some_iff.mp he
  obtain ⟨rfl, rfl⟩ := Prod.mk.inj heq
  by_cases hf : MemoryFor c h.m (paddedRequest c bytes) (h.searching c narrow bytes ans)
  · obtain ⟨p, n, hp, hn, hb⟩ := serve_serves inv.wf hposs hf
    have hcovers := paddedRequest_covers (memoryFor_lt inv.wf hposs hf)
    have hsame := dlmalloc_same hr
    have hblocks : Exchange h.m.blocks r.1.blocks [] [(p, n)] := by
      have hblocks := hb.blocks
      unfold MallocState.blocks at hblocks ⊢
      rw [hsame.1]
      exact hblocks
    refine .inr ⟨p, n, hsame.2.trans hp, hinv, by omega, fun _ => ?_, hblocks⟩
    rw [hsame.2.trans hp]
    exact chunk2mem_dvd (hinv.block_dvd hblocks.mem_new).1
  · have hserve := serve_fails inv.wf hf
    unfold MallocState.dlmalloc at hr
    simp only [hserve, serveBins_fails inv.wf hf] at hr ⊢
    split at hr
    · rw [chunksize_null inv.wf] at hr
      cases hr
    · obtain rfl := Option.some.inj hr
      exact .inl rfl

theorem dlmalloc_returns (hfast : c.fastStats = false) (narrow : Bool) (h : Heap) (bytes : Nat) (ans : Answers) :
    (h.dlmalloc c narrow bytes ans).isSome := by
  simp [Heap.dlmalloc, MallocState.dlmalloc, hfast]

/-! ## dlmemalign -/

/-- The block at the aligned address. -/
theorem alignBlock_aligned {al : Nat} (hal : 0 < al) {q : Nat} (he : m.alignBlock c nb al p = some (m', q)) :
    al ∣ q := by
  obtain ⟨⟨m₁, newp⟩, hlead, hrest⟩ := Option.bind_eq_some_iff.mp he
  obtain ⟨m₂, -, heq⟩ := Option.map_eq_some_iff.mp hrest
  obtain ⟨-, rfl⟩ := Prod.mk.inj heq
  unfold MallocState.alignLeader at hlead
  split at hlead
  · next h0 =>
    cases hlead
    exact Nat.dvd_of_mod_eq_zero h0
  · simp only at hlead
    split at hlead
    · obtain ⟨m₃, -, heq⟩ := Option.map_eq_some_iff.mp hlead
      obtain ⟨-, rfl⟩ := Prod.mk.inj heq
      exact alignedPos_dvd hal p
    · obtain ⟨-, rfl⟩ := Prod.mk.inj (Option.some.inj hlead)
      exact alignedPos_dvd hal p

theorem isPowerOfTwo_dvd {a b : Nat} (ha : a.isPowerOfTwo) (hb : b.isPowerOfTwo) (hle : a ≤ b) : a ∣ b := by
  obtain ⟨e, rfl⟩ := ha
  obtain ⟨f, rfl⟩ := hb
  exact Nat.pow_dvd_pow 2 ((Nat.pow_le_pow_iff_right (by decide)).mp hle)

/-- A power of two is aligned to as asked. -/
theorem dvd_roundAlignment {alignment al : Nat} (hr : roundAlignment c alignment = some al)
    (hpow : alignment.isPowerOfTwo) : alignment ∣ al := by
  have hminpow : (minChunkSize c).isPowerOfTwo := by
    rcases constants c with ⟨-, -, -, hm, -⟩ | ⟨-, -, -, hm, -⟩ <;> rw [hm]
    · exact ⟨5, rfl⟩
    · exact ⟨4, rfl⟩
  have hmax : (max alignment (minChunkSize c)).isPowerOfTwo := by
    rcases Nat.le_total alignment (minChunkSize c) with hle | hle
    · rwa [Nat.max_eq_right hle]
    · rwa [Nat.max_eq_left hle]
  have hpos := minChunkSize_pos c
  have hzero : max alignment (minChunkSize c) &&& (max alignment (minChunkSize c) - 1) = 0 :=
    (Nat.and_sub_one_eq_zero_iff_isPowerOfTwo (by omega)).mpr hmax
  unfold roundAlignment at hr
  simp only [hzero, ne_eq, not_true_eq_false, ite_false] at hr
  obtain rfl := Option.some.inj hr
  exact isPowerOfTwo_dvd hpow hmax (Nat.le_max_left _ _)

theorem mallocAlignment_isPowerOfTwo (c : Config) : (mallocAlignment c).isPowerOfTwo := by
  rcases constants c with ⟨-, -, ha, -⟩ | ⟨-, -, ha, -⟩ <;> rw [ha]
  · exact ⟨4, rfl⟩
  · exact ⟨3, rfl⟩

/-- The block that an aligned allocation returns, out of the one it got. -/
theorem alignBlock_hands (inv : h.Inv c narrow) (hmem : (p, n) ∈ h.m.blocks) {alignment al : Nat}
    (hal : roundAlignment c alignment = some al) (hn : alignedRequest c al bytes + chunkOverhead c ≤ n) :
    ∃ h' q k, h.alignBlock c narrow (request2size c bytes) al p = some (h', chunk2mem c q) ∧ h'.Inv c narrow ∧
      request2size c bytes ≤ k ∧ al ∣ chunk2mem c q ∧ Exchange h.m.blocks h'.m.blocks [(p, n)] [(q, k)] := by
  have hmin := roundAlignment_ge hal
  have hpos := minChunkSize_pos c
  have hc := constants c
  have hover : chunkOverhead c = sizeT c := rfl
  have hnb := request2size_ge c bytes
  have hreq : alignedRequest c al bytes = request2size c bytes + al + minChunkSize c - chunkOverhead c := rfl
  have hsize : request2size c bytes + al + minChunkSize c ≤ n := by omega
  obtain ⟨q, k, m', hspec, hb, hk, -⟩ := alignBlock_spec inv.wf hmem hmin hnb hsize
  have hplain : (h.alignBlock c narrow (request2size c bytes) al p).map Heap.plain =
    h.m.alignBlock c (request2size c bytes) al p := alignBlock_plain
  rw [hspec] at hplain
  obtain ⟨⟨h', mem⟩, hblock, heq⟩ := Option.map_eq_some_iff.mp hplain
  obtain ⟨rfl, rfl⟩ := Prod.mk.inj heq
  have hinv := alignBlock_inv inv hmem hmin (roundAlignment_dvd hal) hnb (request2size_dvd c bytes) hsize hblock
  exact ⟨h', q, k, hblock, hinv, hk, alignBlock_aligned (by omega) hspec, hb.blocks⟩

theorem dlmemalign_hands (inv : h.Inv c narrow) {alignment : Nat}
    (hg : ∀ request ∈ mallocRequest c (.allocAligned bytes alignment), Granted c h.m request ans)
    (he : h.dlmemalign c narrow alignment bytes ans = some (h', mem)) :
    Hands c narrow h bytes alignment [] (h', mem) := by
  unfold Heap.dlmemalign at he
  split at he
  · next hsmall =>
    rcases dlmalloc_hands inv (hg bytes (by simp [mallocRequest, hsmall])) he with
      hnull | ⟨p, n, hp, hinv, hn, hdvd, hblocks⟩
    · exact .inl hnull
    · refine .inr ⟨p, n, hp, hinv, hn, fun hpow => ?_, hblocks⟩
      exact (isPowerOfTwo_dvd hpow (mallocAlignment_isPowerOfTwo c) hsmall).trans
        (hdvd (mallocAlignment_isPowerOfTwo c))
  · next hlarge =>
    obtain ⟨al, hal, hrest⟩ := Option.bind_eq_some_iff.mp he
    split at hrest
    · exact .inl (Option.some.inj hrest).symm
    · next hsize =>
      obtain ⟨⟨h₁, mem₁⟩, hmalloc, hblock⟩ := Option.bind_eq_some_iff.mp hrest
      have hrequest := mem_mallocRequest hlarge hal (Nat.lt_of_not_le hsize)
      rcases dlmalloc_hands inv (hg _ hrequest) hmalloc with hnull | ⟨p, n, rfl, hinv, hn, -, hblocks⟩
      · obtain ⟨rfl, rfl⟩ := Prod.mk.inj hnull
        exact .inl (Option.some.inj hblock).symm
      · have hmem : (p, n) ∈ h₁.m.blocks := hblocks.mem_new
        simp only [chunk2mem_ne_zero, ite_false] at hblock
        rw [mem2chunk_chunk2mem (block_address_lt hinv.wf hmem)] at hblock
        obtain ⟨h₂, q, k, hblock', hinv', hk, hdvd, hblocks'⟩ := alignBlock_hands hinv hmem hal hn
        obtain ⟨rfl, rfl⟩ := Prod.mk.inj (Option.some.inj (hblock.symm.trans hblock'))
        have hcovers := request2size_covers c bytes
        exact .inr ⟨q, k, rfl, hinv', by omega, fun hpow => (dvd_roundAlignment hal hpow).trans hdvd,
          hblocks.replace hblocks'⟩

/-- An aligned allocation returns unless it never finds the power of two to align to. -/
theorem dlmemalign_returns (hfast : c.fastStats = false) (inv : h.Inv c narrow) {alignment : Nat}
    (hg : ∀ request ∈ mallocRequest c (.allocAligned bytes alignment), Granted c h.m request ans)
    (hal : alignment ≤ mallocAlignment c ∨ (roundAlignment c alignment).isSome) :
    (h.dlmemalign c narrow alignment bytes ans).isSome := by
  unfold Heap.dlmemalign
  split
  · exact dlmalloc_returns hfast narrow h bytes ans
  · next hlarge =>
    obtain ⟨al, hal⟩ := Option.isSome_iff_exists.mp (hal.resolve_left hlarge)
    rw [Heap.internalMemalign, hal, Option.bind_some]
    split
    · rfl
    · next hsize =>
      obtain ⟨⟨h₁, mem₁⟩, hmalloc⟩ := Option.isSome_iff_exists.mp
        (dlmalloc_returns hfast narrow h (alignedRequest c al bytes) ans)
      have hrequest := mem_mallocRequest hlarge hal (Nat.lt_of_not_le hsize)
      rw [hmalloc, Option.bind_some]
      rcases dlmalloc_hands inv (hg _ hrequest) hmalloc with hnull | ⟨p, n, rfl, hinv, hn, -, hblocks⟩
      · obtain ⟨rfl, rfl⟩ := Prod.mk.inj hnull
        rfl
      · have hmem : (p, n) ∈ h₁.m.blocks := hblocks.mem_new
        obtain ⟨h₂, q, k, hblock, -⟩ := alignBlock_hands hinv hmem hal hn
        simp only [chunk2mem_ne_zero, ite_false]
        rw [mem2chunk_chunk2mem (block_address_lt hinv.wf hmem), hblock]
        rfl

/-! ## dlrealloc -/

/-- A block that is resized stays where it is or the heap stays as it was. -/
theorem resizeInPlace_spec (w : WF c m) (hin : st.In m) (huse : st.chunk.isInuse = true)
    (hmin : minChunkSize c ≤ nb) : m.resizeInPlace c st.address nb st = some (m, none) ∨
      ∃ m' k, m.resizeInPlace c st.address nb st = some (m', some st.address) ∧ nb ≤ k ∧
        Becomes c m m' [(st.address, st.chunk.size)] [(st.address, k)] := by
  have hmem := hin.mem_blocks huse
  have hpos := minChunkSize_pos c
  have hmin' := hin.size_ge w
  unfold MallocState.resizeInPlace
  simp only
  split
  · next hle =>
    split
    · obtain ⟨m', hm', hb⟩ := giveBackRest_spec w hmem hmin (by omega)
      exact .inr ⟨m', nb, by rw [hm']; rfl, le_rfl, hb⟩
    · exact .inr ⟨m, st.chunk.size, rfl, hle, (Becomes.refl w).rebalance (.refl _)⟩
  · cases hr : st.right with
    | nil =>
      simp only
      split
      · next htop =>
        simp only [Bool.and_eq_true, decide_eq_true_eq] at htop
        obtain ⟨h0, htop⟩ := htop
        have hi : m.segs[0]? = some st.seg := h0 ▸ hin.seg
        have hchunks : st.seg.chunks = st.left ++ [st.chunk] := by rw [hin.chunks, hr]
        have hb := w.retop hi hchunks [⟨nb, .inuse⟩] (st.chunk.size + m.topsize - nb) (by simp; omega)
          (by simpa using hmin)
        refine .inr ⟨_, nb, rfl, le_rfl, ?_⟩
        simpa [MallocState.write, Site.address, h0, huse] using hb
      · exact .inl rfl
    | cons next right =>
      simp only
      split
      · exact .inl rfl
      · next hroom =>
        simp only [Bool.or_eq_true, decide_eq_true_eq, not_or, Bool.not_eq_true, not_lt] at hroom
        obtain ⟨hfree, hroom⟩ := hroom
        have hchunks : st.seg.chunks = st.left ++ [st.chunk, next] ++ right := by
          rw [hin.chunks, hr]
          simp
        have hjoin : ∀ new : List Chunk, total Chunk.size new = st.chunk.size + next.size →
            (∀ x ∈ new, minChunkSize c ≤ x.size) → Becomes c m (m.write st (st.left ++ new ++ right))
              [(st.address, st.chunk.size)] (marked Chunk.size Chunk.isInuse st.address new) := by
          intro new htotal hsizes
          have hb := w.recut hin.seg hchunks new (by simpa using htotal) hsizes
          simpa [marked, huse, hfree, MallocState.write, Site.address] using hb
        split
        · refine .inr ⟨_, st.chunk.size + next.size, rfl, hroom, ?_⟩
          simpa [marked] using hjoin [⟨st.chunk.size + next.size, .inuse⟩] (by simp) (by simp; omega)
        · next hrest =>
          split
          · refine .inr ⟨_, nb, rfl, le_rfl, ?_⟩
            have hb := hjoin [⟨nb, .inuse⟩, ⟨st.chunk.size + next.size - nb, .dv⟩] (by simp; omega)
              (by simp; omega)
            simpa [marked] using hb
          · have hb := hjoin [⟨nb, .inuse⟩, ⟨st.chunk.size + next.size - nb, .inuse⟩] (by simp; omega)
              (by simp; omega)
            have hadded : (st.address + nb, st.chunk.size + next.size - nb) ∈ MallocState.blocks
                (m.write st (st.left ++ [⟨nb, .inuse⟩, ⟨st.chunk.size + next.size - nb, .inuse⟩] ++ right)) :=
              hb.mem_added (by simp [marked]) (by simp; omega)
            obtain ⟨m', hm', hb'⟩ := disposeChunk_spec hb.wf hadded
            refine .inr ⟨m', nb, ?_, le_rfl, (hb.trans hb').rebalance ?_⟩
            · simp only [List.append_assoc, List.cons_append, List.nil_append] at hm'
              rw [hm']
              rfl
            · simpa [marked] using List.Perm.swap (st.address, nb) (st.address + nb, st.chunk.size + next.size - nb) []

/-- A block that has to move leaves the bins alone. -/
theorem resizeInPlace_none (he : h.resizeInPlace c narrow p nb st = some (h', none)) : h'.bins = h.bins := by
  unfold Heap.resizeInPlace at he
  simp only at he
  split at he
  · split at he
    · obtain ⟨h₁, -, heq⟩ := Option.map_eq_some_iff.mp he
      cases heq
    · cases he
  · split at he
    · obtain ⟨r, -, heq⟩ := Option.map_eq_some_iff.mp he
      obtain ⟨rfl, -⟩ := Prod.mk.inj heq
      rfl
    · split at he
      · cases he
        rfl
      · split at he
        · obtain ⟨r, -, heq⟩ := Option.map_eq_some_iff.mp he
          obtain ⟨rfl, -⟩ := Prod.mk.inj heq
          rfl
        · split at he
          · cases he
          · obtain ⟨h₁, -, heq⟩ := Option.map_eq_some_iff.mp he
            cases heq

/-- `try_realloc_chunk` of a block. -/
theorem tryReallocChunk_hands (inv : h.Inv c narrow) (hmem : (p, n) ∈ h.m.blocks) (bytes : Nat) (ans : Answers) :
    h.tryReallocChunk c narrow p (request2size c bytes) ans = some (h, none) ∨
      ∃ h' k, h.tryReallocChunk c narrow p (request2size c bytes) ans = some (h', some p) ∧
        h'.Inv c narrow ∧ request2size c bytes ≤ k ∧ Exchange h.m.blocks h'.m.blocks [(p, n)] [(p, k)] := by
  obtain ⟨st, hst, hin, rfl, hc⟩ := inuseAt_block inv.wf hmem
  obtain ⟨s, hs, hbase, -, -⟩ := mem_blocks_bounds inv.wf hmem
  have hleast := (inv.wf.sound s hs).least
  have huse : st.chunk.isInuse = true := by rw [hc]; rfl
  have hsize : st.chunk.size = n := by rw [hc]
  have htry : ∀ nb, h.tryReallocChunk c narrow st.address nb ans = h.resizeInPlace c narrow st.address nb st := by
    intro nb
    simp only at hbase
    rw [Heap.tryReallocChunk, if_neg (by omega), hst]
  have hplain : (h.resizeInPlace c narrow st.address (request2size c bytes) st).map Heap.plain =
    h.m.resizeInPlace c st.address (request2size c bytes) st := resizeInPlace_plain
  rw [htry]
  rcases resizeInPlace_spec inv.wf hin huse (request2size_ge c bytes) with hspec | ⟨m', k, hspec, hk, hb⟩
  · rw [hspec] at hplain
    obtain ⟨⟨⟨m', b'⟩, q⟩, hres, heq⟩ := Option.map_eq_some_iff.mp hplain
    obtain ⟨rfl, rfl⟩ := Prod.mk.inj heq
    obtain rfl : b' = h.bins := resizeInPlace_none hres
    exact .inl hres
  · rw [hspec] at hplain
    obtain ⟨⟨h', q⟩, hres, heq⟩ := Option.map_eq_some_iff.mp hplain
    obtain ⟨rfl, rfl⟩ := Prod.mk.inj heq
    rw [hsize] at hb
    have hinv := resizeInPlace_inv inv hin huse (request2size_ge c bytes) (request2size_dvd c bytes) hres
    exact .inr ⟨h', k, hres, hinv, hk, hb.blocks⟩

theorem dlfree_hands (inv : h.Inv c narrow) (hpage : 9 ≤ c.granularityShift) (hmem : (p, n) ∈ h.m.blocks)
    (ans : Answers) :
    ∃ h', h.dlfree c narrow (chunk2mem c p) ans = some h' ∧ h'.Inv c narrow ∧
      Exchange h.m.blocks h'.m.blocks [(p, n)] [] := by
  obtain ⟨m', hspec, hb⟩ := dlfree_spec inv.wf hmem ans
  have hplain : (h.dlfree c narrow (chunk2mem c p) ans).map Heap.m = h.m.dlfree c (chunk2mem c p) ans := dlfree_plain
  rw [hspec] at hplain
  obtain ⟨h', hfree, rfl⟩ := Option.map_eq_some_iff.mp hplain
  have hsame : (h.m.subInUse c n).blocks = h.m.blocks := by
    unfold MallocState.blocks
    rw [(subInUse_same c h.m n).segs]
  have hblocks := hb.blocks
  rw [hsame] at hblocks
  exact ⟨h', hfree, Heap.dlfree_inv hpage inv hfree, hblocks⟩

theorem dlrealloc_hands (hpage : 9 ≤ c.granularityShift) (inv : h.Inv c narrow) (hmem : (p, n) ∈ h.m.blocks)
    (hg : bytes < maxRequest c → Granted c h.m bytes ans)
    (he : h.dlrealloc c narrow (chunk2mem c p) bytes ans = some (h', mem)) :
    Hands c narrow h bytes (mallocAlignment c) [(p, n)] (h', mem) := by
  unfold Heap.dlrealloc at he
  rw [if_neg (chunk2mem_ne_zero c p)] at he
  split at he
  · exact .inl (Option.some.inj he).symm
  · next hmax =>
    rw [mem2chunk_chunk2mem (block_address_lt inv.wf hmem)] at he
    rcases tryReallocChunk_hands inv hmem bytes ans with htry | ⟨h₁, k, htry, hinv, hk, hblocks⟩
    · rw [htry] at he
      simp only [Option.bind_some] at he
      obtain ⟨⟨h₁, mem₁⟩, hmalloc, hrest⟩ := Option.bind_eq_some_iff.mp he
      rcases dlmalloc_hands inv (hg (by omega)) hmalloc with hnull | ⟨q, k, rfl, hinv, hk, hdvd, hblocks⟩
      · obtain ⟨rfl, rfl⟩ := Prod.mk.inj hnull
        exact .inl (Option.some.inj hrest).symm
      · simp only [chunk2mem_ne_zero, ite_false] at hrest
        have hmem₁ : (p, n) ∈ h₁.m.blocks := hblocks.mem hmem (by simp)
        obtain ⟨h₂, hfree, hinv₂, hblocks₂⟩ := dlfree_hands hinv hpage hmem₁ ans
        rw [hfree] at hrest
        obtain ⟨rfl, rfl⟩ := Prod.mk.inj (Option.some.inj hrest)
        exact .inr ⟨q, k, rfl, hinv₂, hk, hdvd, hblocks.trans hblocks₂⟩
    · rw [htry] at he
      obtain ⟨rfl, rfl⟩ := Prod.mk.inj (Option.some.inj he)
      have hcovers := request2size_covers c bytes
      refine .inr ⟨p, k, rfl, hinv, by omega, fun _ => ?_, hblocks⟩
      exact chunk2mem_dvd (hinv.block_dvd (hblocks.mem_added hmem)).1

theorem dlrealloc_returns (hfast : c.fastStats = false) (hpage : 9 ≤ c.granularityShift) (inv : h.Inv c narrow)
    (hmem : (p, n) ∈ h.m.blocks) (hg : bytes < maxRequest c → Granted c h.m bytes ans) :
    (h.dlrealloc c narrow (chunk2mem c p) bytes ans).isSome := by
  unfold Heap.dlrealloc
  rw [if_neg (chunk2mem_ne_zero c p)]
  split
  · rfl
  · next hmax =>
    rw [mem2chunk_chunk2mem (block_address_lt inv.wf hmem)]
    rcases tryReallocChunk_hands inv hmem bytes ans with htry | ⟨h₁, k, htry, -⟩
    · obtain ⟨⟨h₁, mem₁⟩, hmalloc⟩ := Option.isSome_iff_exists.mp
        (dlmalloc_returns hfast narrow h bytes ans)
      simp only [htry, hmalloc, Option.bind_some]
      rcases dlmalloc_hands inv (hg (by omega)) hmalloc with hnull | ⟨q, k, rfl, hinv, -, -, hblocks⟩
      · obtain ⟨rfl, rfl⟩ := Prod.mk.inj hnull
        rfl
      · obtain ⟨h₂, hfree, -⟩ := dlfree_hands hinv hpage (hblocks.mem hmem (by simp)) ans
        simp [chunk2mem_ne_zero, hfree]
    · rw [htry]
      rfl

end Turf.HeapDL
