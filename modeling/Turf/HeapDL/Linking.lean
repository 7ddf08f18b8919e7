import Turf.HeapDL.Census
import Turf.HeapDL.Serving

/-!
# Serving a request with the bins in step

A chunk from a bin, the designated victim or the low end of `top` is cut, and what is left of it goes
where the source puts it.
-/
namespace Turf.HeapDL

open Turf.Lib.Extents

variable {c : Config} {narrow : Bool} {h : Heap} {m m' : MallocState} {b b' : Bins} {s : Segment} {i p n nb : Nat}
  {st : Site}

theorem mallocAlignment_dvd (c : Config) :
    8 ∣ mallocAlignment c ∧ mallocAlignment c ∣ minChunkSize c ∧ mallocAlignment c ∣ granularity c := by
  have hg : 2 ^ 7 ∣ granularity c := Nat.pow_dvd_pow 2 c.granularity_large
  have hc := constants c
  refine ⟨?_, ?_, Dvd.dvd.trans ?_ hg⟩
  · rcases hc with ⟨-, -, h, -⟩ | ⟨-, -, h, -⟩ <;> omega
  · rcases hc with ⟨-, -, h, h', -⟩ | ⟨-, -, h, h', -⟩ <;> rw [h, h'] <;> omega
  · rcases hc with ⟨-, -, h, -⟩ | ⟨-, -, h, -⟩ <;> rw [h] <;> decide

theorem padRequest_dvd (c : Config) (req : Nat) : mallocAlignment c ∣ padRequest c req := Nat.dvd_mul_left _ _

theorem request2size_dvd (c : Config) (req : Nat) : mallocAlignment c ∣ request2size c req := by
  unfold request2size
  split
  · exact (mallocAlignment_dvd c).2.1
  · exact padRequest_dvd c req

/-- Only a request that is too big is padded to something else than a chunk size. -/
theorem paddedRequest_dvd {bytes : Nat} (h : paddedRequest c bytes + 1 < modulus c) :
    mallocAlignment c ∣ paddedRequest c bytes := by
  unfold paddedRequest at *
  split
  · exact request2size_dvd c bytes
  · next hlarge =>
    rw [if_neg hlarge] at h
    split
    · next hmax =>
      rw [if_pos hmax, maxSizeT] at h
      omega
    · exact padRequest_dvd c bytes

/-! ## Cuts of one chunk -/

theorem Neat.site (n : Neat c m) (hin : st.In m) : st.seg.Neat c (st.index != 0) ∧
    mallocAlignment c ∣ st.chunk.size ∧
    Spaced (st.left.map Chunk.isInuse ++ st.chunk.isInuse ::
      (st.right.map Chunk.isInuse ++ [st.index != 0])) := by
  have hseg := n.segs _ _ hin.seg
  refine ⟨hseg, hseg.sizes _ (by rw [hin.chunks]; simp), ?_⟩
  have hspaced := hseg.spaced
  rw [hin.chunks] at hspaced
  simpa using hspaced

/-- A chunk is cut into others in its place. -/
theorem Heap.Inv.cut (inv : h.Inv c narrow) (hin : st.In h.m) (new : List Chunk) (b' : Bins)
    (hsize : total Chunk.size new = st.chunk.size)
    (hsizes : ∀ x ∈ new, minChunkSize c ≤ x.size ∧ mallocAlignment c ∣ x.size)
    (hspaced : Spaced (st.left.map Chunk.isInuse ++ (new.map Chunk.isInuse ++
      (st.right.map Chunk.isInuse ++ [st.index != 0]))))
    (hdv : h.m.dvCount + new.countP Chunk.isDv ≤ 1 + [st.chunk].countP Chunk.isDv)
    (hb : Relinks c narrow h.bins b' (marked Chunk.size Chunk.isBinned st.address [st.chunk])
      (marked Chunk.size Chunk.isBinned st.address new)) :
    Heap.Inv c narrow ⟨h.m.write st (st.left ++ new ++ st.right), b'⟩ := by
  refine inv.recut hin.seg (by rw [hin.chunks]; simp)
    ⟨fun _ => rfl, inv.top_pos hin, by simp [hsize], .inl rfl, hsizes, ?_, hdv⟩ b' hb
  simpa using hspaced

@[simp] theorem isBinned_binned (n : Nat) : Chunk.isBinned ⟨n, .binned⟩ = true := rfl
@[simp] theorem isBinned_inuse (n : Nat) : Chunk.isBinned ⟨n, .inuse⟩ = false := rfl
@[simp] theorem isBinned_dv (n : Nat) : Chunk.isBinned ⟨n, .dv⟩ = false := rfl
@[simp] theorem isInuse_binned (n : Nat) : Chunk.isInuse ⟨n, .binned⟩ = false := rfl
@[simp] theorem isInuse_dv (n : Nat) : Chunk.isInuse ⟨n, .dv⟩ = false := rfl
@[simp] theorem isDv_binned (n : Nat) : Chunk.isDv ⟨n, .binned⟩ = false := rfl
@[simp] theorem isDv_inuse (n : Nat) : Chunk.isDv ⟨n, .inuse⟩ = false := rfl
@[simp] theorem isDv_dv (n : Nat) : Chunk.isDv ⟨n, .dv⟩ = true := rfl

/-- What is left of a free chunk has to be large enough for a chunk. -/
theorem rest_dvd (hn : mallocAlignment c ∣ n) (hnb : mallocAlignment c ∣ nb) : mallocAlignment c ∣ n - nb :=
  Nat.dvd_sub hn hnb

/-- A free chunk is taken whole. -/
theorem Heap.Inv.whole (inv : h.Inv c narrow) (hin : st.In h.m) (hfree : st.chunk.isInuse = false)
    (hb : Relinks c narrow h.bins b' (marked Chunk.size Chunk.isBinned st.address [st.chunk]) []) :
    Heap.Inv c narrow ⟨h.m.write st (st.left ++ ⟨st.chunk.size, .inuse⟩ :: st.right), b'⟩ := by
  obtain ⟨-, hdvd, hspaced⟩ := inv.neat.site hin
  have hmin := hin.size_ge inv.wf
  have hdv := inv.neat.dv
  have hcut := inv.cut hin [⟨st.chunk.size, .inuse⟩] b' (by simp) (by simp [hmin, hdvd])
    (by
      rw [hfree] at hspaced
      simpa using ⟨hspaced.left, hspaced.right.tail⟩)
    (by simp; omega) (by simpa [marked] using hb)
  simpa using hcut

/-- A free chunk is split, and the rest of it is free. -/
theorem Heap.Inv.divided (inv : h.Inv c narrow) (hin : st.In h.m) (hfree : st.chunk.isInuse = false)
    (hmin : minChunkSize c ≤ nb) (hnb : nb + minChunkSize c ≤ st.chunk.size)
    (hdvd : mallocAlignment c ∣ nb) {rest : Chunk} (hrest : rest.size = st.chunk.size - nb)
    (hfree' : rest.isInuse = false)
    (hdv : h.m.dvCount + [rest].countP Chunk.isDv ≤ 1 + [st.chunk].countP Chunk.isDv)
    (hb : Relinks c narrow h.bins b' (marked Chunk.size Chunk.isBinned st.address [st.chunk])
      (marked Chunk.size Chunk.isBinned (st.address + nb) [rest])) :
    Heap.Inv c narrow ⟨h.m.write st (st.left ++ ⟨nb, .inuse⟩ :: rest :: st.right), b'⟩ := by
  obtain ⟨-, hdvd', hspaced⟩ := inv.neat.site hin
  have hrest' := rest_dvd hdvd' hdvd
  have hcut := inv.cut hin [⟨nb, .inuse⟩, rest] b' (by simp [hrest]; omega)
    (by simp [hrest, hmin, hdvd, hrest']; omega)
    (by
      rw [hfree] at hspaced
      simpa [hfree'] using ⟨hspaced.left, hspaced.right⟩)
    (by simpa [List.countP_cons] using hdv)
    (by simpa [marked] using hb)
  simpa using hcut

/-! ## The designated victim -/

theorem marked_retireDv (base : Nat) (l : List Chunk) :
    (marked Chunk.size Chunk.isBinned base (l.map Chunk.retireDv)).Perm
      (marked Chunk.size Chunk.isBinned base l ++ marked Chunk.size Chunk.isDv base l) := by
  induction l generalizing base with
  | nil => exact .refl _
  | cons x xs ih =>
    obtain ⟨n, _ | _ | _⟩ := x
    · simpa [marked, Chunk.retireDv] using ih (base + n)
    · simpa [marked, Chunk.retireDv] using ih (base + n)
    · simpa [marked, Chunk.retireDv] using ((ih (base + n)).cons (base, n)).trans List.perm_middle.symm

theorem retireDv_trades (m : MallocState) :
    Trades Chunk.isBinned m m.retireDv [] (m.extents Chunk.isDv) := by
  unfold Trades Exchange MallocState.extents MallocState.retireDv
  rw [List.append_nil, List.flatMap_map]
  induction m.segs with
  | nil => exact .refl _
  | cons s ss ih =>
    simp only [List.flatMap_cons]
    refine ((marked_retireDv s.base s.chunks).append ih).trans ?_
    rw [List.append_assoc, List.append_assoc]
    exact (List.perm_append_comm_assoc _ _ _).append_left _

theorem retireDv_dvCount (m : MallocState) : m.retireDv.dvCount = 0 := by
  rw [MallocState.dvCount, List.countP_eq_zero]
  intro x hx
  obtain ⟨s, hs, hx⟩ := List.mem_flatMap.mp hx
  obtain ⟨t, -, rfl⟩ := List.mem_map.mp hs
  obtain ⟨⟨n, _ | _ | _⟩, -, rfl⟩ := List.mem_map.mp hx <;> simp [Chunk.retireDv]

theorem Neat.retireDv (hn : Neat c m) : Neat c m.retireDv := by
  refine ⟨fun i s hs => ?_, fun s hs => ?_, ?_, ?_, hn.peak⟩
  · obtain ⟨t, ht, rfl⟩ : ∃ t, m.segs[i]? = some t ∧ { t with chunks := t.chunks.map Chunk.retireDv } = s := by
      simpa [MallocState.retireDv] using hs
    have hneat := hn.segs i t ht
    refine ⟨hneat.aligned, hneat.pos, hneat.granular, fun x hx => ?_, ?_⟩
    · obtain ⟨y, hy, rfl⟩ := List.mem_map.mp hx
      rw [retireDv_size]
      exact hneat.sizes y hy
    · have hmap : (t.chunks.map Chunk.retireDv).map Chunk.isInuse = t.chunks.map Chunk.isInuse := by
        rw [List.map_map]
        exact List.map_congr_left fun x _ => retireDv_isInuse x
      rw [hmap]
      exact hneat.spaced
  · obtain ⟨t, ht, rfl⟩ : ∃ t, m.segs.head? = some t ∧ { t with chunks := t.chunks.map Chunk.retireDv } = s := by
      simpa [MallocState.retireDv, List.head?_map] using hs
    rw [Segment.total, retireDv_total]
    exact hn.top t ht
  · rw [retireDv_dvCount]
    exact Nat.zero_le 1
  · have hsum : total Segment.size (m.segs.map fun s => { s with chunks := s.chunks.map Chunk.retireDv }) =
        total Segment.size m.segs := total_map _ _ _
    exact hn.footprint.trans hsum.symm

/-- The designated victim is the only chunk of its kind. -/
theorem Neat.dv_cases (hn : Neat c m) : (m.dv = none ∧ m.extents Chunk.isDv = []) ∨
    ∃ st, m.dv = some st ∧ st.In m ∧ st.chunk.isDv = true ∧
      m.extents Chunk.isDv = [(st.address, st.chunk.size)] := by
  have hlen : (m.extents Chunk.isDv).length ≤ 1 := by
    have hcount : (m.extents Chunk.isDv).length = m.dvCount := by
      rw [MallocState.extents, MallocState.dvCount, List.length_flatMap, List.countP_flatMap]
      simp only [length_marked, Function.comp_def]
    exact hcount ▸ hn.dv
  cases hdv : m.dv with
  | some st =>
    obtain ⟨hin, hsel⟩ := find_spec hdv
    refine .inr ⟨st, rfl, hin, hsel, ?_⟩
    have hmem : (st.address, st.chunk.size) ∈ m.extents Chunk.isDv := mem_extents.mpr ⟨st, hin, hsel, rfl, rfl⟩
    cases he : m.extents Chunk.isDv with
    | nil => rw [he] at hmem; cases hmem
    | cons e es =>
      rw [he] at hmem hlen
      obtain rfl : es = [] := by simpa using hlen
      rw [List.mem_singleton.mp hmem]
  | none =>
    refine .inl ⟨rfl, List.eq_nil_iff_forall_not_mem.mpr fun e he => ?_⟩
    obtain ⟨st, hin, hsel, -, -⟩ := mem_extents.mp he
    have hsome : (m.find fun _ x => x.isDv).isSome := find_isSome hin hsel
    change m.dv.isSome at hsome
    rw [hdv] at hsome
    cases hsome

/-- The designated victim there was goes into a smallbin, if it is small. -/
theorem replaceDvBins_relinks (hn : Neat c m) (hs : b.Sound c narrow) (hsmall : isSmall m.dvsize) :
    Relinks c narrow b (m.replaceDvBins b) [] (m.extents Chunk.isDv) := by
  unfold MallocState.replaceDvBins
  unfold MallocState.dvsize at hsmall
  rcases hn.dv_cases with ⟨hdv, he⟩ | ⟨st, hdv, hin, -, he⟩
  · rw [hdv, he]
    exact hs.relinks
  · rw [hdv] at hsmall
    rw [hdv, he]
    obtain ⟨-, hdvd, -⟩ := hn.site hin
    have hlinks := hs.links ((mallocAlignment_dvd c).1.trans hdvd) st.address
    unfold Bins.insertChunk at hlinks
    rwa [if_pos hsmall] at hlinks

/-! ## Branches of `dlmalloc` -/

theorem takeBinned_inv (inv : h.Inv c narrow) (hin : st.In h.m) (hbin : st.chunk.isBinned = true)
    (hmin : minChunkSize c ≤ nb) (hnb : nb ≤ st.chunk.size) (hdvd : mallocAlignment c ∣ nb) {small : Bool}
    (hsmall : small = true → minChunkSize c ≤ st.chunk.size - nb → isSmall h.m.dvsize) :
    Heap.Inv c narrow ⟨h.m.takeBinned c small nb st, h.m.takeBinnedBins c narrow small nb st h.bins⟩ := by
  have hfree := isInuse_of_isBinned hbin
  have hmark : marked Chunk.size Chunk.isBinned st.address [st.chunk] = [(st.address, st.chunk.size)] := by
    simp [marked, hbin]
  have hnodv : st.chunk.isDv = false := by
    have hstate : st.chunk.state = .binned := of_decide_eq_true hbin
    simp [Chunk.isDv, hstate]
  have hunlink := inv.sound.unlinks (inv.mem_entries hin hbin)
  obtain ⟨-, hsize, -⟩ := inv.neat.site hin
  have hdv := inv.neat.dv
  unfold MallocState.takeBinned MallocState.takeBinnedBins
  simp only
  split
  · exact inv.whole hin hfree (by rw [hmark]; exact hunlink)
  · next hrest =>
    cases small with
    | false =>
      have hlink := hunlink.sound.links ((mallocAlignment_dvd c).1.trans (rest_dvd hsize hdvd)) (st.address + nb)
      refine inv.divided hin hfree hmin (by omega) hdvd rfl rfl (by simp; omega) ?_
      rw [hmark]
      exact hunlink.trans hlink
    | true =>
      -- The old designated victim is binned before the rest takes its place.
      have hreplace := replaceDvBins_relinks inv.neat hunlink.sound (hsmall rfl (by omega))
      have hret := retireDv_becomes inv.wf
      have hseg : h.m.retireDv.segs[st.index]? =
          some { st.seg with chunks := st.seg.chunks.map Chunk.retireDv } := by
        simp [MallocState.retireDv, hin.seg]
      have hchunk : st.chunk.retireDv = st.chunk := by simp [Chunk.retireDv, hnodv]
      have hchunks : st.seg.chunks.map Chunk.retireDv =
          st.left.map Chunk.retireDv ++ [st.chunk] ++ st.right.map Chunk.retireDv := by
        rw [hin.chunks, List.map_append, List.map_cons, hchunk]
        simp
      have hsite : Site.In ⟨st.index, { st.seg with chunks := st.seg.chunks.map Chunk.retireDv },
          st.left.map Chunk.retireDv, st.chunk, st.right.map Chunk.retireDv⟩ h.m.retireDv :=
        ⟨hseg, by rw [hchunks]; simp⟩
      obtain ⟨-, -, hspaced⟩ := inv.neat.retireDv.site hsite
      have htop : st.index = 0 → 0 < h.m.retireDv.topsize := by
        intro h0
        rw [h0] at hseg
        exact (inv.neat.retireDv.top_first hseg).2
      have hf : Fitting c h.m.retireDv st.index h.m.retireDv.topsize (st.left.map Chunk.retireDv) [st.chunk]
          (st.right.map Chunk.retireDv) [⟨nb, .inuse⟩, ⟨st.chunk.size - nb, .dv⟩] := by
        refine ⟨fun _ => rfl, htop, by simp; omega, .inl rfl, ?_, ?_, ?_⟩
        · simp [hmin, hdvd, rest_dvd hsize hdvd]
          omega
        · simp only [hfree] at hspaced
          rw [List.map_append, List.map_append, List.append_assoc, List.append_assoc]
          exact spaced_append_true.mpr ⟨hspaced.left, hspaced.right⟩
        · rw [retireDv_dvCount]
          simp
      have haddr : st.seg.base + total Chunk.size (st.left.map Chunk.retireDv) = st.address := by
        rw [retireDv_total, Site.address]
      have hbecomes := hret.wf.rewrite hseg hchunks [⟨nb, .inuse⟩, ⟨st.chunk.size - nb, .dv⟩] hf.rest hf.room
        hf.place fun x hx => (hf.sizes x hx).1
      have hrecut := Trades.recut Chunk.isBinned hseg hchunks [⟨nb, .inuse⟩, ⟨st.chunk.size - nb, .dv⟩]
        h.m.retireDv.topsize (.inl (by simp; omega))
      simp only [haddr, hmark] at hrecut
      have htrades : Trades Chunk.isBinned h.m _ _ _ := (retireDv_trades h.m).trans hrecut
      have hinv := inv.relink hbecomes.wf (inv.neat.retireDv.recut hseg hchunks hf) htrades
        (by simpa [marked] using hunlink.trans hreplace)
      simpa [MallocState.write] using hinv

theorem takeDv_inv (inv : h.Inv c narrow) (hin : st.In h.m) (hdv : st.chunk.isDv = true)
    (hmin : minChunkSize c ≤ nb) (hnb : nb ≤ st.chunk.size) (hdvd : mallocAlignment c ∣ nb) :
    Heap.Inv c narrow ⟨h.m.takeDv c nb st, h.bins⟩ := by
  have hfree := isInuse_of_isDv hdv
  have hnobin : st.chunk.isBinned = false := by
    have hstate : st.chunk.state = .dv := of_decide_eq_true hdv
    simp [Chunk.isBinned, hstate]
  have hkeep : Relinks c narrow h.bins h.bins (marked Chunk.size Chunk.isBinned st.address [st.chunk]) [] := by
    simpa [marked, hnobin] using inv.sound.relinks
  unfold MallocState.takeDv
  simp only
  split
  · have hcount := inv.neat.dv
    refine inv.divided hin hfree hmin (by omega) hdvd rfl rfl (by simp [hdv]; omega) ?_
    simpa [marked] using hkeep
  · exact inv.whole hin hfree hkeep

theorem splitTop_inv (inv : h.Inv c narrow) (hmin : minChunkSize c ≤ nb) (hdvd : mallocAlignment c ∣ nb)
    (hnb : nb < h.m.topsize) : Heap.Inv c narrow ⟨h.m.splitTop nb, h.bins⟩ := by
  cases hs : h.m.segs with
  | nil =>
    rw [inv.wf.uninitialized hs] at hnb
    cases hnb
  | cons s others =>
    have hi : h.m.segs[0]? = some s := by rw [hs]; rfl
    have hspaced := (inv.neat.segs 0 s hi).spaced
    have hdv := inv.neat.dv
    have hf : Fitting c h.m 0 (h.m.topsize - nb) s.chunks [] [] [⟨nb, .inuse⟩] :=
      ⟨fun h0 => absurd rfl h0, fun _ => by omega, by simp; omega, .inr rfl, by simp [hmin, hdvd],
        by simpa using hspaced.left, by simp; omega⟩
    have hrecut := inv.recut hi (by simp) hf h.bins (by simpa [marked] using inv.sound.relinks)
    have hsplit : h.m.splitTop nb = { h.m with
        segs := h.m.segs.set 0 { s with chunks := s.chunks ++ [⟨nb, .inuse⟩] ++ [] }
        topsize := h.m.topsize - nb } := by
      simp [MallocState.splitTop, hs]
    rw [hsplit]
    exact hrecut

theorem allocFromTop_inv (inv : h.Inv c narrow) (hmin : minChunkSize c ≤ nb)
    (hdvd : nb < h.m.topsize → mallocAlignment c ∣ nb) :
    Heap.Inv c narrow ⟨(h.m.allocFromTop c nb).1, h.bins⟩ := by
  unfold MallocState.allocFromTop
  split
  · next hnb => exact splitTop_inv inv hmin (hdvd hnb) hnb
  · exact inv

end Turf.HeapDL
