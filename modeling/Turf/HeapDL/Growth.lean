import Turf.HeapDL.BestFit
import Turf.HeapDL.Linking
import Turf.HeapDL.System

/-!
# Memory from the system with the bins in step

What a mapping brings goes to `top`, in front of a segment or into a segment of its own, and what was
`top` before becomes a chunk in a bin.
-/
namespace Turf.HeapDL

open Turf.Lib.Extents

variable {c : Config} {narrow : Bool} {h : Heap} {m m' : MallocState} {b b' : Bins} {s : Segment}
  {i nb tbase tsize : Nat} {ans : Answers}

/-- All segments and a further mapping leave room in the address space. -/
theorem footprint_room (w : WF c m) (hn : Neat c m) (hg : Grant c m tbase tsize) :
    m.footprint + tsize < modulus c := by
  have hc := constants c
  have hsum : total Prod.snd ((tbase, tsize) :: m.segs.map Segment.extent) ≤ modulus c - 1 := by
    apply total_le_of_apart 1
    · refine List.pairwise_cons.mpr ⟨fun e he => ?_, w.apart⟩
      obtain ⟨s, hs, rfl⟩ := List.mem_map.mp he
      exact hg.2.2.2 s hs
    · intro e he
      rcases List.mem_cons.mp he with rfl | he
      · exact ⟨hg.2.1, hg.2.2.1⟩
      · obtain ⟨s, hs, rfl⟩ := List.mem_map.mp he
        obtain ⟨i, hi⟩ := List.getElem?_of_mem hs
        exact ⟨(hn.segs i s hi).pos, (w.sound s hs).bound⟩
  rw [total_cons, total_map] at hsum
  have hfoot := hn.footprint
  have hsize : total (fun s : Segment => s.extent.2) m.segs = total Segment.size m.segs := rfl
  simp only at hsum
  omega

theorem addFootprint_eq (w : WF c m) (hn : Neat c m) (hg : Grant c m tbase tsize) :
    m.addFootprint c tsize =
      { m with footprint := m.footprint + tsize, maxFootprint := max m.maxFootprint (m.footprint + tsize) } := by
  rw [MallocState.addFootprint, Nat.mod_eq_of_lt (footprint_room w hn hg)]

theorem sysAllocSize_dvd (c : Config) (nb : Nat) : granularity c ∣ sysAllocSize c nb := Nat.dvd_mul_left _ _

/-- The bins of a heap that was not used are empty. -/
theorem initBins_eq (hs : b.Sound c narrow) (he : b.entries = []) : b.initBins = b := by
  have hsmall : b.smallbins = fun _ => [] := by
    funext i
    by_contra hne
    have hi := hs.smallbin_lt hne
    have hmem := (List.append_eq_nil_iff.mp he).1
    rw [List.flatMap_eq_nil_iff] at hmem
    exact hne (hmem i (List.mem_range.mpr hi))
  rw [Bins.initBins, ← hsmall]

theorem first_inv (inv : h.Inv c narrow) (hs : h.m.segs = []) (hg : Grant c h.m tbase tsize)
    (hgran : granularity c ∣ tsize) (hsize : topFootSize c < tsize) {least checks : Nat} (hleast : least ≤ tbase) :
    Heap.Inv c narrow ⟨{ (h.m.addFootprint c tsize).initTop (tsize - topFootSize c) with
      leastAddr := least, releaseChecks := checks, segs := [⟨tbase, tsize, []⟩] }, h.bins.initBins⟩ := by
  have hw := (firstMapping inv.wf hs hg hsize.le hleast).wf
  have hempty : h.bins.entries = [] := by
    have hperm := inv.linked
    rw [MallocState.extents, hs, List.flatMap_nil] at hperm
    exact hperm.eq_nil
  rw [addFootprint_eq inv.wf inv.neat hg, initBins_eq inv.sound hempty]
  refine ⟨hw.congr ⟨rfl, rfl, rfl, rfl, rfl, rfl⟩, ⟨?_, ?_, ?_, ?_, ?_⟩, inv.sound, ?_⟩
  · intro i s hi
    obtain ⟨hlt, rfl⟩ := List.getElem?_eq_some_iff.mp hi
    obtain rfl : i = 0 := by simpa using hlt
    exact ⟨Nat.dvd_of_mod_eq_zero hg.1, hg.2.1, hgran, by simp, by simp⟩
  · intro s hs
    obtain rfl : (⟨tbase, tsize, []⟩ : Segment) = s := by simpa using hs
    simp [Segment.total, MallocState.initTop]
    omega
  · simp [MallocState.dvCount]
  · have hfoot := inv.neat.footprint
    rw [hs] at hfoot
    simp only [total_nil] at hfoot
    simp [MallocState.initTop, hfoot]
  · exact Nat.le_max_right _ _
  · rw [hempty]
    simp [MallocState.extents]

theorem append_inv (inv : h.Inv c narrow) (hi : h.m.segs[i]? = some s) (htop : s.holds h.m.top)
    (hg : Grant c h.m tbase tsize) (hgran : granularity c ∣ tsize) (hbase : tbase = s.base + s.size) :
    Heap.Inv c narrow ⟨{ (h.m.addFootprint c tsize).initTop (h.m.topsize + tsize) with
      segs := h.m.segs.set i { s with size := s.size + tsize } }, h.bins⟩ := by
  have hw := (appendMapping inv.wf hi htop hg hbase).wf
  have h0 := top_in_first inv.wf hi htop
  subst h0
  have hneat := inv.neat.segs 0 s hi
  have htop' := inv.neat.top_first hi
  have hdv := inv.neat.dv
  have hset := inv.neat.set (t := { s with size := s.size + tsize }) hi (h.m.topsize + tsize)
    (h.m.footprint + tsize) ⟨hneat.aligned, hneat.pos, Nat.dvd_add hneat.granular hgran, hneat.sizes, hneat.spaced⟩
    (fun _ => by simp only [Segment.total] at htop' ⊢; omega) (fun h0 => absurd rfl h0)
    (by simp only; omega) (by simp only; omega) (Nat.le_max_right h.m.maxFootprint _)
  rw [addFootprint_eq inv.wf inv.neat hg]
  refine ⟨hw.congr ⟨rfl, rfl, rfl, rfl, rfl, rfl⟩, hset.congr ⟨rfl, rfl, rfl, rfl⟩, inv.sound, ?_⟩
  refine inv.linked.trans (List.perm_iff_count.mpr fun e => ?_)
  have hcount := List.perm_iff_count.mp (Trades.set Chunk.isBinned hi
    { s with size := s.size + tsize } h.m.topsize) e
  simp only [List.count_append] at hcount
  unfold MallocState.extents at hcount ⊢
  simp only at hcount ⊢
  omega

/-- The chunks in front of the first one of a segment. -/
theorem prependChunks_neat {chunks : List Chunk} {q : Nat} {closed : Bool}
    (hs : ∀ x ∈ chunks, mallocAlignment c ∣ x.size) (hspaced : Spaced (chunks.map Chunk.isInuse ++ [closed]))
    (hnb : mallocAlignment c ∣ nb) (hq : mallocAlignment c ∣ q) (hne : chunks = [] → closed = true) :
    (∀ x ∈ prependChunks nb q chunks, mallocAlignment c ∣ x.size) ∧
      Spaced ((prependChunks nb q chunks).map Chunk.isInuse ++ [closed]) ∧
      (prependChunks nb q chunks).countP Chunk.isDv = chunks.countP Chunk.isDv := by
  unfold prependChunks
  split
  · rw [hne rfl]
    exact ⟨by simp [hnb, hq], by simp, by simp⟩
  · next oldfirst rest =>
    obtain ⟨hfirst, hrest⟩ := List.forall_mem_cons.mp hs
    split
    · next huse =>
      refine ⟨by simpa [hnb, hq, hfirst] using hrest, ?_, by simp⟩
      simpa [huse] using hspaced
    · next hfree =>
      refine ⟨by simpa [hnb, Nat.dvd_add hq hfirst] using hrest, ?_, ?_⟩
      · have hsame : Chunk.isInuse { oldfirst with size := q + oldfirst.size } = oldfirst.isInuse := rfl
        simpa [hsame] using hspaced
      · simp [List.countP_cons, Chunk.isDv]

/-- What the bins do when memory comes in front of a segment. -/
theorem prependChunks_relinks (hs : b.Sound c narrow) (hbase : s.base = tbase + tsize) (hle : nb ≤ tsize)
    (hmem : ∀ e ∈ marked Chunk.size Chunk.isBinned s.base s.chunks, e ∈ b.entries)
    (hsizes : ∀ x ∈ s.chunks, mallocAlignment c ∣ x.size) (hq : mallocAlignment c ∣ tsize - nb)
    (htop : s.base ≠ m.top) :
    ∃ gone added rest, marked Chunk.size Chunk.isBinned s.base s.chunks = gone ++ rest ∧
      marked Chunk.size Chunk.isBinned tbase (prependChunks nb (tsize - nb) s.chunks) = added ++ rest ∧
      Relinks c narrow b (m.prependAllocBins c narrow tbase tsize nb s b) gone added := by
  have h8 : ∀ {k}, mallocAlignment c ∣ k → 8 ∣ k := (mallocAlignment_dvd c).1.trans
  have hshift : tbase + nb + (tsize - nb) = s.base := by omega
  unfold MallocState.prependAllocBins
  simp only [if_neg htop]
  cases hchunks : s.chunks with
  | nil =>
    refine ⟨[], [(tbase + nb, tsize - nb)], [], rfl, ?_, hs.links (h8 hq) _⟩
    simp [prependChunks, marked]
  | cons oldfirst rest =>
    rw [hchunks] at hmem hsizes
    obtain ⟨hfirst, -⟩ := List.forall_mem_cons.mp hsizes
    rcases oldfirst.cases with ho | ho | ho <;> generalize oldfirst.size = k at ho hfirst <;> subst ho
    · refine ⟨[], [(tbase + nb, tsize - nb)], marked Chunk.size Chunk.isBinned s.base (⟨k, .inuse⟩ :: rest),
        rfl, ?_, ?_⟩
      · simp [prependChunks, marked, hshift]
      · simpa using hs.links (h8 hq) _
    · refine ⟨[(s.base, k)], [(tbase + nb, tsize - nb + k)],
        marked Chunk.size Chunk.isBinned (s.base + k) rest, ?_, ?_, ?_⟩
      · simp [marked]
      · simp only [prependChunks, isInuse_binned, Bool.false_eq_true, ite_false, marked, isBinned_inuse,
          isBinned_binned, ite_true, List.singleton_append]
        rw [← Nat.add_assoc, hshift]
      · have hunlink := hs.unlinks (hmem (s.base, k) (by simp [marked]))
        simpa using hunlink.trans (hunlink.sound.links (h8 (Nat.dvd_add hq hfirst)) (tbase + nb))
    · refine ⟨[], [], marked Chunk.size Chunk.isBinned (s.base + k) rest, ?_, ?_, ?_⟩
      · simp [marked]
      · simp only [prependChunks, isInuse_dv, Bool.false_eq_true, ite_false, marked, isBinned_inuse,
          isBinned_dv, List.nil_append]
        rw [← Nat.add_assoc, hshift]
      · simpa using hs.relinks

/-- `top` is at the base of the first segment as long as it has no chunks. -/
theorem base_eq_top_iff (w : WF c m) (hi : m.segs[i]? = some s) : s.base = m.top ↔ i = 0 ∧ s.chunks = [] := by
  have hfirst : ∀ {s₀ : Segment}, m.segs[0]? = some s₀ → m.top = s₀.trailer := by
    intro s₀ h₀
    cases hs : m.segs with
    | nil => simp [hs] at h₀
    | cons s₁ others =>
      obtain rfl : s₁ = s₀ := by simpa [hs] using h₀
      simp [MallocState.top, hs]
  have hsound := w.sound s (List.mem_of_getElem? hi)
  constructor
  · intro htop
    have hc := constants c
    have hfoot := hsound.foot
    have h0 := top_in_first w hi (s := s) ⟨htop.le, by omega⟩
    subst h0
    rw [hfirst hi, Segment.trailer, Segment.total] at htop
    refine ⟨rfl, ?_⟩
    cases hch : s.chunks with
    | nil => rfl
    | cons x xs =>
      have hx := hsound.sizes x (by simp [hch])
      rw [hch, total_cons] at htop
      omega
  · rintro ⟨rfl, hnone⟩
    rw [hfirst hi, Segment.trailer, Segment.total, hnone]
    rfl

theorem prepend_inv (inv : h.Inv c narrow) (hi : h.m.segs[i]? = some s) (hg : Grant c h.m tbase tsize)
    (hgran : granularity c ∣ tsize) (hbase : s.base = tbase + tsize) (hmin : minChunkSize c ≤ nb)
    (hdvd : mallocAlignment c ∣ nb) (hnb : nb + sysAllocPadding c ≤ tsize) :
    Heap.Inv c narrow
      ⟨MallocState.prependAlloc tbase tsize nb i s { h.m.addFootprint c tsize with
        leastAddr := min tbase h.m.leastAddr }, h.m.prependAllocBins c narrow tbase tsize nb s h.bins⟩ := by
  have hc := constants c
  have hpad : sysAllocPadding c = topFootSize c + mallocAlignment c := rfl
  have hlow := inv.wf.lower (Nat.min_le_right tbase h.m.leastAddr)
  have hw : WF c (MallocState.prependAlloc tbase tsize nb i s { h.m.addFootprint c tsize with
      leastAddr := min tbase h.m.leastAddr }) := by
    have hlow' : WF c { h.m.addFootprint c tsize with leastAddr := min tbase h.m.leastAddr } :=
      hlow.congr ⟨rfl, rfl, rfl, rfl, rfl, rfl⟩
    obtain ⟨p, n, -, -, hb⟩ := prependAlloc_serves hlow' hi hg hbase (Nat.min_le_left _ _) hmin hnb
    exact hb.wf
  have hneat := inv.neat.segs i s hi
  have hq : mallocAlignment c ∣ tsize - nb := Nat.dvd_sub ((mallocAlignment_dvd c).2.2.trans hgran) hdvd
  have hdv := inv.neat.dv
  have haligned : granularity c ∣ tbase := Nat.dvd_of_mod_eq_zero hg.1
  have hgranular : granularity c ∣ s.size + tsize := Nat.dvd_add hneat.granular hgran
  rw [addFootprint_eq inv.wf inv.neat hg] at hw ⊢
  unfold MallocState.prependAlloc at hw ⊢
  by_cases htop : s.base = h.m.top
  · obtain ⟨rfl, hnone⟩ := (base_eq_top_iff inv.wf hi).mp htop
    have htop' := inv.neat.top_first hi
    have hset := inv.neat.set (t := ⟨tbase, s.size + tsize, ⟨nb, .inuse⟩ :: s.chunks⟩) hi
      (h.m.topsize + (tsize - nb)) (h.m.footprint + tsize)
      ⟨haligned, hg.2.1, hgranular, by simp [hnone, hdvd], by simp [hnone]⟩
      (fun _ => by simp only [Segment.total, hnone, total_cons, total_nil] at htop' ⊢; omega)
      (fun h0 => absurd rfl h0) (by simp [hnone]; omega) (by simp only; omega)
      (Nat.le_max_right h.m.maxFootprint _)
    simp only [MallocState.prependAllocBins]
    have htop'' : s.base = MallocState.top { h.m with
      footprint := h.m.footprint + tsize, maxFootprint := max h.m.maxFootprint (h.m.footprint + tsize),
      leastAddr := min tbase h.m.leastAddr } := htop
    rw [if_pos htop''] at hw ⊢
    rw [if_pos htop]
    refine ⟨hw, hset.congr ⟨rfl, rfl, rfl, rfl⟩, inv.sound, ?_⟩
    refine inv.linked.trans (List.perm_iff_count.mpr fun e => ?_)
    have hcount := List.perm_iff_count.mp (Trades.set Chunk.isBinned hi
      ⟨tbase, s.size + tsize, ⟨nb, .inuse⟩ :: s.chunks⟩ h.m.topsize) e
    simp only [hnone, marked, isBinned_inuse, Bool.false_eq_true, ite_false, List.append_nil] at hcount ⊢
    exact hcount.symm
  · have htop'' : ¬ s.base = MallocState.top { h.m with
      footprint := h.m.footprint + tsize, maxFootprint := max h.m.maxFootprint (h.m.footprint + tsize),
      leastAddr := min tbase h.m.leastAddr } := htop
    rw [if_neg htop''] at hw ⊢
    have hne : s.chunks = [] → (i != 0) = true := by
      intro hnone
      by_contra h0
      exact htop ((base_eq_top_iff inv.wf hi).mpr ⟨by simpa using h0, hnone⟩)
    obtain ⟨hsizes, hspaced, hcount⟩ := prependChunks_neat hneat.sizes hneat.spaced hdvd hq hne
    have hset := inv.neat.set (t := ⟨tbase, s.size + tsize, prependChunks nb (tsize - nb) s.chunks⟩)
      hi h.m.topsize (h.m.footprint + tsize) ⟨haligned, hg.2.1, hgranular, hsizes, hspaced⟩
      (fun h0 => by
        subst h0
        have htop' := inv.neat.top_first hi
        simp only [Segment.total, prependChunks_total] at htop' ⊢
        omega)
      (fun _ => rfl) (by simp only [hcount]; omega) (by simp only; omega)
      (Nat.le_max_right h.m.maxFootprint _)
    obtain ⟨gone, added, rest, hold, hnew, hrelinks⟩ := prependChunks_relinks (m := h.m) inv.sound hbase
      (by omega)
      (fun e he => inv.linked.mem_iff.mpr (List.mem_flatMap.mpr ⟨s, List.mem_of_getElem? hi, he⟩)) hneat.sizes hq htop
    have htrades := Trades.set Chunk.isBinned hi
      ⟨tbase, s.size + tsize, prependChunks nb (tsize - nb) s.chunks⟩ h.m.topsize
    simp only [hold, hnew] at htrades
    have hexchange : Trades Chunk.isBinned h.m { h.m with
        segs := h.m.segs.set i ⟨tbase, s.size + tsize, prependChunks nb (tsize - nb) s.chunks⟩ } gone added :=
      htrades.cancel
    exact inv.relink hw (hset.congr ⟨rfl, rfl, rfl, rfl⟩) hexchange hrelinks

/-- A chunk fits into what the record leaves of the old `top`. -/
theorem recordAddress_dvd (hbase : mallocAlignment c ∣ s.base) (htotal : mallocAlignment c ∣ s.total) :
    mallocAlignment c ∣ recordAddress c s - s.trailer := by
  have htrailer : mallocAlignment c ∣ s.trailer := Nat.dvd_add hbase htotal
  refine Nat.dvd_sub ?_ htrailer
  have halign : ∀ a, mallocAlignment c ∣ a + alignOffset c (chunk2mem c a) := by
    intro a
    unfold alignOffset chunk2mem
    rcases constants c with ⟨hs, -, ha, -⟩ | ⟨hs, -, ha, -⟩
    · rw [hs, ha]
      split <;> omega
    · rw [hs, ha]
      split <;> omega
  unfold recordAddress
  simp only
  split
  · exact htrailer
  · exact halign _

/-- The old `top` is put into a bin. -/
theorem closeSegment_inv {others : List Segment} (hs : b.Sound c narrow) (hsegs : m.segs = s :: others)
    (hneat : s.Neat c false) :
    (closeSegment c s).Neat c true ∧ (closeSegment c s).chunks.countP Chunk.isDv = s.chunks.countP Chunk.isDv ∧
      (closeSegment c s).base = s.base ∧
      ∃ added, marked Chunk.size Chunk.isBinned s.base (closeSegment c s).chunks =
        marked Chunk.size Chunk.isBinned s.base s.chunks ++ added ∧
        Relinks c narrow b (m.addSegmentBins c narrow b) [] added := by
  have hgran := (mallocAlignment_dvd c).2.2
  have hspaced := hneat.spaced.left
  unfold MallocState.addSegmentBins closeSegment
  rw [hsegs]
  simp only
  split
  · have hrest := recordAddress_dvd (hgran.trans hneat.aligned) (total_dvd hneat.sizes)
    refine ⟨⟨hneat.aligned, hneat.pos, hneat.granular, ?_, ?_⟩, by simp, rfl, _, ?_,
      hs.links ((mallocAlignment_dvd c).1.trans hrest) s.trailer⟩
    · intro x hx
      rcases List.mem_append.mp hx with hx | hx
      · exact hneat.sizes x hx
      · rw [List.mem_singleton.mp hx]
        exact hrest
    · rw [List.map_append, List.append_assoc]
      exact spaced_append_false.mpr ⟨hneat.spaced, by simp⟩
    · simp [marked_append, marked, Segment.trailer, Segment.total]
  · exact ⟨⟨hneat.aligned, hneat.pos, hneat.granular, hneat.sizes,
      spaced_append_true.mpr ⟨hspaced, spaced_nil⟩⟩, rfl, rfl, [], (List.append_nil _).symm, hs.relinks⟩

theorem add_inv (inv : h.Inv c narrow) (hs : h.m.segs ≠ []) (hg : Grant c h.m tbase tsize)
    (hgran : granularity c ∣ tsize) (hsize : topFootSize c < tsize) :
    Heap.Inv c narrow ⟨MallocState.addSegment c tbase tsize { h.m.addFootprint c tsize with
      leastAddr := min tbase h.m.leastAddr }, h.m.addSegmentBins c narrow h.bins⟩ := by
  have hlow := inv.wf.lower (Nat.min_le_right tbase h.m.leastAddr)
  have hw : WF c (MallocState.addSegment c tbase tsize { h.m.addFootprint c tsize with
      leastAddr := min tbase h.m.leastAddr }) := by
    have hlow' : WF c { h.m.addFootprint c tsize with leastAddr := min tbase h.m.leastAddr } :=
      hlow.congr ⟨rfl, rfl, rfl, rfl, rfl, rfl⟩
    exact (addMapping hlow' hs hg hsize.le (Nat.min_le_left _ _)).wf
  cases hsegs : h.m.segs with
  | nil => exact absurd hsegs hs
  | cons s others =>
    rw [addFootprint_eq inv.wf inv.neat hg] at hw ⊢
    have hi : h.m.segs[0]? = some s := by rw [hsegs]; rfl
    obtain ⟨hclosed, hcount, hbase, added, hmarked, hrelinks⟩ :=
      closeSegment_inv inv.sound hsegs (inv.neat.segs 0 s hi)
    have hext := (closeSegment_sound (inv.wf.sound s (List.mem_of_getElem? hi))).2
    have hclosedSize : (closeSegment c s).size = s.size := (Prod.mk.inj hext).2
    simp only [MallocState.addSegment, hsegs, MallocState.initTop] at hw ⊢
    refine inv.relink hw ⟨?_, ?_, ?_, ?_, Nat.le_max_right _ _⟩ ?_ hrelinks
    · intro j u hu
      cases j with
      | zero =>
        obtain rfl : (⟨tbase, tsize, []⟩ : Segment) = u := by simpa using hu
        exact ⟨Nat.dvd_of_mod_eq_zero hg.1, hg.2.1, hgran, by simp, by simp⟩
      | succ j =>
        cases j with
        | zero =>
          obtain rfl : closeSegment c s = u := by simpa using hu
          exact hclosed
        | succ j => exact inv.neat.segs (j + 1) u (by simpa [hsegs] using hu)
    · intro u hu
      obtain rfl : (⟨tbase, tsize, []⟩ : Segment) = u := by simpa using hu
      simp [Segment.total]
      omega
    · have hdv := inv.neat.dv
      simp only [MallocState.dvCount, hsegs, List.flatMap_cons, List.countP_append, hcount] at hdv ⊢
      simpa using hdv
    · have hfoot := inv.neat.footprint
      simp only [hsegs, total_cons, hclosedSize] at hfoot ⊢
      omega
    · unfold Trades Exchange MallocState.extents
      simp only [hsegs, List.flatMap_cons, marked_nil, List.nil_append, List.append_nil, hbase, hmarked]
      rw [List.append_assoc, List.append_assoc]
      exact List.perm_append_comm.append_left _

theorem useMapping_inv (inv : h.Inv c narrow) (hg : Grant c h.m tbase tsize) (hgran : granularity c ∣ tsize)
    (hmin : minChunkSize c ≤ nb) (hdvd : mallocAlignment c ∣ nb) (hnb : nb + sysAllocPadding c ≤ tsize) :
    Heap.Inv c narrow ⟨(h.m.useMapping c nb tbase tsize).1, h.m.useMappingBins c narrow nb tbase tsize h.bins⟩ := by
  have hc := constants c
  have hpad : sysAllocPadding c = topFootSize c + mallocAlignment c := rfl
  have hsegs : (h.m.addFootprint c tsize).segs = h.m.segs := rfl
  have htop : (h.m.addFootprint c tsize).top = h.m.top := rfl
  have htopsize : (h.m.addFootprint c tsize).topsize = h.m.topsize := rfl
  have hleast : (h.m.addFootprint c tsize).leastAddr = h.m.leastAddr := rfl
  unfold MallocState.useMapping MallocState.useMappingBins
  simp only [hsegs, htop, htopsize, hleast]
  split
  · next hs =>
    refine allocFromTop_inv (first_inv inv hs hg hgran (by omega) ?_) hmin fun _ => hdvd
    split
    · exact le_rfl
    · exact Nat.min_le_left _ _
  · next hs =>
    cases hafter : (h.m.segs.zipIdx.find? fun si => tbase = si.1.base + si.1.size).filter
      fun si => si.1.holds h.m.top with
    | some si =>
      obtain ⟨hfind, hholds⟩ := Option.filter_eq_some_iff.mp hafter
      obtain ⟨hi, hend⟩ := zipIdx_find_spec hfind
      exact allocFromTop_inv (append_inv inv hi (by simpa using hholds) hg hgran (by simpa using hend)) hmin
        fun _ => hdvd
    | none =>
      cases hbefore : h.m.segs.zipIdx.find? fun si => si.1.base = tbase + tsize with
      | some si =>
        obtain ⟨hi, hend⟩ := zipIdx_find_spec hbefore
        exact prepend_inv inv hi hg hgran (by simpa using hend) hmin hdvd hnb
      | none => exact allocFromTop_inv (add_inv inv hs hg hgran (by omega)) hmin fun _ => hdvd

theorem sysAlloc_inv (inv : h.Inv c narrow) (hmin : minChunkSize c ≤ nb) (hlt : nb < modulus c)
    (hdvd : nb + 1 < modulus c → mallocAlignment c ∣ nb)
    (hg : ∀ tbase ∈ ans.mmap, Grant c h.m tbase (sysAllocSize c nb)) :
    Heap.Inv c narrow ⟨(h.m.sysAlloc c nb ans).1, h.m.sysAllocBins c narrow nb ans h.bins⟩ := by
  have hc := constants c
  have hpad : sysAllocPadding c = topFootSize c + mallocAlignment c := rfl
  unfold MallocState.sysAlloc MallocState.sysAllocBins
  simp only [useMmap_false inv.wf, overLimit_false inv.wf, Bool.false_and, Bool.false_eq_true, ite_false,
    Bool.or_false, decide_eq_true_eq]
  by_cases hsize : sysAllocSize c nb ≤ nb
  · simp only [if_pos hsize]
    exact inv
  · simp only [if_neg hsize]
    cases hans : ans.mmap with
    | none => exact inv
    | some tbase =>
      have hgrant := hg tbase hans
      have hspec := sysAllocSize_spec c hlt (Nat.lt_of_not_le hsize)
      have hbound := hgrant.2.2.1
      exact useMapping_inv inv hgrant (sysAllocSize_dvd c nb) hmin (hdvd (by omega)) hspec

/-! ## Requests -/

theorem Heap.Inv.sizes (inv : h.Inv c narrow) : ∀ e ∈ h.bins.entries, e.2 < modulus c := by
  intro e he
  obtain ⟨s, hs, -, hle, -⟩ := mem_extents_bounds inv.wf (inv.linked.mem_iff.mp he)
  have hfoot := (inv.wf.sound s hs).foot
  have hbound := (inv.wf.sound s hs).bound
  have hc := constants c
  unfold Segment.trailer at hle
  omega

/-- A chunk that the bins hold is where they say it is. -/
theorem Heap.Inv.binned_site (inv : h.Inv c narrow) {e : Nat × Nat} (he : e ∈ h.bins.entries) :
    ∃ st : Site, h.m.binnedAt e.1 = some st ∧ st.In h.m ∧ st.chunk.isBinned = true ∧ st.address = e.1 ∧
      st.chunk.size = e.2 := by
  obtain ⟨st, hin, hbin, haddr, hsize⟩ := mem_extents.mp (inv.linked.mem_iff.mp he)
  exact ⟨st, haddr ▸ binnedAt_eq inv.wf hin hbin, hin, hbin, haddr, hsize⟩

/-- The search of the bins is an answer that `dlmalloc` may get. -/
theorem searching_possible (inv : h.Inv c narrow) {bytes : Nat}
    (hg : ∀ tbase ∈ ans.mmap, Grant c h.m tbase (sysAllocSize c (paddedRequest c bytes))) :
    (h.searching c narrow bytes ans).Possible c h.m bytes := by
  refine ⟨fun v hv => ?_, hg⟩
  obtain ⟨e, he, rfl⟩ := Option.map_eq_some_iff.mp hv
  obtain ⟨hmem, hle, hbytes, -⟩ := inv.sound.search_mem inv.sizes he
  obtain ⟨st, hst, -, -, -, hsize⟩ := inv.binned_site hmem
  exact ⟨hbytes, st, hst, hsize.symm ▸ hle⟩

theorem serve_inv (inv : h.Inv c narrow) {bytes : Nat}
    (hg : ∀ tbase ∈ ans.mmap, Grant c h.m tbase (sysAllocSize c (paddedRequest c bytes))) :
    Heap.Inv c narrow ⟨(h.m.serve c bytes (h.searching c narrow bytes ans)).1,
      h.m.serveBins c narrow bytes (h.searching c narrow bytes ans) h.bins⟩ := by
  have hc := constants c
  have hmin := paddedRequest_ge c bytes
  have hdvd : paddedRequest c bytes + 1 < modulus c → mallocAlignment c ∣ paddedRequest c bytes :=
    paddedRequest_dvd
  have hfits : ∀ st : Site, st.In h.m → st.chunk.size + 1 < modulus c := by
    intro st hin
    have hbounds := hin.bounds inv.wf
    have hbound := (hin.sound inv.wf).bound
    omega
  unfold MallocState.serve MallocState.serveBins Heap.searching
  simp only
  cases hsearch : h.bins.search c narrow bytes h.m.dvsize with
  | some e =>
    obtain ⟨hmem, hle, -, hsmall⟩ := inv.sound.search_mem inv.sizes hsearch
    obtain ⟨st, hst, hin, hbin, haddr, hsize⟩ := inv.binned_site hmem
    simp only [Option.map_some, Option.bind_some, hst]
    have hfit := hfits st hin
    refine takeBinned_inv inv hin hbin hmin (by omega) (hdvd (by omega)) fun hb hrest => ?_
    obtain ⟨hlow, hcase⟩ := hsmall (of_decide_eq_true hb)
    rw [isSmall_iff]
    omega
  | none =>
    simp only [Option.map_none, Option.bind_none]
    cases hdv : h.m.dv.filter fun st => paddedRequest c bytes ≤ st.chunk.size with
    | some st =>
      obtain ⟨hfind, hle⟩ := Option.filter_eq_some_iff.mp hdv
      obtain ⟨hin, hsel⟩ := find_spec hfind
      have hle : paddedRequest c bytes ≤ st.chunk.size := by simpa using hle
      have hfit := hfits st hin
      exact takeDv_inv inv hin hsel hmin hle (hdvd (by omega))
    | none =>
      simp only
      by_cases htop : paddedRequest c bytes < h.m.topsize
      · simp only [if_pos htop]
        refine splitTop_inv inv hmin (hdvd ?_) htop
        cases hs : h.m.segs with
        | nil =>
          rw [inv.wf.uninitialized hs] at htop
          cases htop
        | cons s others =>
          have hroom := inv.wf.top s (by simp [hs])
          have hbound := (inv.wf.sound s (by simp [hs])).bound
          omega
      · simp only [if_neg htop]
        exact sysAlloc_inv inv hmin (paddedRequest_lt c) hdvd hg

/-- `dlmalloc` keeps the bins in step, with the block it adds. -/
theorem Heap.dlmalloc_inv (inv : h.Inv c narrow) {bytes mem : Nat} {h' : Heap}
    (hg : ∀ tbase ∈ ans.mmap, Grant c h.m tbase (sysAllocSize c (paddedRequest c bytes)))
    (he : h.dlmalloc c narrow bytes ans = some (h', mem)) : h'.Inv c narrow := by
  obtain ⟨r, hr, heq⟩ := Option.map_eq_some_iff.mp he
  obtain ⟨rfl, -⟩ := Prod.mk.inj heq
  have hserve := serve_inv inv hg
  unfold MallocState.dlmalloc at hr
  simp only at hr
  split at hr
  · obtain ⟨n, -, rfl⟩ := Option.map_eq_some_iff.mp hr
    exact hserve.congr ⟨rfl, rfl, rfl, rfl, rfl, rfl⟩ ⟨rfl, rfl, rfl, rfl⟩
  · obtain rfl := Option.some.inj hr
    exact hserve

end Turf.HeapDL
