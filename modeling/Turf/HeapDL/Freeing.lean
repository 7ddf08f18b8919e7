import Turf.HeapDL.Growth
import Turf.HeapDL.Release

/-!
# Giving memory back with the bins in step

A freed chunk leaves no free neighbour behind, and a segment that is released leaves no chunk in a bin.
-/
namespace Turf.HeapDL

open Turf.Lib.Extents

variable {c : Config} {narrow : Bool} {h h' : Heap} {m m' : MallocState} {b b' : Bins} {s : Segment}
  {i p n nb k : Nat} {st : Site} {l old left right more : List Chunk} {d : Bool} {ans : Answers}

@[simp] theorem freeChunk_isBinned (n : Nat) (d : Bool) : (freeChunk n d).isBinned = !d := by
  cases d <;> rfl

@[simp] theorem freeChunk_isDv (n : Nat) (d : Bool) : (freeChunk n d).isDv = d := by
  cases d <;> rfl

/-! ## Consolidation -/

/-- What the chunk before contributes: it is free and taken in, or there is none or it stays. -/
structure Behind (c : Config) (narrow : Bool) (b b' : Bins) (base : Nat) (left l old : List Chunk) (d : Bool) :
    Prop where
  left : left = l ++ old
  free : ∀ x ∈ old, x.isInuse = false
  spaced : Spaced (l.map Chunk.isInuse ++ [false])
  dv : old.countP Chunk.isDv = if d then 1 else 0
  relinks : Relinks c narrow b b' (marked Chunk.size Chunk.isBinned (base + total Chunk.size l) old) []

theorem backward_behind (inv : h.Inv c narrow) (hin : st.In h.m) (hb : backward st.left st.chunk.size = (l, k, d)) :
    ∃ old, Behind c narrow h.bins (st.behindBins narrow h.bins) st.seg.base st.left l old d ∧
      k = total Chunk.size old + st.chunk.size := by
  obtain ⟨-, -, hspaced⟩ := inv.neat.site hin
  unfold Site.behindBins
  rw [hb]
  unfold backward at hb
  cases hlast : st.left.getLast? with
  | none =>
    rw [hlast] at hb
    cases hb
    have hnil := List.getLast?_eq_none_iff.mp hlast
    rw [hnil]
    exact ⟨[], ⟨rfl, by simp, by simp, rfl, inv.sound.relinks⟩, by simp⟩
  | some prev =>
    have hleft := List.dropLast_append_getLast? prev hlast
    have hprev : Site.In ⟨st.index, st.seg, st.left.dropLast, prev, st.chunk :: st.right⟩ h.m :=
      ⟨hin.seg, by rw [hin.chunks, ← hleft]; simp⟩
    rw [← hleft, List.map_append, List.append_assoc] at hspaced
    rw [hlast] at hb
    simp only at hb ⊢
    rcases prev.cases with hp | hp | hp <;> generalize prev.size = n at hp hb hprev ⊢ <;> subst hp
    · cases hb
      refine ⟨[], ⟨by simp, by simp, ?_, rfl, inv.sound.relinks⟩, by simp⟩
      rw [← hleft, List.map_append, List.append_assoc]
      exact spaced_append_true.mpr ⟨(spaced_append_true.mp hspaced).1, spaced_singleton⟩
    · cases hb
      refine ⟨[⟨n, .binned⟩], ⟨hleft.symm, by simp, (spaced_append_false.mp hspaced).1, rfl, ?_⟩, by simp⟩
      simpa [marked, Site.address] using inv.sound.unlinks (inv.mem_entries hprev rfl)
    · cases hb
      refine ⟨[⟨n, .dv⟩], ⟨hleft.symm, by simp, (spaced_append_false.mp hspaced).1, rfl, ?_⟩, by simp⟩
      simpa [marked] using inv.sound.relinks

/-- The freed chunk, with its free neighbours, becomes one free chunk. -/
theorem merged_inv (inv : h.Inv c narrow) (hin : st.In h.m) (huse : st.chunk.isInuse = true)
    (hback : Behind c narrow h.bins b st.seg.base st.left l old d) (more right : List Chunk)
    (hright : st.right = more ++ right)
    (hspaced : Spaced (false :: (right.map Chunk.isInuse ++ [st.index != 0])))
    (hk : k = total Chunk.size old + st.chunk.size + total Chunk.size more) {d' : Bool}
    (hdv : more.countP Chunk.isDv + (if d then 1 else 0) = if d' then 1 else 0)
    (hb : Relinks c narrow b b'
      (marked Chunk.size Chunk.isBinned (st.address + st.chunk.size) more)
      (marked Chunk.size Chunk.isBinned (st.seg.base + total Chunk.size l) [freeChunk k d'])) :
    Heap.Inv c narrow ⟨h.m.write st (l ++ freeChunk k d' :: right), b'⟩ := by
  obtain ⟨hneat, -, -⟩ := inv.neat.site hin
  have hmin := hin.size_ge inv.wf
  have hnobin := isBinned_of_isInuse huse
  have hnodv := isDv_of_isInuse huse
  have hchunks : st.seg.chunks = l ++ (old ++ st.chunk :: more) ++ right := by
    rw [hin.chunks, hback.left, hright]
    simp
  have haddr : st.seg.base + total Chunk.size l + total Chunk.size old = st.address := by
    rw [Site.address, hback.left, total_append, Nat.add_assoc]
  have hdvd : mallocAlignment c ∣ k := by
    have hsizes := hneat.sizes
    rw [hchunks] at hsizes
    have hpart : ∀ x ∈ old ++ st.chunk :: more, mallocAlignment c ∣ x.size :=
      fun x hx => hsizes x (List.mem_append_left _ (List.mem_append_right _ hx))
    have htotal := total_dvd hpart
    rwa [total_append, total_cons, ← Nat.add_assoc, ← hk] at htotal
  have hcount := inv.neat.dv
  have hf : Fitting c h.m st.index h.m.topsize l (old ++ st.chunk :: more) right [freeChunk k d'] := by
    refine ⟨fun _ => rfl, inv.top_pos hin, by simp; omega, .inl rfl, ?_, ?_, ?_⟩
    · simp only [List.mem_singleton, forall_eq, freeChunk_size]
      exact ⟨by omega, hdvd⟩
    · rw [List.map_append, List.map_append, List.append_assoc, List.append_assoc, List.map_singleton,
        freeChunk_isInuse, List.singleton_append]
      exact spaced_append_false.mpr ⟨hback.spaced, hspaced⟩
    · simp only [List.countP_append, List.countP_cons, List.countP_nil, hback.dv, hnodv, freeChunk_isDv,
        Bool.false_eq_true, ite_false]
      omega
  have hmark : marked Chunk.size Chunk.isBinned (st.seg.base + total Chunk.size l) (old ++ st.chunk :: more) =
      marked Chunk.size Chunk.isBinned (st.seg.base + total Chunk.size l) old ++
        marked Chunk.size Chunk.isBinned (st.address + st.chunk.size) more := by
    rw [marked_append, marked, haddr, hnobin]
    rfl
  have hinv := inv.recut hin.seg hchunks hf b' (by rw [hmark]; exact hback.relinks.trans hb)
  simpa [MallocState.write] using hinv

/-- A free chunk is linked into a bin unless it is the designated victim. -/
theorem freeChunk_relinks (hs : b.Sound c narrow) (hdvd : mallocAlignment c ∣ k) (p : Nat) (d : Bool) :
    Relinks c narrow b (if d then b else b.insertChunk c narrow p k) []
      (marked Chunk.size Chunk.isBinned p [freeChunk k d]) := by
  cases d with
  | false => simpa [marked] using hs.links ((mallocAlignment_dvd c).1.trans hdvd) p
  | true => simpa [marked] using hs.relinks

theorem consolidate_inv (inv : h.Inv c narrow) (hin : st.In h.m) (huse : st.chunk.isInuse = true) :
    (h.consolidate c narrow st).1.Inv c narrow := by
  obtain ⟨⟨l, k, d⟩, hb⟩ : ∃ r, backward st.left st.chunk.size = r := ⟨_, rfl⟩
  obtain ⟨old, hback, hk⟩ := backward_behind inv hin hb
  obtain ⟨hneat, hsize, hspaced⟩ := inv.neat.site hin
  rw [huse, spaced_append_true] at hspaced
  have hright := hspaced.2
  have hdvd : mallocAlignment c ∣ k := by
    have hold : ∀ x ∈ old, mallocAlignment c ∣ x.size :=
      fun x hx => hneat.sizes x (by rw [hin.chunks, hback.left]; simp [hx])
    rw [hk]
    exact Nat.dvd_add (total_dvd hold) hsize
  unfold Heap.consolidate MallocState.consolidate Site.consolidateBins
  simp only [hb]
  cases hr : st.right with
  | nil =>
    rw [hr] at hright
    by_cases h0 : st.index = 0
    · -- `top` takes the block in
      simp only [if_pos h0]
      have hi : h.m.segs[0]? = some st.seg := h0 ▸ hin.seg
      have hchunks : st.seg.chunks = l ++ (old ++ [st.chunk]) ++ [] := by
        rw [hin.chunks, hback.left, hr]
        simp
      have htop := inv.top_pos hin h0
      have hmin := hin.size_ge inv.wf
      have hcount := inv.neat.dv
      have hnobin := isBinned_of_isInuse huse
      have hf : Fitting c h.m 0 (h.m.topsize + k) l (old ++ [st.chunk]) [] [] := by
        refine ⟨fun hne => absurd rfl hne, fun _ => by omega, by simp; omega, .inr rfl, by simp, ?_, by simp; omega⟩
        simpa using hback.spaced
      have hinv := inv.recut hi hchunks hf (st.behindBins narrow h.bins) (by
        simpa [marked_append, marked, hnobin] using hback.relinks)
      simpa [MallocState.write, h0] using hinv
    · simp only [if_neg h0]
      exact merged_inv inv hin huse hback [] [] hr
        (by rw [show (st.index != 0) = true by simpa using h0]; simp) (by simpa using hk) (by simp)
        (by simpa using freeChunk_relinks hback.relinks.sound hdvd _ d)
  | cons nxt right =>
    rw [hr, List.map_cons, List.cons_append] at hright
    have hnext : Site.In ⟨st.index, st.seg, st.left ++ [st.chunk], nxt, right⟩ h.m :=
      ⟨hin.seg, by rw [hin.chunks, hr]; simp⟩
    have haddr : Site.address ⟨st.index, st.seg, st.left ++ [st.chunk], nxt, right⟩ =
        st.address + st.chunk.size := by
      simp [Site.address, Nat.add_assoc]
    have hnsize := hneat.sizes nxt (by rw [hin.chunks, hr]; simp)
    rcases nxt.cases with hn | hn | hn <;> generalize nxt.size = n at hn hnext hnsize <;> subst hn
    · simp only [isInuse_inuse, ite_true]
      exact merged_inv inv hin huse hback [] (⟨n, .inuse⟩ :: right) hr
        (by simpa using hright) (by simpa using hk) (by simp)
        (by simpa using freeChunk_relinks hback.relinks.sound hdvd _ d)
    · simp only [isInuse_binned, isDv_binned, Bool.false_eq_true, ite_false, Bool.or_false]
      have hmem := inv.mem_entries hnext rfl
      rw [haddr] at hmem
      have hmem' : (st.address + st.chunk.size, n) ∈ (st.behindBins narrow h.bins).entries := by
        refine hback.relinks.entries.mem hmem fun hgone => ?_
        have hbounds := marked_bounds Chunk.size Chunk.isBinned hgone
        have haddr' : st.seg.base + total Chunk.size l + total Chunk.size old = st.address := by
          rw [Site.address, hback.left, total_append, Nat.add_assoc]
        have hmin := hin.size_ge inv.wf
        have hpos := minChunkSize_pos c
        simp only at hbounds
        omega
      have hunlink := hback.relinks.sound.unlinks hmem'
      have hlink := freeChunk_relinks hunlink.sound (Nat.dvd_add hdvd hnsize) (st.seg.base + total Chunk.size l) d
      exact merged_inv inv hin huse hback [⟨n, .binned⟩] right hr hright
        (by simp [hk]) (by simp) (by simpa [marked] using hunlink.trans hlink)
    · simp only [isInuse_dv, isDv_dv, Bool.false_eq_true, ite_false, ite_true, Bool.or_true]
      -- There is no second designated victim.
      have hd : d = false := by
        have hcount := inv.neat.dv_segment hin.seg
        rw [hin.chunks, hback.left, hr] at hcount
        simp only [List.countP_append, List.countP_cons, hback.dv, isDv_dv, ite_true] at hcount
        cases d with
        | false => rfl
        | true =>
          simp only [ite_true] at hcount
          omega
      subst hd
      exact merged_inv inv hin huse hback [⟨n, .dv⟩] right hr hright
        (by simp [hk]) (by simp) (by simpa [marked] using hback.relinks.sound.relinks)

/-! ## Segments that go -/

theorem footprint_lt (w : WF c m) (hn : Neat c m) : m.footprint < modulus c := by
  have hc := constants c
  have hsum : total Prod.snd (m.segs.map Segment.extent) ≤ modulus c - 1 := by
    refine total_le_of_apart 1 w.apart fun e he => ?_
    obtain ⟨s, hs, rfl⟩ := List.mem_map.mp he
    obtain ⟨i, hi⟩ := List.getElem?_of_mem hs
    exact ⟨(hn.segs i s hi).pos, (w.sound s hs).bound⟩
  rw [total_map] at hsum
  have hfoot := hn.footprint
  have hsize : total (fun s : Segment => s.extent.2) m.segs = total Segment.size m.segs := rfl
  omega

/-- The chunk that spans a segment is large, with pages of 512 bytes at least. -/
theorem spanning_large (hpage : 9 ≤ c.granularityShift) (hneat : s.Neat c d) (hfoot : s.total + topFootSize c ≤ s.size)
    {x : Chunk} (hspan : s.base + s.size - topFootSize c ≤ s.base + x.size) : isSmall x.size = false := by
  have hc := constants c
  have hgran : 2 ^ 9 ≤ granularity c := Nat.pow_le_pow_right (by decide) hpage
  have hsize := Nat.le_of_dvd (by omega) hneat.granular
  rw [← Bool.not_eq_true, isSmall_iff]
  omega

/-- What releasing does to segments, beside the bins. -/
structure Releases (c : Config) (narrow : Bool) (others others' : List Segment) (released : Nat) (b b' : Bins) : Prop where
  neat : ∀ s ∈ others', s.Neat c true
  dv : (others'.flatMap Segment.chunks).countP Chunk.isDv ≤ (others.flatMap Segment.chunks).countP Chunk.isDv
  sizes : total Segment.size others' + released = total Segment.size others
  sound : b'.Sound c narrow
  entries : ∀ rest, b.entries.Perm
    ((others.flatMap fun s => marked Chunk.size Chunk.isBinned s.base s.chunks) ++ rest) →
    b'.entries.Perm ((others'.flatMap fun s => marked Chunk.size Chunk.isBinned s.base s.chunks) ++ rest)

/-- A segment that stays, perhaps with its chunk in a bin now. -/
theorem Releases.keep {others others' : List Segment} {t : Segment} {b₁ b' : Bins} {released : Nat}
    (h : Releases c narrow others others' released b₁ b') (ht : t.Neat c true) (hsize : t.size = s.size)
    (hdv : t.chunks.countP Chunk.isDv ≤ s.chunks.countP Chunk.isDv)
    (hentries : ∀ rest, b.entries.Perm (marked Chunk.size Chunk.isBinned s.base s.chunks ++ rest) →
      b₁.entries.Perm (marked Chunk.size Chunk.isBinned t.base t.chunks ++ rest)) :
    Releases c narrow (s :: others) (t :: others') released b b' := by
  obtain ⟨hneat', hdv', hsizes', hsound', hentries'⟩ := h
  refine ⟨List.forall_mem_cons.mpr ⟨ht, hneat'⟩, ?_, ?_, hsound', fun rest hrest => ?_⟩
  · simp only [List.flatMap_cons, List.countP_append]
    omega
  · simp only [total_cons, hsize]
    omega
  · rw [List.flatMap_cons, List.append_assoc] at hrest ⊢
    have hmoved := (hentries _ hrest).trans (List.perm_append_comm_assoc _ _ _)
    exact (hentries' _ hmoved).trans (List.perm_append_comm_assoc _ _ _)

/-- A segment that goes, with its chunk in no bin now. -/
theorem Releases.drop {others others' : List Segment} {b₁ b' : Bins} {released : Nat}
    (h : Releases c narrow others others' released b₁ b')
    (hentries : ∀ rest, b.entries.Perm (marked Chunk.size Chunk.isBinned s.base s.chunks ++ rest) →
      b₁.entries.Perm rest) :
    Releases c narrow (s :: others) others' (s.size + released) b b' := by
  obtain ⟨hneat', hdv', hsizes', hsound', hentries'⟩ := h
  refine ⟨hneat', ?_, ?_, hsound', fun rest hrest => ?_⟩
  · simp only [List.flatMap_cons, List.countP_append]
    omega
  · simp only [total_cons]
    omega
  · rw [List.flatMap_cons, List.append_assoc] at hrest
    exact hentries' _ (hentries _ hrest)

/-- A chunk that spans its segment has none behind it. -/
theorem spanning_alone {least : Nat} {x : Chunk} {more : List Chunk} (hs : s.Sound c least)
    (hchunks : s.chunks = x :: more) (hspan : s.base + s.size - topFootSize c ≤ s.base + x.size) : more = [] := by
  have hfoot := hs.foot
  have htotal : s.total = x.size + total Chunk.size more := by simp [Segment.total, hchunks]
  cases more with
  | nil => rfl
  | cons y ys =>
    have hy := hs.sizes y (by simp [hchunks])
    have hpos := minChunkSize_pos c
    rw [total_cons] at htotal
    omega

/-- A free chunk leaves its bin unless it is the designated victim, which is in none. -/
theorem leaves_bin {x : Chunk} {base : Nat} {rest : List (Nat × Nat)} (hs : b.Sound c narrow)
    (hx : x.isInuse = false) (hlarge : isSmall x.size = false)
    (hperm : b.entries.Perm (marked Chunk.size Chunk.isBinned base [x] ++ rest)) :
    (if x.isDv then b else b.unlinkLargeChunk narrow base x.size).Sound c narrow ∧
      ∀ rest, b.entries.Perm (marked Chunk.size Chunk.isBinned base [x] ++ rest) →
        (if x.isDv then b else b.unlinkLargeChunk narrow base x.size).entries.Perm rest := by
  rcases x.cases with hcase | hcase | hcase <;> generalize x.size = n at hcase hlarge <;> subst hcase
  · cases hx
  · have hin : (base, n) ∈ b.entries := by
      rw [hperm.mem_iff]
      simp [marked]
    have hunlink := hs.unlinkChunk hin
    unfold Bins.unlinkChunk at hunlink
    rw [if_neg (by rw [hlarge]; exact Bool.false_ne_true)] at hunlink
    refine ⟨hunlink.1, fun rest hrest => ?_⟩
    simp only [marked, isBinned_binned, ite_true, List.cons_append, List.nil_append] at hrest
    exact (List.perm_cons _).mp (hunlink.2.symm.trans hrest)
  · refine ⟨hs, fun rest hrest => ?_⟩
    simpa [marked] using hrest

theorem releaseLoop_inv (hpage : 9 ≤ c.granularityShift) (ans : Answers) {least : Nat} {others : List Segment}
    (hsound : ∀ s ∈ others, s.Sound c least) (hneat : ∀ s ∈ others, s.Neat c true) (hs : b.Sound c narrow)
    (hmem : ∃ rest, b.entries.Perm
      ((others.flatMap fun s => marked Chunk.size Chunk.isBinned s.base s.chunks) ++ rest)) :
    Releases c narrow others (releaseLoop c ans others).1 (releaseLoop c ans others).2 b
      (releaseLoopBins c narrow ans others b) := by
  induction others generalizing b with
  | nil => exact ⟨hneat, le_rfl, rfl, hs, fun _ hrest => hrest⟩
  | cons s others ih =>
    obtain ⟨hs₀, hsounds⟩ := List.forall_mem_cons.mp hsound
    obtain ⟨hn₀, hneats⟩ := List.forall_mem_cons.mp hneat
    obtain ⟨rest, hperm⟩ := hmem
    rw [List.flatMap_cons, List.append_assoc] at hperm
    have hstays : Releases c narrow (s :: others) (s :: (releaseLoop c ans others).1) (releaseLoop c ans others).2 b
        (releaseLoopBins c narrow ans others b) :=
      (ih hsounds hneats hs ⟨_, hperm.trans (List.perm_append_comm_assoc _ _ _)⟩).keep hn₀ rfl le_rfl
        fun _ hrest => hrest
    rw [releaseLoop, releaseLoopBins]
    cases hchunks : s.chunks with
    | nil => exact hstays
    | cons x more =>
      simp only
      split
      · next hcond =>
        obtain ⟨hx, hspan⟩ := Bool.and_eq_true_iff.mp hcond
        have hx : x.isInuse = false := by simpa using hx
        have hspan : s.base + s.size - topFootSize c ≤ s.base + x.size := by simpa using hspan
        have hlarge := spanning_large hpage hn₀ hs₀.foot hspan
        obtain rfl := spanning_alone hs₀ hchunks hspan
        rw [hchunks] at hperm
        obtain ⟨hb₁, hentries⟩ := leaves_bin hs hx hlarge hperm
        generalize (if x.isDv then b else b.unlinkLargeChunk narrow s.base x.size) = b₁ at hb₁ hentries
        have hleft := hentries _ hperm
        split
        · refine (ih hsounds hneats hb₁ ⟨_, hleft⟩).drop fun rest hrest => ?_
          rw [hchunks] at hrest
          exact hentries rest hrest
        · have hdvd : 8 ∣ x.size := (mallocAlignment_dvd c).1.trans (hn₀.sizes x (by simp [hchunks]))
          have hinsert := hb₁.insertChunk hdvd s.base
          unfold Bins.insertChunk at hinsert
          rw [if_neg (by rw [hlarge]; exact Bool.false_ne_true)] at hinsert
          have hmem₁ := (hinsert.2.trans (hleft.cons _)).trans (List.perm_append_comm_assoc [_] _ _)
          refine (ih hsounds hneats hinsert.1 ⟨_, hmem₁⟩).keep ⟨hn₀.aligned, hn₀.pos, hn₀.granular, ?_, ?_⟩ rfl
            (by simp) fun rest hrest => ?_
          · have hsizes := hn₀.sizes
            rw [hchunks] at hsizes
            simpa using hsizes
          · simp
          · rw [hchunks] at hrest
            simp only [marked, isBinned_binned, ite_true, List.cons_append, List.nil_append]
            exact hinsert.2.trans ((hentries rest hrest).cons _)
      · exact hstays

end Turf.HeapDL
