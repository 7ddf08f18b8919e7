import Turf.HeapDL.Aligned
import Turf.HeapDL.Freeing

/-!
# Calls with the bins in step

What the steps keep, every call keeps: freeing with its trimming, aligned allocation and resizing.
-/
namespace Turf.HeapDL

open Turf.Lib.Extents

variable {c : Config} {narrow : Bool} {h h' : Heap} {m m' : MallocState} {b b' : Bins} {s : Segment}
  {i p n nb al : Nat} {st : Site} {ans : Answers}

/-- Taking `r` off a counter of at least `r` does not wrap. -/
theorem sub_wrap {a r : Nat} (ha : a < modulus c) (hr : r ≤ a) :
    (a + modulus c - r % modulus c) % modulus c = a - r := by
  rw [Nat.mod_eq_of_lt (hr.trans_lt ha), show a + modulus c - r = a - r + modulus c by omega,
    Nat.add_mod_right, Nat.mod_eq_of_lt ((Nat.sub_le a r).trans_lt ha)]

theorem releaseUnusedSegments_inv (hpage : 9 ≤ c.granularityShift) (inv : h.Inv c narrow) (ans : Answers) :
    (h.releaseUnusedSegments c narrow ans).1.Inv c narrow := by
  have hw := (releaseUnusedSegments_becomes inv.wf ans).wf
  unfold Heap.releaseUnusedSegments
  unfold MallocState.releaseUnusedSegments at hw ⊢
  cases hsegs : h.m.segs with
  | nil =>
    simp only
    exact inv.congr ⟨hsegs.symm ▸ rfl, rfl, rfl, rfl, rfl, rfl⟩ ⟨hsegs.symm ▸ rfl, rfl, rfl, rfl⟩
  | cons s others =>
    rw [hsegs] at hw
    simp only [List.tail_cons] at hw ⊢
    have hsound := inv.wf.sound
    have hneat := inv.neat.segs
    rw [hsegs] at hsound hneat
    have hneats : ∀ s ∈ others, s.Neat c true := by
      intro t ht
      obtain ⟨j, hj⟩ := List.getElem?_of_mem ht
      exact hneat (j + 1) t (by simpa using hj)
    have hlinked := inv.linked
    rw [MallocState.extents, hsegs, List.flatMap_cons] at hlinked
    obtain ⟨hneat', hdv', hsizes', hsound', hentries'⟩ := releaseLoop_inv hpage ans
      (List.forall_mem_cons.mp hsound).2 hneats inv.sound ⟨_, hlinked.trans List.perm_append_comm⟩
    have hfoot := inv.neat.footprint
    have hlt := footprint_lt inv.wf inv.neat
    have hdv := inv.neat.dv
    have hpeak := inv.neat.peak
    rw [hsegs, total_cons] at hfoot
    have hfp := sub_wrap (r := (releaseLoop c ans others).2) hlt (by omega)
    refine ⟨hw, ⟨fun j t ht => ?_, ?_, ?_, ?_, ?_⟩, hsound', ?_⟩
    · cases j with
      | zero =>
        obtain rfl : s = t := by simpa using ht
        exact hneat 0 s rfl
      | succ j => exact hneat' t (List.mem_of_getElem? (by simpa using ht))
    · intro t ht
      exact inv.neat.top t (by rw [hsegs]; exact ht)
    · unfold MallocState.dvCount at hdv ⊢
      rw [hsegs, List.flatMap_cons, List.countP_append] at hdv
      simp only [List.flatMap_cons, List.countP_append]
      omega
    · simp only [total_cons, hfp]
      omega
    · simp only [hfp]
      omega
    · rw [MallocState.extents, List.flatMap_cons]
      exact (hentries' _ (hlinked.trans List.perm_append_comm)).trans List.perm_append_comm

theorem shrinkTop_inv (inv : h.Inv c narrow) (pad : Nat) (hpad : 0 < pad) (ans : Answers) :
    Heap.Inv c narrow ⟨(h.m.shrinkTop c pad ans).1, h.bins⟩ := by
  have hw := (shrinkTop_becomes inv.wf pad ans).wf
  unfold MallocState.shrinkTop at hw ⊢
  cases hs : h.m.segs with
  | nil => exact inv
  | cons sp others =>
    rw [hs] at hw
    simp only at hw ⊢
    split
    · next hcond =>
      rw [if_pos hcond] at hw
      simp only [Bool.and_eq_true, decide_eq_true_eq] at hcond
      obtain ⟨⟨⟨⟨hlt, hle⟩, -⟩, -⟩, -⟩ := hcond
      have hi : h.m.segs[0]? = some sp := by rw [hs]; rfl
      have hneat := inv.neat.segs 0 sp hi
      have htop := inv.neat.top sp (by rw [hs]; rfl)
      have hdv := inv.neat.dv
      have hfoot := inv.neat.footprint
      have hfplt := footprint_lt inv.wf inv.neat
      have hextra : ((h.m.topsize - pad + (granularity c - 1)) / granularity c - 1) *
          granularity c ≤ h.m.topsize - pad := by
        have hg := granularity_pos c
        have hdiv := Nat.div_mul_le_self (h.m.topsize - pad + (granularity c - 1)) (granularity c)
        rw [Nat.sub_mul, Nat.one_mul]
        omega
      have hdvd : granularity c ∣ ((h.m.topsize - pad + (granularity c - 1)) / granularity c - 1) *
          granularity c := Nat.dvd_mul_left _ _
      generalize ((h.m.topsize - pad + (granularity c - 1)) / granularity c - 1) *
        granularity c = extra at hextra hdvd hle hw ⊢
      have hsize : sp.size ≤ h.m.footprint := by
        rw [hfoot, hs, total_cons]
        exact Nat.le_add_right _ _
      have hfp := sub_wrap (r := extra) hfplt (by omega)
      have hset := inv.neat.set (t := { sp with size := sp.size - extra }) hi (h.m.topsize - extra)
        (h.m.footprint - extra)
        ⟨hneat.aligned, hneat.pos, Nat.dvd_sub hneat.granular hdvd, hneat.sizes, hneat.spaced⟩
        (fun _ => by simp only [Segment.total] at htop ⊢; omega) (fun h0 => absurd rfl h0) (by simp only; omega)
        (by simp only; omega) ((Nat.sub_le _ _).trans inv.neat.peak)
      refine ⟨hw, hset.congr ⟨by simp [hs], rfl, hfp, rfl⟩, inv.sound, ?_⟩
      have hlinked := inv.linked
      rw [MallocState.extents, hs] at hlinked
      exact hlinked
    · exact inv

theorem sysTrim_inv (hpage : 9 ≤ c.granularityShift) (inv : h.Inv c narrow) (pad : Nat) :
    (h.sysTrim c narrow pad ans).Inv c narrow := by
  have hc := constants c
  unfold Heap.sysTrim
  split
  · simp only
    have hshrink := shrinkTop_inv inv (pad + topFootSize c) (by omega) ans
    have hrelease := releaseUnusedSegments_inv hpage hshrink ans
    split
    · exact hrelease.congr ⟨rfl, rfl, rfl, rfl, rfl, rfl⟩ ⟨rfl, rfl, rfl, rfl⟩
    · exact hrelease
  · exact inv

theorem afterFree_inv (hpage : 9 ≤ c.granularityShift) (inv : h.Inv c narrow) (landing : Landing) :
    (h.afterFree c narrow landing ans).Inv c narrow := by
  unfold Heap.afterFree
  split
  · split
    · exact sysTrim_inv hpage inv 0
    · exact inv
  · exact inv
  · split
    · exact inv
    · simp only
      have hcount : Heap.Inv c narrow { h with
          m := { h.m with releaseChecks := (h.m.releaseChecks + maxSizeT c) % modulus c } } :=
        inv.congr ⟨rfl, rfl, rfl, rfl, rfl, rfl⟩ ⟨rfl, rfl, rfl, rfl⟩
      split
      · exact releaseUnusedSegments_inv hpage hcount ans
      · exact hcount

theorem subInUse_shape (c : Config) (m : MallocState) (n : Nat) : SameShape m (m.subInUse c n) := by
  unfold MallocState.subInUse
  split <;> exact ⟨rfl, rfl, rfl, rfl⟩

/-- `dlfree` keeps the bins in step. -/
theorem Heap.dlfree_inv (hpage : 9 ≤ c.granularityShift) (inv : h.Inv c narrow) {mem : Nat}
    (he : h.dlfree c narrow mem ans = some h') : h'.Inv c narrow := by
  unfold Heap.dlfree at he
  simp only at he
  split at he
  · obtain rfl := Option.some.inj he
    exact inv
  · split at he
    · cases he
    · split at he
      · next st hst =>
        obtain rfl := Option.some.inj he
        obtain ⟨hin, -, huse⟩ := inuseAt_spec hst
        have hsub := subInUse_same c h.m st.chunk.size
        have inv' : Heap.Inv c narrow ⟨h.m.subInUse c st.chunk.size, h.bins⟩ :=
          inv.congr hsub (subInUse_shape c h.m _)
        have hin' : st.In (h.m.subInUse c st.chunk.size) := ⟨by rw [hsub.segs]; exact hin.seg, hin.chunks⟩
        exact afterFree_inv hpage (consolidate_inv inv' hin' huse) _
      · -- No chunk was ever mapped on its own.
        next hnone =>
        obtain ⟨m', hm', -⟩ := Option.map_eq_some_iff.mp he
        unfold MallocState.dlfree at hm'
        simp_all [inv.wf.direct]

end Turf.HeapDL
