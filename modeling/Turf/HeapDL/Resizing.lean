import Turf.HeapDL.Projection
import Turf.HeapDL.Trimming

/-!
# Aligned allocation and resizing with the bins in step

A chunk in use is cut, or grows into the free space behind it, and what is spare is freed.
-/
namespace Turf.HeapDL

open Turf.Lib.Extents

variable {c : Config} {narrow : Bool} {h h' : Heap} {m m' : MallocState} {b b' : Bins} {p q n nb k al mem : Nat}
  {st : Site} {ans : Answers}

/-! ## Giving back parts of a block -/

theorem splitInuse_inv (inv : h.Inv c narrow) (hmem : (p, n) ∈ h.m.blocks) (hk : minChunkSize c ≤ k)
    (hn : minChunkSize c + k ≤ n) (hdvd : mallocAlignment c ∣ k) (he : h.splitInuse p k = some h') :
    h'.Inv c narrow := by
  obtain ⟨st, hst, hin, rfl, hc⟩ := inuseAt_block inv.wf hmem
  obtain ⟨-, hsize, hspaced⟩ := inv.neat.site hin
  rw [hc, isInuse_inuse, spaced_append_true] at hspaced
  have hrest := rest_dvd hsize hdvd
  rw [hc] at hrest
  have hcount := inv.neat.dv
  have hcut := inv.cut hin [⟨k, .inuse⟩, ⟨n - k, .inuse⟩] h.bins
    (by rw [hc]; simp; omega) (by simp [hk, hdvd, hrest]; omega)
    (by simpa using hspaced) (by simp [hc]; omega)
    (by simpa [marked, hc] using inv.sound.relinks)
  rw [Heap.splitInuse, MallocState.splitInuse, hst] at he
  obtain rfl := Option.some.inj he
  simpa [hc] using hcut

theorem disposeChunk_inv (inv : h.Inv c narrow) (he : h.disposeChunk c narrow p = some h') : h'.Inv c narrow := by
  obtain ⟨st, hst, rfl⟩ := Option.map_eq_some_iff.mp he
  obtain ⟨hin, -, huse⟩ := inuseAt_spec hst
  exact consolidate_inv inv hin huse

theorem giveBack_inv (inv : h.Inv c narrow) (hmem : (p, n) ∈ h.m.blocks) (hk : minChunkSize c ≤ k)
    (hn : minChunkSize c + k ≤ n) (hdvd : mallocAlignment c ∣ k)
    (he : (h.splitInuse p k).bind (fun h => h.disposeChunk c narrow q) = some h') : h'.Inv c narrow := by
  obtain ⟨h₁, hsplit, hdispose⟩ := Option.bind_eq_some_iff.mp he
  exact disposeChunk_inv (splitInuse_inv inv hmem hk hn hdvd hsplit) hdispose

/-! ## Aligned allocation -/

theorem Heap.Inv.address_dvd (inv : h.Inv c narrow) (hin : st.In h.m) : mallocAlignment c ∣ st.address := by
  obtain ⟨hneat, -, -⟩ := inv.neat.site hin
  have hbase : mallocAlignment c ∣ st.seg.base := (mallocAlignment_dvd c).2.2.trans hneat.aligned
  refine Nat.dvd_add hbase (total_dvd fun x hx => hneat.sizes x ?_)
  rw [hin.chunks]
  exact List.mem_append_left _ hx

theorem Heap.Inv.block_dvd (inv : h.Inv c narrow) (hmem : (p, n) ∈ h.m.blocks) :
    mallocAlignment c ∣ p ∧ mallocAlignment c ∣ n := by
  obtain ⟨st, -, hin, rfl, hc⟩ := inuseAt_block inv.wf hmem
  obtain ⟨-, hsize, -⟩ := inv.neat.site hin
  rw [hc] at hsize
  exact ⟨inv.address_dvd hin, hsize⟩

/-- The alignment that `internal_memalign` works with keeps what the heap is aligned to. -/
theorem roundAlignment_dvd {alignment : Nat} (hr : roundAlignment c alignment = some al) :
    mallocAlignment c ∣ al := by
  have hmod : mallocAlignment c ∣ modulus c := (mallocAlignment_dvd c).2.2.trans (granularity_dvd c)
  have hdouble : ∀ turns a, mallocAlignment c ∣ a →
      doubleTo c (max alignment (minChunkSize c)) turns a = some al → mallocAlignment c ∣ al := by
    intro turns
    induction turns with
    | zero => intro a _ hd; cases hd
    | succ turns ih =>
      intro a ha hd
      rw [doubleTo] at hd
      split at hd
      · exact ih _ ((Nat.dvd_mod_iff hmod).mpr (ha.mul_right 2)) hd
      · cases hd
        exact ha
  have hmin := Nat.le_max_right alignment (minChunkSize c)
  have hpos := minChunkSize_pos c
  unfold roundAlignment at hr
  simp only at hr
  split at hr
  · exact hdouble _ _ (Nat.dvd_mul_right _ _) hr
  · next hpow =>
    have hpow : max alignment (minChunkSize c) &&& (max alignment (minChunkSize c) - 1) = 0 := by simpa using hpow
    rw [Nat.and_sub_one_eq_zero_iff_isPowerOfTwo (by omega)] at hpow
    obtain ⟨e, hpow⟩ := hpow
    obtain rfl : max alignment (minChunkSize c) = al := Option.some.inj hr
    generalize max alignment (minChunkSize c) = a at hpow hmin ⊢
    subst hpow
    rcases constants c with ⟨-, -, ha, hm, -⟩ | ⟨-, -, ha, hm, -⟩ <;> rw [hm] at hmin <;> rw [ha]
    · exact Nat.pow_dvd_pow 2 ((Nat.pow_le_pow_iff_right (by decide)).mp (show 2 ^ 4 ≤ 2 ^ e by omega))
    · exact Nat.pow_dvd_pow 2 ((Nat.pow_le_pow_iff_right (by decide)).mp (show 2 ^ 3 ≤ 2 ^ e by omega))

/-- The memory of a chunk at the aligned address is aligned. -/
theorem alignedPos_dvd (hal : 0 < al) (p : Nat) : al ∣ chunk2mem c (alignedPos c al p) := by
  have hup := roundUp_ge (chunk2mem c p) hal
  have hmem : chunk2mem c p = p + 2 * sizeT c := rfl
  have hdvd : al ∣ roundUp (chunk2mem c p) al := Nat.dvd_mul_left _ _
  unfold roundUp at hup hdvd
  unfold alignedPos
  rw [show chunk2mem c p + al - 1 = chunk2mem c p + (al - 1) by omega]
  generalize (chunk2mem c p + (al - 1)) / al * al = up at hup hdvd ⊢
  simp only
  have hback : chunk2mem c (up - 2 * sizeT c) = up := by
    unfold chunk2mem
    omega
  split
  · rw [hback]
    exact hdvd
  · rw [show chunk2mem c (up - 2 * sizeT c + al) = up + al by unfold chunk2mem at hback ⊢; omega]
    exact Nat.dvd_add hdvd (Nat.dvd_refl al)

theorem leader_dvd (hal : 0 < al) (hdvd : mallocAlignment c ∣ al) (hp : mallocAlignment c ∣ p) :
    mallocAlignment c ∣ alignedPos c al p - p := by
  have hpos := hdvd.trans (alignedPos_dvd (c := c) hal p)
  refine Nat.dvd_sub ?_ hp
  unfold chunk2mem at hpos
  rcases constants c with ⟨hs, -, ha, -⟩ | ⟨hs, -, ha, -⟩ <;> rw [ha] at hpos ⊢ <;> omega

theorem alignLeader_inv (inv : h.Inv c narrow) (hmem : (p, n) ∈ h.m.blocks) (hal : minChunkSize c ≤ al)
    (hdvd : mallocAlignment c ∣ al) (hn : minChunkSize c + al + minChunkSize c ≤ n)
    (he : h.alignLeader c narrow al p = some (h', q)) : h'.Inv c narrow := by
  have hpos := minChunkSize_pos c
  obtain ⟨st, hst, -⟩ := inuseAt_block inv.wf hmem
  unfold Heap.alignLeader at he
  simp only [hst, Option.isSome_some, ite_true] at he
  split at he
  · cases he
    exact inv
  · obtain ⟨h₁, hback, heq⟩ := Option.map_eq_some_iff.mp he
    obtain ⟨rfl, -⟩ := Prod.mk.inj heq
    obtain ⟨hlow, hhigh⟩ := alignedPos_spec hal p
    exact giveBack_inv inv hmem (by omega) (by omega) (leader_dvd (by omega) hdvd (inv.block_dvd hmem).1) hback

theorem trimRest_inv (inv : h.Inv c narrow) (hmem : (p, n) ∈ h.m.blocks) (hmin : minChunkSize c ≤ nb)
    (hdvd : mallocAlignment c ∣ nb) (he : h.trimRest c narrow nb p = some h') : h'.Inv c narrow := by
  obtain ⟨st, hst, -, -, hc⟩ := inuseAt_block inv.wf hmem
  unfold Heap.trimRest at he
  simp only [hst, hc] at he
  split at he
  · exact giveBack_inv inv hmem hmin (by omega) hdvd he
  · obtain rfl := Option.some.inj he
    exact inv

theorem alignBlock_inv (inv : h.Inv c narrow) (hmem : (p, n) ∈ h.m.blocks) (hal : minChunkSize c ≤ al)
    (hal' : mallocAlignment c ∣ al) (hmin : minChunkSize c ≤ nb) (hnb : mallocAlignment c ∣ nb)
    (hn : nb + al + minChunkSize c ≤ n) (he : h.alignBlock c narrow nb al p = some (h', mem)) :
    h'.Inv c narrow := by
  obtain ⟨⟨h₁, q⟩, hlead, hrest⟩ := Option.bind_eq_some_iff.mp he
  obtain ⟨h₂, htrim, heq⟩ := Option.map_eq_some_iff.mp hrest
  obtain ⟨rfl, -⟩ := Prod.mk.inj heq
  obtain ⟨q', k, m₁, hspec, hb, -⟩ := alignLeader_spec inv.wf hmem hal hmin hn
  have hplain : (h.alignLeader c narrow al p).map Heap.plain = h.m.alignLeader c al p := alignLeader_plain
  rw [hlead, hspec] at hplain
  obtain ⟨rfl, rfl⟩ := Prod.mk.inj (Option.some.inj hplain)
  exact trimRest_inv (alignLeader_inv inv hmem hal hal' (by omega) hlead) (Exchange.mem_added hb.blocks hmem) hmin hnb htrim

/-! ## Resizing -/

/-- A block takes in the free chunk behind it, or a part of it. -/
theorem joined_inv (inv : h.Inv c narrow) (hin : st.In h.m) (huse : st.chunk.isInuse = true) {next : Chunk}
    {right : List Chunk} (hright : st.right = next :: right) (hfree : next.isInuse = false) (k : Nat)
    (new : List Chunk) (b' : Bins) (hsize : k + total Chunk.size new = st.chunk.size + next.size) (hk : minChunkSize c ≤ k)
    (hdvd : mallocAlignment c ∣ k) (hsizes : ∀ x ∈ new, minChunkSize c ≤ x.size ∧ mallocAlignment c ∣ x.size)
    (hspaced : ∀ tail, Spaced (false :: tail) → Spaced (new.map Chunk.isInuse ++ tail))
    (hdv : new.countP Chunk.isDv ≤ if next.isDv then 1 else 0)
    (hb : Relinks c narrow h.bins b'
      (marked Chunk.size Chunk.isBinned (st.address + st.chunk.size) [next])
      (marked Chunk.size Chunk.isBinned (st.address + k) new)) :
    Heap.Inv c narrow ⟨h.m.write st (st.left ++ ⟨k, .inuse⟩ :: (new ++ right)), b'⟩ := by
  obtain ⟨-, -, hneat⟩ := inv.neat.site hin
  rw [huse, spaced_append_true, hright, List.map_cons, hfree, List.cons_append] at hneat
  have hchunks : st.seg.chunks = st.left ++ [st.chunk, next] ++ right := by
    rw [hin.chunks, hright]
    simp
  have hcount := inv.neat.dv
  have hf : Fitting c h.m st.index h.m.topsize st.left [st.chunk, next] right (⟨k, .inuse⟩ :: new) := by
    refine ⟨fun _ => rfl, inv.top_pos hin, by simp; omega, .inl rfl, ?_, ?_, ?_⟩
    · exact List.forall_mem_cons.mpr ⟨⟨hk, hdvd⟩, hsizes⟩
    · rw [List.map_append, List.map_append, List.map_cons, isInuse_inuse, List.append_assoc, List.append_assoc,
        List.cons_append]
      exact spaced_append_true.mpr ⟨hneat.1, hspaced _ hneat.2⟩
    · simp only [List.countP_cons, List.countP_nil, isDv_inuse, isDv_of_isInuse huse, Bool.false_eq_true, ite_false]
      omega
  have hmark : marked Chunk.size Chunk.isBinned (st.seg.base + total Chunk.size st.left) [st.chunk, next] =
      marked Chunk.size Chunk.isBinned (st.address + st.chunk.size) [next] := by
    rw [marked, isBinned_of_isInuse huse]
    rfl
  have hinv := inv.recut hin.seg hchunks hf b' (by
    rw [hmark]
    simpa [marked, Site.address] using hb)
  simpa [MallocState.write] using hinv

theorem resizeInPlace_inv (inv : h.Inv c narrow) (hin : st.In h.m) (huse : st.chunk.isInuse = true)
    (hmin : minChunkSize c ≤ nb) (hdvd : mallocAlignment c ∣ nb) {ret : Option Nat}
    (he : h.resizeInPlace c narrow st.address nb st = some (h', ret)) : h'.Inv c narrow := by
  obtain ⟨hneat, hsize, hspaced⟩ := inv.neat.site hin
  have hmem := hin.mem_blocks huse
  unfold Heap.resizeInPlace at he
  simp only at he
  split at he
  · split at he
    · obtain ⟨h₁, hback, heq⟩ := Option.map_eq_some_iff.mp he
      obtain ⟨rfl, -⟩ := Prod.mk.inj heq
      exact giveBack_inv inv hmem hmin (by omega) hdvd hback
    · cases he
      exact inv
  · next hgrow =>
    cases hr : st.right with
    | nil =>
      simp only [hr, MallocState.resizeInPlace, if_neg hgrow] at he
      split at he
      · next htop =>
        -- the block grows into `top`
        simp only [Bool.and_eq_true, decide_eq_true_eq] at htop
        obtain ⟨h0, htop⟩ := htop
        cases he
        have hi : h.m.segs[0]? = some st.seg := h0 ▸ hin.seg
        have hchunks : st.seg.chunks = st.left ++ [st.chunk] ++ [] := by simp [hin.chunks, hr]
        have hcount := inv.neat.dv
        rw [huse, spaced_append_true] at hspaced
        have hf : Fitting c h.m 0 (st.chunk.size + h.m.topsize - nb) st.left [st.chunk] [] [⟨nb, .inuse⟩] :=
          ⟨fun hne => absurd rfl hne, fun _ => by omega, by simp; omega, .inr rfl, by simp [hmin, hdvd],
            by simpa using hspaced.1, by simp; omega⟩
        have hinv := inv.recut hi hchunks hf h.bins
          (by simpa [marked, isBinned_of_isInuse huse] using inv.sound.relinks)
        simpa [MallocState.write, h0] using hinv
      · cases he
        exact inv
    | cons next right =>
      simp only [hr] at he
      split at he
      · cases he
        exact inv
      · next hroom =>
        simp only [Bool.or_eq_true, decide_eq_true_eq, not_or, Bool.not_eq_true, not_lt] at hroom
        obtain ⟨hfree, hroom⟩ := hroom
        have hnext : Site.In ⟨st.index, st.seg, st.left ++ [st.chunk], next, right⟩ h.m :=
          ⟨hin.seg, by rw [hin.chunks, hr]; simp⟩
        have haddr : Site.address ⟨st.index, st.seg, st.left ++ [st.chunk], next, right⟩ =
            st.address + st.chunk.size := by
          simp [Site.address, Nat.add_assoc]
        have hnsize := hneat.sizes next (by rw [hin.chunks, hr]; simp)
        have hjoin : mallocAlignment c ∣ st.chunk.size + next.size := Nat.dvd_add hsize hnsize
        have hmin' := hin.size_ge inv.wf
        rcases next.cases with hn | hn | hn <;> generalize next.size = n at hn hnext hnsize hroom hjoin he <;>
          subst hn
        · cases hfree
        · simp only [isDv_binned, Bool.false_eq_true, ite_false] at he
          have hunlink := inv.sound.unlinks (inv.mem_entries hnext rfl)
          rw [haddr] at hunlink
          have hwhole := joined_inv inv hin huse hr hfree (st.chunk.size + n) []
            (h.bins.unlinkChunk narrow (st.address + st.chunk.size) n) (by simp)
            (by omega) hjoin (by simp) (by intro tail ht; simpa using ht.tail) (by simp)
            (by simpa [marked] using hunlink)
          split at he
          · cases he
            simpa using hwhole
          · next hrest =>
            obtain ⟨h₁, hdispose, heq⟩ := Option.map_eq_some_iff.mp he
            obtain ⟨rfl, -⟩ := Prod.mk.inj heq
            have hcut := joined_inv inv hin huse hr hfree nb [⟨st.chunk.size + n - nb, .inuse⟩]
              (h.bins.unlinkChunk narrow (st.address + st.chunk.size) n) (by simp; omega) hmin hdvd
              (by simp [rest_dvd hjoin hdvd]; omega) (by intro tail ht; simpa using ht.tail) (by simp)
              (by simpa [marked] using hunlink)
            exact disposeChunk_inv (by simpa using hcut) hdispose
        · simp only [isDv_dv, ite_true, MallocState.resizeInPlace, if_neg hgrow, hr, isInuse_dv, Bool.false_or] at he
          rw [if_neg (by simpa using hroom)] at he
          have hkeep := inv.sound.relinks
          split at he
          · cases he
            have hwhole := joined_inv inv hin huse hr hfree (st.chunk.size + n) [] h.bins
              (by simp) (by omega) hjoin (by simp) (by intro tail ht; simpa using ht.tail) (by simp)
              (by simpa [marked] using hkeep)
            simpa using hwhole
          · next hrest =>
            cases he
            have hcut := joined_inv inv hin huse hr hfree nb [⟨st.chunk.size + n - nb, .dv⟩] h.bins
              (by simp; omega) hmin hdvd (by simp [rest_dvd hjoin hdvd]; omega)
              (by intro tail ht; simpa using ht) (by simp) (by simpa [marked] using hkeep)
            simpa using hcut

end Turf.HeapDL
