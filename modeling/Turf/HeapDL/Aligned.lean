import Turf.HeapDL.Release

/-!
# Aligned allocation

`internal_memalign` asks `dlmalloc` for more than it needs and gives back what lies below the
aligned address and behind the block. It always gives something back.
-/
namespace Turf.HeapDL

open Turf.Lib.Extents

variable {c : Config} {m m' : MallocState} {p n nb al : Nat}

theorem Becomes.mem_added {gone added : List (Nat × Nat)} (h : Becomes c m m' gone added)
    {e : Nat × Nat} (he : e ∈ added) (hgone : ∀ x ∈ gone, e ≠ x) : e ∈ m'.blocks := by
  have hmem : e ∈ m'.blocks ++ gone :=
    h.blocks.mem_iff.mpr (List.mem_append_right _ he)
  rcases List.mem_append.mp hmem with h | h
  · exact h
  · exact absurd rfl (hgone e h)

theorem giveBackLeader_spec (w : WF c m) (h : (p, n) ∈ m.blocks) {k : Nat}
    (hk : minChunkSize c ≤ k) (hn : minChunkSize c + k ≤ n) :
    ∃ m', m.giveBackLeader p k = some m' ∧ Becomes c m m' [(p, n)] [(p + k, n - k)] := by
  have hpos := minChunkSize_pos c
  obtain ⟨m₁, h₁, hb₁⟩ := splitInuse_spec w h hk hn
  have hmem : (p, k) ∈ m₁.blocks := hb₁.mem_added (by simp) (by simp; omega)
  obtain ⟨m₂, h₂, hb₂⟩ := disposeChunk_spec hb₁.wf hmem
  refine ⟨m₂, ?_, (hb₁.trans hb₂).rebalance (.refl _)⟩
  rw [MallocState.giveBackLeader, h₁, Option.bind_some, h₂]

theorem giveBackRest_spec (w : WF c m) (h : (p, n) ∈ m.blocks) {k : Nat}
    (hk : minChunkSize c ≤ k) (hn : minChunkSize c + k ≤ n) :
    ∃ m', m.giveBackRest p k = some m' ∧ Becomes c m m' [(p, n)] [(p, k)] := by
  have hpos := minChunkSize_pos c
  obtain ⟨m₁, h₁, hb₁⟩ := splitInuse_spec w h hk hn
  have hmem : (p + k, n - k) ∈ m₁.blocks := hb₁.mem_added (by simp) (by simp; omega)
  obtain ⟨m₂, h₂, hb₂⟩ := disposeChunk_spec hb₁.wf hmem
  refine ⟨m₂, ?_, (hb₁.trans hb₂).rebalance ?_⟩
  · rw [MallocState.giveBackRest, h₁, Option.bind_some, h₂]
  · exact (List.Perm.swap _ _ _).cons _

/-- The aligned address leaves at least a chunk below it, and less than a chunk and an
alignment. -/
theorem alignedPos_spec (hal : minChunkSize c ≤ al) (p : Nat) :
    p + minChunkSize c ≤ alignedPos c al p ∧ alignedPos c al p < p + minChunkSize c + al := by
  have hpos := minChunkSize_pos c
  have hup := roundUp_ge (chunk2mem c p) (show 0 < al by omega)
  have hle := Nat.div_mul_le_self (chunk2mem c p + (al - 1)) al
  have hmem : chunk2mem c p = p + 2 * sizeT c := rfl
  unfold roundUp at hup
  unfold alignedPos
  rw [show chunk2mem c p + al - 1 = chunk2mem c p + (al - 1) by omega]
  generalize (chunk2mem c p + (al - 1)) / al * al = up at hup hle ⊢
  simp only
  split <;> omega

theorem alignLeader_spec (w : WF c m) (h : (p, n) ∈ m.blocks) (hal : minChunkSize c ≤ al)
    (hmin : minChunkSize c ≤ nb) (hn : nb + al + minChunkSize c ≤ n) :
    ∃ q k m', m.alignLeader c al p = some (m', q) ∧ Becomes c m m' [(p, n)] [(q, k)] ∧ nb ≤ k ∧
      (k < n ∨ k = n) ∧ (k = n → nb + minChunkSize c < k) := by
  have hpos := minChunkSize_pos c
  unfold MallocState.alignLeader
  split
  · refine ⟨p, n, m, rfl, (Becomes.refl w).rebalance (.refl _), by omega, .inr rfl, by omega⟩
  · obtain ⟨hlow, hhigh⟩ := alignedPos_spec hal p
    obtain ⟨st, hst, -⟩ := inuseAt_block w h
    obtain ⟨m', hm', hb⟩ := giveBackLeader_spec w h
      (show minChunkSize c ≤ alignedPos c al p - p by omega) (by omega)
    rw [show p + (alignedPos c al p - p) = alignedPos c al p by omega] at hb
    refine ⟨alignedPos c al p, n - (alignedPos c al p - p), m', ?_, hb, by omega, .inl (by omega),
      by omega⟩
    simp [hst, hm']

theorem trimRest_spec (w : WF c m) (h : (p, n) ∈ m.blocks) (hmin : minChunkSize c ≤ nb)
    (hn : nb ≤ n) :
    ∃ k m', m.trimRest c nb p = some m' ∧ Becomes c m m' [(p, n)] [(p, k)] ∧ nb ≤ k ∧ k ≤ n ∧
      (nb + minChunkSize c < n → k < n) := by
  have hpos := minChunkSize_pos c
  obtain ⟨st, hst, -, -, hc⟩ := inuseAt_block w h
  have hsize : st.chunk.size = n := by rw [hc]
  by_cases hspare : nb + minChunkSize c < n
  · obtain ⟨m', hm', hb⟩ := giveBackRest_spec w h hmin (by omega)
    refine ⟨nb, m', ?_, hb, le_rfl, by omega, fun _ => by omega⟩
    simp [MallocState.trimRest, hst, hsize, hspare, hm']
  · refine ⟨n, m, ?_, (Becomes.refl w).rebalance (.refl _), hn, le_rfl, fun h => absurd h hspare⟩
    simp [MallocState.trimRest, hst, hsize, hspare]

/-- The block that an aligned allocation returns is smaller than the one it got. -/
theorem alignBlock_spec (w : WF c m) (h : (p, n) ∈ m.blocks) (hal : minChunkSize c ≤ al)
    (hmin : minChunkSize c ≤ nb) (hn : nb + al + minChunkSize c ≤ n) :
    ∃ q k m', m.alignBlock c nb al p = some (m', chunk2mem c q) ∧
      Becomes c m m' [(p, n)] [(q, k)] ∧ nb ≤ k ∧ k < n := by
  obtain ⟨q, k₁, m₁, h₁, hb₁, hk₁, hcase, hspare⟩ := alignLeader_spec w h hal hmin hn
  have hmem : (q, k₁) ∈ m₁.blocks := by
    have hperm := hb₁.blocks
    by_cases he : (q, k₁) = (p, n)
    · rw [he] at hperm ⊢
      exact ((List.perm_append_right_iff _).mp hperm).mem_iff.mpr h
    · exact hb₁.mem_added (by simp) (by simpa using he)
  obtain ⟨k, m₂, h₂, hb₂, hk, hle, htrim⟩ := trimRest_spec hb₁.wf hmem hmin hk₁
  refine ⟨q, k, m₂, ?_, (hb₁.trans hb₂).rebalance ?_, hk, by omega⟩
  · simp [MallocState.alignBlock, h₁, h₂]
  · exact .refl _

theorem doubleTo_ge {alignment turns a b : Nat} (h : doubleTo c alignment turns a = some b) :
    alignment ≤ b := by
  induction turns generalizing a with
  | zero => cases h
  | succ turns ih =>
    rw [doubleTo] at h
    split at h
    · exact ih h
    · cases h
      omega

theorem roundAlignment_ge {alignment : Nat} (h : roundAlignment c alignment = some al) :
    minChunkSize c ≤ al := by
  have hmax := Nat.le_max_right alignment (minChunkSize c)
  unfold roundAlignment at h
  simp only at h
  split at h
  · exact hmax.trans (doubleTo_ge h)
  · cases h
    exact hmax

/-- `a` after a number of turns of the doubling loop. -/
def doubled (c : Config) (a turns : Nat) : Nat := (fun x => x * 2 % modulus c)^[turns] a

theorem doubled_eq (a : Nat) (ha : a < modulus c) (turns : Nat) :
    doubled c a turns = a * 2 ^ turns % modulus c := by
  induction turns with
  | zero => simp [doubled, Nat.mod_eq_of_lt ha]
  | succ turns ih =>
    have hstep : doubled c a (turns + 1) = doubled c a turns * 2 % modulus c :=
      Function.iterate_succ_apply' _ _ _
    rw [hstep, ih, Nat.mod_mul_mod, Nat.pow_succ, Nat.mul_assoc]

/-- Where `roundAlignment` has no result, the loop of the source has no end. -/
theorem roundAlignment_none {alignment : Nat} (h : roundAlignment c alignment = none)
    (turns : Nat) : doubled c (mallocAlignment c * 2) turns < max alignment (minChunkSize c) := by
  have hstuck : ∀ k a, doubleTo c (max alignment (minChunkSize c)) k a = none →
      ∀ t < k, doubled c a t < max alignment (minChunkSize c) := by
    intro k
    induction k with
    | zero => intro a _ t ht; cases ht
    | succ k ih =>
      intro a ha t ht
      rw [doubleTo] at ha
      split at ha
      · next hlt =>
        cases t with
        | zero => exact hlt
        | succ t => exact ih _ ha t (by omega)
      · cases ha
  unfold roundAlignment at h
  simp only at h
  split at h
  · by_cases ht : turns < 8 * sizeT c
    · exact hstuck _ _ h turns ht
    · have hc := constants c
      have hmod : modulus c = 2 ^ (8 * sizeT c) := by
        rcases hc with ⟨hs, hm, -⟩ | ⟨hs, hm, -⟩ <;> rw [hs, hm] <;> rfl
      have hzero : doubled c (mallocAlignment c * 2) turns = 0 := by
        rw [doubled_eq _ (by omega), hmod]
        apply Nat.mod_eq_zero_of_dvd
        exact (Nat.pow_dvd_pow 2 (by omega)).mul_left _
      have hpos := minChunkSize_pos c
      have hmax := Nat.le_max_right alignment (minChunkSize c)
      omega
  · cases h

theorem alignedRequest_padded {bytes : Nat} (h : bytes < maxRequest c - al)
    (hal : minChunkSize c ≤ al) :
    request2size c bytes + al + minChunkSize c ≤
      paddedRequest c (alignedRequest c al bytes) := by
  have hc := constants c
  have hge := request2size_ge c bytes
  have hpad := padRequest_ge c (alignedRequest c al bytes)
  have hover : chunkOverhead c = sizeT c := rfl
  have hreq : alignedRequest c al bytes =
      request2size c bytes + al + minChunkSize c - chunkOverhead c := rfl
  have hup : padRequest c bytes ≤ bytes + sizeT c + (mallocAlignment c - 1) :=
    Nat.div_mul_le_self _ _
  have hle : request2size c bytes ≤ max (minChunkSize c) (padRequest c bytes) := by
    unfold request2size
    split
    · exact Nat.le_max_left _ _
    · exact Nat.le_max_right _ _
  unfold paddedRequest
  split
  · have hbig : request2size c (alignedRequest c al bytes) =
        padRequest c (alignedRequest c al bytes) := if_neg (by omega)
    rw [hbig]
    omega
  · split
    · unfold maxSizeT
      omega
    · omega

end Turf.HeapDL
