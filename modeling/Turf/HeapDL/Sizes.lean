import Turf.HeapDL.Operator
import Mathlib.Tactic.Ring

/-!
# The constants on both widths, and the arithmetic of requests
-/
namespace Turf.HeapDL

variable (c : Config)

/-- The sizes that the macros of the source come out as, with 8-byte and with 4-byte `size_t`. -/
theorem constants :
    (sizeT c = 8 ∧ modulus c = 18446744073709551616 ∧ mallocAlignment c = 16 ∧
      minChunkSize c = 32 ∧ minRequest c = 23 ∧ maxRequest c = 18446744073709551488 ∧
      segmentRecordSize c = 48 ∧ topFootSize c = 80 ∧ maxSmallRequest c = 232) ∨
    (sizeT c = 4 ∧ modulus c = 4294967296 ∧ mallocAlignment c = 8 ∧
      minChunkSize c = 16 ∧ minRequest c = 11 ∧ maxRequest c = 4294967232 ∧
      segmentRecordSize c = 24 ∧ topFootSize c = 40 ∧ maxSmallRequest c = 244) := by
  cases h : c.wide
  · right
    simp [sizeT, modulus, mallocAlignment, minChunkSize, minRequest, maxRequest, chunkOverhead,
      segmentRecordSize, topFootSize, maxSmallRequest, chunkAlignMask, padRequest, alignOffset,
      chunk2mem, roundUp, h]
  · left
    simp [sizeT, modulus, mallocAlignment, minChunkSize, minRequest, maxRequest, chunkOverhead,
      segmentRecordSize, topFootSize, maxSmallRequest, chunkAlignMask, padRequest, alignOffset,
      chunk2mem, roundUp, h]

theorem minChunkSize_pos : 0 < minChunkSize c := by have h := constants c; omega

theorem granularity_pos : 0 < granularity c := Nat.two_pow_pos _

theorem granularity_ge : 128 ≤ granularity c :=
  Nat.pow_le_pow_right (by decide : 0 < 2) c.granularity_large

theorem granularity_dvd : granularity c ∣ modulus c := by
  have h := c.granularity_fits
  unfold modulus granularity
  split
  · next hw =>
    rw [if_pos hw] at h
    exact Nat.pow_dvd_pow 2 (Nat.le_of_lt h)
  · next hw =>
    rw [if_neg hw] at h
    exact Nat.pow_dvd_pow 2 (Nat.le_of_lt h)

theorem roundUp_ge (x : Nat) {a : Nat} (ha : 0 < a) : x ≤ roundUp x a := by
  have h := Nat.div_add_mod (x + (a - 1)) a
  have hm := Nat.mod_lt (x + (a - 1)) ha
  rw [roundUp, Nat.mul_comm]
  omega

theorem padRequest_ge (req : Nat) : req + sizeT c ≤ padRequest c req :=
  roundUp_ge _ (by have h := constants c; omega)

theorem request2size_ge (req : Nat) : minChunkSize c ≤ request2size c req := by
  unfold request2size
  split
  · exact le_rfl
  · have h := constants c
    have hp : roundUp (req + sizeT c) (mallocAlignment c) = padRequest c req := rfl
    unfold roundUp at hp
    rcases h with ⟨hs, hm, ha, hmin, hreq, -⟩ | ⟨hs, hm, ha, hmin, hreq, -⟩ <;>
      rw [hs, ha] at hp <;> omega

theorem paddedRequest_ge (bytes : Nat) : minChunkSize c ≤ paddedRequest c bytes := by
  have h := constants c
  unfold paddedRequest
  split
  · exact request2size_ge c bytes
  · split
    · unfold maxSizeT
      omega
    · have hp := padRequest_ge c bytes
      omega

theorem paddedRequest_lt {bytes : Nat} : paddedRequest c bytes < modulus c := by
  have h := constants c
  have hpad : ∀ r, padRequest c r ≤ r + sizeT c + (mallocAlignment c - 1) := by
    intro r
    exact Nat.div_mul_le_self _ _
  unfold paddedRequest request2size
  have hb := hpad bytes
  split
  · split <;> omega
  · split
    · unfold maxSizeT
      omega
    · omega

/-- What `sys_alloc` asks the system for, where the sum did not wrap. -/
theorem sysAllocSize_spec {nb : Nat} (hnb : nb < modulus c) (h : nb < sysAllocSize c nb) :
    nb + sysAllocPadding c ≤ sysAllocSize c nb := by
  have hc := constants c
  have hg := granularity_ge c
  have hpad : sysAllocPadding c = topFootSize c + mallocAlignment c := rfl
  have hgle : granularity c ≤ modulus c := Nat.le_of_dvd (by omega) (granularity_dvd c)
  obtain ⟨k, hk⟩ := granularity_dvd c
  have hpos := granularity_pos c
  unfold sysAllocSize granularityAlign at h ⊢
  generalize hx : (nb + sysAllocPadding c) % modulus c = x at h ⊢
  generalize hy : (x + (granularity c - 1)) % modulus c = y at h ⊢
  have hylt : y < modulus c := hy ▸ Nat.mod_lt _ (by omega)
  have hle := Nat.div_mul_le_self y (granularity c)
  have hdiv := Nat.div_add_mod y (granularity c)
  have hmod := Nat.mod_lt y hpos
  rw [Nat.mul_comm] at hdiv
  by_cases hw : nb + sysAllocPadding c < modulus c
  · rw [Nat.mod_eq_of_lt hw] at hx
    by_cases hw' : x + (granularity c - 1) < modulus c
    · rw [Nat.mod_eq_of_lt hw'] at hy
      omega
    · -- the rounding wraps, and nothing is left to ask for
      have hz : y < granularity c := by
        rw [Nat.mod_eq_sub_mod (by omega), Nat.mod_eq_of_lt (by omega)] at hy
        omega
      rw [Nat.div_eq_of_lt hz] at h
      omega
  · -- a multiple of the granularity below the modulus cannot exceed such a request
    have hq : y / granularity c < k := by
      apply Nat.div_lt_of_lt_mul
      rw [← hk]
      exact hylt
    have hmul := Nat.mul_le_mul_right (granularity c) (Nat.succ_le_of_lt hq)
    rw [Nat.succ_mul, Nat.mul_comm k, ← hk] at hmul
    omega

end Turf.HeapDL
