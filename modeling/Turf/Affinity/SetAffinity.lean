import Turf.Affinity.Lawful
import Turf.Lib.SetBits

/-!
# Selecting a hardware thread on Win32

The constructor keeps its masks inside the array and none of them is zero. The scan in
`setAffinity` has no bound of its own: it ends because the assertion leaves it a set bit to find.
-/
namespace Turf.Affinity.Win32

open Turf.Lib.SetBits

variable {wide : Bool} {s : State wide}

theorem countSetBits_loop (fuel : Nat) (mask : BitVec 64) (count : Nat) :
    countSetBits.loop fuel mask count = count + rank mask fuel := by
  induction fuel generalizing mask count with
  | zero => rfl
  | succ fuel ih =>
    by_cases hz : mask = 0
    · rw [countSetBits.loop, if_pos hz, hz, rank_zero_word, Nat.add_zero]
    · have hbit : (mask &&& 1).toNat = (mask.getLsbD 0).toNat := by
        rw [show (1 : BitVec 64) = BitVec.twoPow 64 0 from rfl, BitVec.and_twoPow]
        cases mask.getLsbD 0 <;> rfl
      rw [countSetBits.loop, if_neg hz, ih, hbit, rank_succ_shift, Nat.add_assoc]

theorem maskBits_eq_rank (mask : BitVec (maxHWThreads wide)) :
    maskBits mask = rank mask (maxHWThreads wide) := by
  rw [maskBits, countSetBits, countSetBits_loop, Nat.zero_add, rank,
    BitVec.cpopNatRec_setWidth_of_le mask (Nat.le_refl 64)]
  exact rank_of_le mask (maxHWThreads_le wide)

/-- From any position at or below a set bit the scan finds it, if the rank says so and the fuel
reaches it. -/
theorem scan_finds {mask : BitVec (maxHWThreads wide)} {fuel i k hwThread : Nat}
    (hk : mask.getLsbD k = true) (hik : i ≤ k) (hfuel : k < i + fuel)
    (hrank : rank mask k = rank mask i + hwThread) :
    scan mask fuel (BitVec.twoPow _ i) hwThread = some (BitVec.twoPow _ k) := by
  have hkw : k < maxHWThreads wide := BitVec.lt_of_getLsbD hk
  induction fuel generalizing i hwThread with
  | zero => omega
  | succ fuel ih =>
    have hprobe := and_twoPow_ne_zero (v := mask) (Nat.lt_of_le_of_lt hik hkw)
    by_cases hset : mask.getLsbD i = true
    · rw [scan, if_pos (hprobe.mpr hset)]
      rcases Nat.eq_or_lt_of_le hik with rfl | hlt
      · rw [if_pos (by omega)]
      · have hless := rank_lt_of_set hset hlt
        have hnext : rank mask (i + 1) = rank mask i + 1 := by rw [rank_succ, hset, Bool.toNat_true]
        rw [if_neg (by omega), twoPow_shiftLeft_one]
        exact ih hlt (by omega) (by omega)
    · have hne : i ≠ k := fun he => hset (he ▸ hk)
      have hnext : rank mask (i + 1) = rank mask i := by
        rw [rank_succ, Bool.eq_false_iff.mpr hset, Bool.toNat_false, Nat.add_zero]
      rw [scan, if_neg (fun h => hset (hprobe.mp h)), twoPow_shiftLeft_one]
      exact ih (by omega) (by omega) (by omega)

/-- A record is stored inside the array, or no mask changes. -/
theorem addRecord_cases {s' : State wide} {info : ProcessorInfo wide}
    (h : addRecord s info = some s') :
    s'.numPhysicalCores = s.numPhysicalCores ∧ s'.physicalCoreMasks = s.physicalCoreMasks ∨
    s.numPhysicalCores < maxHWThreads wide ∧ s'.numPhysicalCores = s.numPhysicalCores + 1 ∧
      s'.physicalCoreMasks =
        Function.update s.physicalCoreMasks s.numPhysicalCores info.processorMask := by
  simp only [addRecord] at h
  by_cases hcore : info.isProcessorCore = true
  · rw [if_pos hcore] at h
    by_cases hzero : maskBits info.processorMask = 0
    · rw [if_pos hzero] at h
      cases h
      exact .inl ⟨rfl, rfl⟩
    · rw [if_neg hzero] at h
      by_cases hfull : s.numHWThreads + maskBits info.processorMask > maxHWThreads wide
      · rw [if_pos hfull] at h
        cases h
        exact .inl ⟨rfl, rfl⟩
      · rw [if_neg hfull] at h
        obtain ⟨hassert, h⟩ := Option.ite_none_right_eq_some.mp h
        cases h
        exact .inr ⟨by omega, rfl, rfl⟩
  · rw [if_neg hcore] at h
    cases h
    exact .inl ⟨rfl, rfl⟩

/-- Nothing has been written outside the array. -/
def Inside (s : State wide) : Prop := ∀ i, maxHWThreads wide ≤ i → s.physicalCoreMasks i = 0

theorem addRecord_outside {s' : State wide} {info : ProcessorInfo wide}
    (h : addRecord s info = some s') (i : Nat) (hi : maxHWThreads wide ≤ i) :
    s'.physicalCoreMasks i = s.physicalCoreMasks i := by
  rcases addRecord_cases h with ⟨_, hmasks⟩ | ⟨hlt, _, hmasks⟩
  · rw [hmasks]
  · rw [hmasks, Function.update_of_ne (by omega)]

theorem addRecords_inside {s' : State wide} {infos : List (ProcessorInfo wide)}
    (hs : Inside s) (h : infos.foldlM addRecord s = some s') : Inside s' := by
  induction infos generalizing s with
  | nil =>
    cases h
    exact hs
  | cons info infos ih =>
    rw [List.foldlM_cons] at h
    obtain ⟨t, ht, hrest⟩ := Option.bind_eq_some_iff.mp h
    exact ih (fun i hi => (addRecord_outside ht i hi).trans (hs i hi)) hrest

theorem finish_inside {s' : State wide} (hs : Inside s) (h : finish s = some s') : Inside s' := by
  have hpos : 0 < maxHWThreads wide := by cases wide <;> decide
  obtain ⟨_, h⟩ := Option.ite_none_right_eq_some.mp h
  by_cases hzero : s.numHWThreads = 0
  · rw [if_pos hzero] at h
    cases h
    intro i hi
    show Function.update s.physicalCoreMasks 0 1 i = 0
    rw [Function.update_of_ne (by omega)]
    exact hs i hi
  · rw [if_neg hzero] at h
    cases h
    exact hs

/-- The threads of a core, which the scan tells apart by the rank of their bits. -/
theorem selects {core : Nat} (hcore : core < s.numPhysicalCores) :
    ∃ n, (affinity s).numHWThreadsForCore core = some n ∧
      n.toNat = rank (s.physicalCoreMasks core) (maxHWThreads wide) ∧
      ∀ k, (s.physicalCoreMasks core).getLsbD k = true →
        setAffinity s (maxHWThreads wide) core (rank (s.physicalCoreMasks core) k) =
          some (BitVec.twoPow _ k) := by
  have hthreads : (affinity s).numHWThreadsForCore core =
      some (BitVec.ofNat 32 (maskBits (s.physicalCoreMasks core))) := if_pos hcore
  have hbits : (BitVec.ofNat 32 (maskBits (s.physicalCoreMasks core))).toNat =
      rank (s.physicalCoreMasks core) (maxHWThreads wide) := by
    rw [← maskBits_eq_rank]
    apply toNat_ofNat_of_lt
    have hle : maskBits (s.physicalCoreMasks core) ≤ maxHWThreads wide := by
      rw [maskBits_eq_rank]
      exact BitVec.cpopNatRec_zero_le _ _
    have hmax := maxHWThreads_le wide
    omega
  refine ⟨_, hthreads, hbits, ?_⟩
  intro k hk
  have hkw : k < maxHWThreads wide := BitVec.lt_of_getLsbD hk
  rw [setAffinity, hthreads, Option.bind_some, hbits, if_pos (rank_lt_of_set hk hkw)]
  rw [show (1 : BitVec (maxHWThreads wide)) = BitVec.twoPow _ 0 from BitVec.twoPow_zero.symm]
  exact scan_finds (i := 0) hk (Nat.zero_le k) (by omega) (by rw [rank_zero, Nat.zero_add])

/-- The object that the constructor makes. -/
theorem init_spec (records : Option (List (ProcessorInfo wide))) :
    ∃ s, init records = some s ∧ Inv s ∧ Inside s := by
  cases records with
  | none =>
    obtain ⟨s, hs, hinv, _⟩ := (inv_start wide false).finish
    exact ⟨s, hs, hinv, finish_inside (fun _ _ => rfl) hs⟩
  | some infos =>
    obtain ⟨t, ht, hinv⟩ := (inv_start wide true).addRecords infos
    obtain ⟨s, hs, hinv', _⟩ := hinv.finish
    exact ⟨s, by rw [init, ht, Option.bind_some, hs], hinv',
      finish_inside (addRecords_inside (fun _ _ => rfl) ht) hs⟩

/-- For all records: the constructor's assertions hold and it stores masks inside the array only,
after every record and at its end. Then every core has a mask that is not zero, and for every
thread of the core the scan ends, with a probe inside the mask, at the set bit that has as many
set bits below it. So each set bit is hit by exactly one thread. -/
theorem setAffinity_selects (records : Option (List (ProcessorInfo wide))) :
    ∃ s, init records = some s ∧
      (∀ pre info post, records = some (pre ++ info :: post) →
        ∃ t t', pre.foldlM addRecord ⟨true, 0, 0, fun _ => 0⟩ = some t ∧
          addRecord t info = some t' ∧
          ∀ i, maxHWThreads wide ≤ i → t'.physicalCoreMasks i = t.physicalCoreMasks i) ∧
      (∀ i, maxHWThreads wide ≤ i → s.physicalCoreMasks i = 0) ∧
      ∀ core < (affinity s).numPhysicalCores.toNat, s.physicalCoreMasks core ≠ 0 ∧
        ∃ n, (affinity s).numHWThreadsForCore core = some n ∧
          (∀ hwThread < n.toNat, ∃ k < maxHWThreads wide,
            setAffinity s (maxHWThreads wide) core hwThread = some (BitVec.twoPow _ k) ∧
            (s.physicalCoreMasks core).getLsbD k = true ∧
            rank (s.physicalCoreMasks core) k = hwThread) ∧
          ∀ k, (s.physicalCoreMasks core).getLsbD k = true →
            ∃! hwThread, hwThread < n.toNat ∧
              setAffinity s (maxHWThreads wide) core hwThread = some (BitVec.twoPow _ k) := by
  obtain ⟨s, hs, hinv, hin⟩ := init_spec records
  refine ⟨s, hs, ?_, hin, ?_⟩
  · intro pre info post _
    obtain ⟨t, ht, htinv⟩ := (inv_start wide true).addRecords pre
    obtain ⟨t', ht', _⟩ := htinv.addRecord info
    exact ⟨t, t', ht, ht', addRecord_outside ht'⟩
  · intro core hc
    have hcount : (affinity s).numPhysicalCores.toNat = s.numPhysicalCores := by
      have hle := hinv.le
      have hbound := hinv.bound
      have hmax := maxHWThreads_le wide
      exact toNat_ofNat_of_lt (by omega)
    rw [hcount] at hc
    obtain ⟨n, hn, hrank, hselects⟩ := selects hc
    have hpos : 0 < rank (s.physicalCoreMasks core) (maxHWThreads wide) := by
      rw [← maskBits_eq_rank]
      exact hinv.threads core hc
    refine ⟨ne_zero_of_rank_pos hpos, n, hn, ?_, ?_⟩
    · intro hwThread hhw
      obtain ⟨k, hk, hset, hkrank⟩ := exists_rank_eq _ (hrank ▸ hhw)
      exact ⟨k, hk, hkrank ▸ hselects k hset, hset, hkrank⟩
    · intro k hset
      have hk : k < maxHWThreads wide := BitVec.lt_of_getLsbD hset
      refine ⟨rank (s.physicalCoreMasks core) k, ⟨?_, hselects k hset⟩, ?_⟩
      · rw [hrank]
        exact rank_lt_of_set hset hk
      · intro hwThread hhw
        obtain ⟨j, hj, hjset, hjrank⟩ := exists_rank_eq _ (hrank ▸ hhw.1)
        have hsame := (hselects j hjset).symm.trans (hjrank ▸ hhw.2)
        rw [← hjrank, twoPow_inj hj hk (Option.some.inj hsame)]

end Turf.Affinity.Win32
