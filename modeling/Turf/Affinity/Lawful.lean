import Mathlib.Algebra.Order.BigOperators.Group.List
import Mathlib.Algebra.Order.Group.Nat
import Turf.Affinity.Collected

/-!
# The law of the interface

An object with the interface has a core, every core has a hardware thread, and if the
object is accurate the threads of the cores add up to all threads.
-/
namespace Turf.Affinity

open Turf.Lib.Grouping

/-- The values of `getNumHWThreadsForCore` for the cores that there are. -/
def Interface.threadCounts (x : Interface) : List Nat :=
  (List.range x.numPhysicalCores.toNat).map fun c => ((x.numHWThreadsForCore c).getD 0).toNat

structure Interface.Lawful (x : Interface) : Prop where
  cores : 0 < x.numPhysicalCores.toNat
  threads : ∀ c < x.numPhysicalCores.toNat, ∃ k, x.numHWThreadsForCore c = some k ∧ 0 < k.toNat
  total : x.isAccurate = true → x.threadCounts.sum = x.numHWThreads.toNat

/-! ## Mach -/

namespace Mach

variable {logicalcpu physicalcpu : Option S32}

/-- The two counts, where both queries succeed and both counts are positive. -/
def counts (logicalcpu physicalcpu : Option S32) : Option (Nat × Nat) :=
  logicalcpu.bind fun l => physicalcpu.bind fun p =>
    if 0 < l.toInt ∧ 0 < p.toInt then some (l.toNat, p.toNat) else none

theorem toNat_pos_of_toInt_pos {x : S32} (h : 0 < x.toInt) : 0 < x.toNat := by
  by_contra hzero
  have hx : x = 0#32 := BitVec.eq_of_toNat_eq (by rw [BitVec.toNat_ofNat]; omega)
  rw [hx] at h
  exact absurd h (by decide)

theorem threadCounts_eq (s : State) :
    (affinity s).threadCounts = List.replicate s.numPhysicalCores.toNat s.hwThreadsPerCore.toNat := by
  apply List.ext_getElem
  · rw [Interface.threadCounts, List.length_map, List.length_range, List.length_replicate]
    rfl
  · intro i hi hi'
    rw [List.length_replicate] at hi'
    rw [List.getElem_replicate]
    simp [Interface.threadCounts, affinity, hi']

theorem lawful_of_state {s : State} (hcores : 0 < s.numPhysicalCores.toNat)
    (hthreads : 0 < s.hwThreadsPerCore.toNat) :
    (affinity s).Lawful ↔
      (s.isAccurate = true →
        s.numPhysicalCores.toNat * s.hwThreadsPerCore.toNat = s.numHWThreads.toNat) := by
  have hsum : (affinity s).threadCounts.sum =
      s.numPhysicalCores.toNat * s.hwThreadsPerCore.toNat := by
    rw [threadCounts_eq, List.sum_replicate_nat]
  constructor
  · intro h haccurate
    rw [← hsum]
    exact h.total haccurate
  · intro htotal
    refine ⟨hcores, ?_, ?_⟩
    · intro c hc
      exact ⟨s.hwThreadsPerCore, if_pos hc, hthreads⟩
    · intro haccurate
      rw [hsum]
      exact htotal haccurate

theorem init_of_none (h : counts logicalcpu physicalcpu = none) :
    (init logicalcpu physicalcpu).isAccurate = false ∧
      (init logicalcpu physicalcpu).numPhysicalCores = 1 ∧
      (init logicalcpu physicalcpu).hwThreadsPerCore = 1 := by
  cases logicalcpu with
  | none => exact ⟨rfl, rfl, rfl⟩
  | some l =>
    by_cases hl : 0 < l.toInt
    · cases physicalcpu with
      | none => simp [init, hl]
      | some p =>
        have hp : ¬ 0 < p.toInt := by
          intro hp
          rw [counts, Option.bind_some, Option.bind_some, if_pos ⟨hl, hp⟩] at h
          cases h
        simp [init, hl, hp]
    · simp [init, hl]

theorem init_of_some {l p : S32} (hl : 0 < l.toInt) (hp : 0 < p.toInt) :
    init (some l) (some p) = if l / p < 1 then ⟨false, l, p, 1⟩ else ⟨true, l, p, l / p⟩ := by
  simp only [init, if_pos hl, if_pos hp]

/-- The law holds where a query fails or gives no positive count, and otherwise unless the logical
processors are at least as many as the cores and no multiple of them. -/
theorem lawful_iff (logicalcpu physicalcpu : Option S32) :
    (affinity (init logicalcpu physicalcpu)).Lawful ↔
      ∀ l p, counts logicalcpu physicalcpu = some (l, p) → p ≤ l → p ∣ l := by
  cases hcounts : counts logicalcpu physicalcpu with
  | none =>
    obtain ⟨haccurate, hcores, hthreads⟩ := init_of_none hcounts
    rw [lawful_of_state (by rw [hcores]; decide) (by rw [hthreads]; decide), haccurate]
    constructor
    · intro _ l p h
      cases h
    · intro _ h
      cases h
  | some lp =>
    obtain ⟨l, hlogical, h⟩ := Option.bind_eq_some_iff.mp hcounts
    obtain ⟨p, hphysical, h⟩ := Option.bind_eq_some_iff.mp h
    obtain ⟨⟨hl, hp⟩, heq⟩ := Option.ite_none_right_eq_some.mp h
    obtain rfl := Option.some.inj heq
    have hppos := toNat_pos_of_toInt_pos hp
    rw [hlogical, hphysical, init_of_some hl hp]
    have hless : l / p < 1 ↔ ¬ p.toNat ≤ l.toNat := by
      rw [BitVec.lt_def, BitVec.toNat_udiv]
      show l.toNat / p.toNat < 1 ↔ _
      rw [Nat.div_lt_iff_lt_mul hppos]
      omega
    by_cases hle : p.toNat ≤ l.toNat
    · have hdiv : 0 < (l / p).toNat := by
        rw [BitVec.toNat_udiv]
        exact Nat.div_pos hle hppos
      rw [if_neg (by rw [hless]; exact fun h => h hle), lawful_of_state hppos hdiv,
        BitVec.toNat_udiv]
      constructor
      · intro htotal l' p' heq _
        cases heq
        exact ⟨_, (htotal rfl).symm⟩
      · intro h _
        exact Nat.mul_div_cancel' (h _ _ rfl hle)
    · rw [if_pos (hless.mpr hle), lawful_of_state (s := ⟨false, l, p, 1⟩) hppos Nat.one_pos]
      constructor
      · intro _ l' p' heq hle'
        cases heq
        exact absurd hle' hle
      · intro _ h
        cases h

end Mach

/-! ## Win32 -/

namespace Win32

variable {wide : Bool} {s : State wide}

/-- What holds after every record. -/
structure Inv (s : State wide) : Prop where
  le : s.numPhysicalCores ≤ s.numHWThreads
  bound : s.numHWThreads ≤ maxHWThreads wide
  threads : ∀ c < s.numPhysicalCores, 0 < maskBits (s.physicalCoreMasks c)
  total : ((List.range s.numPhysicalCores).map fun c => maskBits (s.physicalCoreMasks c)).sum =
    s.numHWThreads

theorem inv_start (wide isAccurate : Bool) : Inv (⟨isAccurate, 0, 0, fun _ => 0⟩ : State wide) :=
  ⟨Nat.le_refl 0, Nat.zero_le _, fun _ h => absurd h (Nat.not_lt_zero _), rfl⟩

theorem Inv.inaccurate (h : Inv s) : Inv { s with isAccurate := false } :=
  ⟨h.le, h.bound, h.threads, h.total⟩

/-- A core with at least one thread, whose threads still fit. -/
theorem Inv.record (h : Inv s) (mask : BitVec (maxHWThreads wide)) (hpos : 0 < maskBits mask)
    (hfits : s.numHWThreads + maskBits mask ≤ maxHWThreads wide) :
    Inv { s with
      physicalCoreMasks := Function.update s.physicalCoreMasks s.numPhysicalCores mask
      numPhysicalCores := s.numPhysicalCores + 1
      numHWThreads := s.numHWThreads + maskBits mask } where
  le := by
    have hle := h.le
    show s.numPhysicalCores + 1 ≤ s.numHWThreads + maskBits mask
    omega
  bound := hfits
  threads c hc := by
    show 0 < maskBits (Function.update s.physicalCoreMasks s.numPhysicalCores mask c)
    by_cases heq : c = s.numPhysicalCores
    · rw [heq, Function.update_self]
      exact hpos
    · rw [Function.update_of_ne heq]
      have hlt : c < s.numPhysicalCores + 1 := hc
      exact h.threads c (by omega)
  total := by
    show ((List.range (s.numPhysicalCores + 1)).map fun c =>
      maskBits (Function.update s.physicalCoreMasks s.numPhysicalCores mask c)).sum =
        s.numHWThreads + maskBits mask
    rw [List.range_succ, List.map_append, List.sum_append_nat, List.map_singleton,
      List.sum_singleton, Function.update_self, ← h.total]
    congr 2
    apply List.map_congr_left
    intro c hc
    rw [Function.update_of_ne (Nat.ne_of_lt (List.mem_range.mp hc))]

/-- No record fails the assertion. -/
theorem Inv.addRecord (h : Inv s) (info : ProcessorInfo wide) :
    ∃ s', addRecord s info = some s' ∧ Inv s' := by
  unfold Win32.addRecord
  by_cases hcore : info.isProcessorCore = true
  · rw [if_pos hcore]
    by_cases hzero : maskBits info.processorMask = 0
    · exact ⟨_, if_pos hzero, h.inaccurate⟩
    · by_cases hfits : s.numHWThreads + maskBits info.processorMask > maxHWThreads wide
      · exact ⟨_, (if_neg hzero).trans (if_pos hfits), h.inaccurate⟩
      · have hassert : s.numPhysicalCores ≤ s.numHWThreads ∧ s.numHWThreads < maxHWThreads wide :=
          ⟨h.le, by omega⟩
        exact ⟨_, (if_neg hzero).trans ((if_neg hfits).trans (if_pos hassert)),
          h.record info.processorMask (by omega) (by omega)⟩
  · exact ⟨s, if_neg hcore, h⟩

theorem Inv.addRecords (h : Inv s) (infos : List (ProcessorInfo wide)) :
    ∃ s', infos.foldlM Win32.addRecord s = some s' ∧ Inv s' := by
  induction infos generalizing s with
  | nil => exact ⟨s, rfl, h⟩
  | cons info infos ih =>
    obtain ⟨t, ht, hinv⟩ := h.addRecord info
    obtain ⟨s', hs', hinv'⟩ := ih hinv
    exact ⟨s', by rw [List.foldlM_cons, ht]; exact hs', hinv'⟩

theorem maskBits_one : maskBits (1 : BitVec (maxHWThreads wide)) = 1 := by
  cases wide <;> decide

theorem maxHWThreads_le (wide : Bool) : maxHWThreads wide ≤ 64 := by cases wide <;> decide

/-- A core less than its threads is missing. -/
theorem Inv.finish (h : Inv s) :
    ∃ s', finish s = some s' ∧ Inv s' ∧ 0 < s'.numPhysicalCores := by
  unfold Win32.finish
  rw [if_pos h.le]
  by_cases hzero : s.numHWThreads = 0
  · refine ⟨_, if_pos hzero, ?_, Nat.one_pos⟩
    constructor
    · exact Nat.le_refl 1
    · show 1 ≤ maxHWThreads wide
      cases wide <;> decide
    · intro c hc
      obtain rfl : c = 0 := Nat.lt_one_iff.mp hc
      show 0 < maskBits (Function.update s.physicalCoreMasks 0 1 0)
      rw [Function.update_self, maskBits_one]
      decide
    · show ((List.range 1).map fun c =>
        maskBits (Function.update s.physicalCoreMasks 0 1 c)).sum = 1
      rw [List.range_one, List.map_singleton, List.sum_singleton, Function.update_self,
        maskBits_one]
  · refine ⟨s, if_neg hzero, h, ?_⟩
    by_contra hnone
    have htotal := h.total
    rw [show s.numPhysicalCores = 0 by omega] at htotal
    exact hzero htotal.symm

theorem Inv.lawful (h : Inv s) (hcores : 0 < s.numPhysicalCores) : (affinity s).Lawful := by
  have hmax := maxHWThreads_le wide
  have hle := h.le
  have hbound := h.bound
  have hcount : (affinity s).numPhysicalCores.toNat = s.numPhysicalCores :=
    toNat_ofNat_of_lt (by omega)
  have htotal := h.total
  have hmask : ∀ c < s.numPhysicalCores, maskBits (s.physicalCoreMasks c) < 2 ^ 32 := by
    intro c hc
    have hmem : maskBits (s.physicalCoreMasks c) ∈
        (List.range s.numPhysicalCores).map fun c => maskBits (s.physicalCoreMasks c) :=
      List.mem_map_of_mem (List.mem_range.mpr hc)
    have hle := List.le_sum_of_mem hmem
    omega
  constructor
  · rw [hcount]
    exact hcores
  · intro c hc
    rw [hcount] at hc
    refine ⟨_, if_pos hc, ?_⟩
    rw [toNat_ofNat_of_lt (hmask c hc)]
    exact h.threads c hc
  · intro _
    show _ = (BitVec.ofNat 32 s.numHWThreads).toNat
    rw [toNat_ofNat_of_lt (by omega), ← htotal, Interface.threadCounts, hcount]
    congr 1
    apply List.map_congr_left
    intro c hc
    have hlt := List.mem_range.mp hc
    show ((if c < s.numPhysicalCores then
      some (BitVec.ofNat 32 (maskBits (s.physicalCoreMasks c))) else none).getD 0).toNat = _
    rw [if_pos hlt, Option.getD_some, toNat_ofNat_of_lt (hmask c hlt)]

/-- The law holds whatever the records are. -/
theorem init_lawful (records : Option (List (ProcessorInfo wide))) :
    ∃ s, init records = some s ∧ (affinity s).Lawful := by
  cases records with
  | none =>
    obtain ⟨s, hs, hinv, hcores⟩ := (inv_start wide false).finish
    exact ⟨s, hs, hinv.lawful hcores⟩
  | some infos =>
    obtain ⟨t, ht, hinv⟩ := (inv_start wide true).addRecords infos
    obtain ⟨s, hs, hinv', hcores⟩ := hinv.finish
    exact ⟨s, by rw [init, ht, Option.bind_some, hs], hinv'.lawful hcores⟩

end Win32

/-! ## Linux and FreeBSD -/

variable {es : List (CoreID × U32)} {keys : List CoreID} {index : CoreID → Option U32}
  {a : Cores}

/-- The object of a finished constructor. -/
def Cores.interface (r : Bool × Cores) : Interface := r.2.affinity r.1

theorem range_map_getElem? {α β : Type*} (l : List α) (f : α → β) (d : β) :
    ((List.range l.length).map fun i => (l[i]?.map f).getD d) = l.map f := by
  apply List.ext_getElem
  · rw [List.length_map, List.length_map, List.length_range]
  · intro i hi hi'
    rw [List.length_map] at hi'
    simp [hi']

theorem Cores.lawful_iff (isAccurate : Bool) (a : Cores) (hlen : a.coreIndexToInfo.length < 2 ^ 32) :
    (a.affinity isAccurate).Lawful ↔
      a.coreIndexToInfo ≠ [] ∧ (∀ n ∈ a.coreIndexToInfo.map List.length, n % 2 ^ 32 ≠ 0) ∧
        (isAccurate = true →
          ((a.coreIndexToInfo.map List.length).map (· % 2 ^ 32)).sum = a.numHWThreads.toNat) := by
  have hcount : (a.affinity isAccurate).numPhysicalCores.toNat = a.coreIndexToInfo.length :=
    toNat_ofNat_of_lt hlen
  have hcounts : (a.affinity isAccurate).threadCounts =
      (a.coreIndexToInfo.map List.length).map (· % 2 ^ 32) := by
    rw [Interface.threadCounts, hcount, List.map_map,
      ← range_map_getElem? a.coreIndexToInfo ((· % 2 ^ 32) ∘ List.length) 0]
    apply List.map_congr_left
    intro c _
    show ((a.coreIndexToInfo[c]?.map fun info => BitVec.ofNat 32 info.length).getD 0).toNat = _
    cases a.coreIndexToInfo[c]? with
    | none => rfl
    | some info => exact BitVec.toNat_ofNat info.length 32
  constructor
  · intro h
    refine ⟨?_, ?_, fun haccurate => hcounts ▸ h.total haccurate⟩
    · intro hnil
      have hpos := h.cores
      rw [hcount, hnil] at hpos
      exact absurd hpos (by decide)
    · intro n hn
      obtain ⟨info, hinfo, rfl⟩ := List.mem_map.mp hn
      obtain ⟨c, hc, heq⟩ := List.mem_iff_getElem.mp hinfo
      obtain ⟨k, hk, hpos⟩ := h.threads c (by rw [hcount]; exact hc)
      have hvalue : some (BitVec.ofNat 32 info.length) = some k := by
        rw [← hk]
        show _ = a.coreIndexToInfo[c]?.map fun info => BitVec.ofNat 32 info.length
        rw [List.getElem?_eq_getElem hc, heq]
        rfl
      rw [← Option.some.inj hvalue, BitVec.toNat_ofNat] at hpos
      omega
  · rintro ⟨hne, hthreads, htotal⟩
    refine ⟨?_, ?_, fun haccurate => hcounts ▸ htotal haccurate⟩
    · rw [hcount]
      exact List.length_pos_of_ne_nil hne
    · intro c hc
      rw [hcount] at hc
      refine ⟨BitVec.ofNat 32 a.coreIndexToInfo[c].length, ?_, ?_⟩
      · show a.coreIndexToInfo[c]?.map (fun info => BitVec.ofNat 32 info.length) = _
        rw [List.getElem?_eq_getElem hc]
        rfl
      · rw [BitVec.toNat_ofNat]
        have hmod := hthreads _ (List.mem_map_of_mem (List.getElem_mem hc))
        omega

/-- The counters do not wrap around on the processors of these cores: there are fewer than
`2 ^ 32` cores; if the processors are a multiple of `2 ^ 32`, those of the first core and one
more are not; otherwise those of no core are, and what is left of them modulo `2 ^ 32` adds up
to less. -/
def Counted (ids : List CoreID) : Prop :=
  ids.toFinset.card < 2 ^ 32 ∧
    if ids.length % 2 ^ 32 = 0 then
      ∀ id, ids.head? = some id → (ids.count id + 1) % 2 ^ 32 ≠ 0
    else
      (∀ id ∈ ids, ids.count id % 2 ^ 32 ≠ 0) ∧
        (ids.dedup.map fun id => ids.count id % 2 ^ 32).sum < 2 ^ 32

theorem numHWThreads_pos_iff (h : Collects es keys index a) :
    a.numHWThreads > 0 ↔ es.length % 2 ^ 32 ≠ 0 := by
  rw [gt_iff_lt, BitVec.lt_def, h.count, BitVec.toNat_ofNat]
  exact Nat.pos_iff_ne_zero

theorem resize_one_modify (l : List (List U32)) :
    (l.take 1 ++ List.replicate (1 - l.length) []).modify 0 (· ++ [0]) =
      [l.head?.getD [] ++ [0]] := by
  cases l with
  | nil => rfl
  | cons x l => simp

/-- No processors are counted: one core with one processor more than the first has. -/
theorem lawful_of_zero (h : Collects es keys index a) (hzero : es.length % 2 ^ 32 = 0) :
    (Cores.interface a.finish).Lawful ↔
      ∀ id, (es.map Prod.fst).head? = some id →
        ((es.map Prod.fst).count id + 1) % 2 ^ 32 ≠ 0 := by
  have hnot : ¬ a.numHWThreads > 0 := fun hpos => (numHWThreads_pos_iff h).mp hpos hzero
  have hfinish : a.finish = (false, ⟨[a.coreIndexToInfo.head?.getD [] ++ [0]], 1⟩) := by
    rw [Cores.finish, if_neg hnot, ← resize_one_modify]
    rfl
  have hsize : (a.coreIndexToInfo.head?.getD [] ++ [(0 : U32)]).length =
      (((es.map Prod.fst).head?.map fun id => (es.map Prod.fst).count id).getD 0) + 1 := by
    have hfirst := h.grouped.getElem?_length 0
    rw [← List.head?_eq_getElem?, ← List.head?_eq_getElem?, h.grouped.head] at hfirst
    rw [← hfirst, List.length_append, List.length_singleton]
    cases a.coreIndexToInfo.head? <;> rfl
  rw [hfinish, Cores.interface, Cores.lawful_iff _ _ (Nat.one_lt_two_pow (by decide))]
  simp only [List.map_singleton, List.mem_singleton, forall_eq, hsize]
  cases hhead : (es.map Prod.fst).head? with
  | none => simp
  | some id => simp

/-- The processors are counted. -/
theorem lawful_of_pos (h : Collects es keys index a) (hpos : es.length % 2 ^ 32 ≠ 0) :
    (Cores.interface a.finish).Lawful ↔
      (∀ id ∈ es.map Prod.fst, (es.map Prod.fst).count id % 2 ^ 32 ≠ 0) ∧
        ((es.map Prod.fst).dedup.map fun id => (es.map Prod.fst).count id % 2 ^ 32).sum <
          2 ^ 32 := by
  have hfinish : a.finish = (true, a) := if_pos ((numHWThreads_pos_iff h).mpr hpos)
  have hlen : a.coreIndexToInfo.length < 2 ^ 32 := by
    rw [h.grouped.length_eq]
    exact h.bound
  have hsizes := h.grouped.sizes_perm
  have htotal : ((es.map Prod.fst).dedup.map fun id => (es.map Prod.fst).count id).sum =
      es.length := by
    rw [List.sum_map_count_dedup_eq_length, List.length_map]
  have hmods := hsizes.map (· % 2 ^ 32)
  rw [List.map_map (f := fun id => (es.map Prod.fst).count id)] at hmods
  have hne : a.coreIndexToInfo ≠ [] := by
    intro hnil
    rw [hnil] at hsizes
    rw [← htotal, ← hsizes.sum_eq] at hpos
    exact hpos rfl
  rw [hfinish, Cores.interface, Cores.lawful_iff _ _ hlen, hmods.sum_eq, h.count,
    BitVec.toNat_ofNat]
  have hall : (∀ n ∈ a.coreIndexToInfo.map List.length, n % 2 ^ 32 ≠ 0) ↔
      ∀ id ∈ es.map Prod.fst, (es.map Prod.fst).count id % 2 ^ 32 ≠ 0 := by
    constructor
    · intro hn id hid
      apply hn
      rw [hsizes.mem_iff]
      exact List.mem_map_of_mem (List.mem_dedup.mpr hid)
    · intro hid n hn
      rw [hsizes.mem_iff] at hn
      obtain ⟨id, hmem, rfl⟩ := List.mem_map.mp hn
      exact hid id (List.mem_dedup.mp hmem)
  have hsum : es.length % 2 ^ 32 =
      ((es.map Prod.fst).dedup.map fun id => (es.map Prod.fst).count id % 2 ^ 32).sum % 2 ^ 32 := by
    rw [← htotal, List.sum_nat_mod, List.map_map]
    rfl
  rw [hall, hsum]
  constructor
  · rintro ⟨-, hcount, heq⟩
    exact ⟨hcount, Nat.lt_of_le_of_lt (Nat.le_of_eq (heq rfl)) (Nat.mod_lt _ (by decide))⟩
  · rintro ⟨hcount, hlt⟩
    exact ⟨hne, hcount, fun _ => (Nat.mod_eq_of_lt hlt).symm⟩

theorem collect_lawful_iff (fs : List (S32 × CoreID)) :
    (∃ x, ((collect fs).map Cores.finish).map Cores.interface = some x ∧ x.Lawful) ↔
      Counted ((listed fs).map Prod.fst) := by
  by_cases hdistinct : distinct (listed fs) < 2 ^ 32
  · obtain ⟨index, a, hcollect, h⟩ := collect_some fs hdistinct
    have hlawful : (∃ x, ((collect fs).map Cores.finish).map Cores.interface = some x ∧ x.Lawful) ↔
        (Cores.interface a.finish).Lawful := by
      rw [hcollect, Option.map_some, Option.map_some]
      constructor
      · rintro ⟨x, hx, hlawful⟩
        rw [Option.some.inj hx]
        exact hlawful
      · intro hlawful
        exact ⟨_, rfl, hlawful⟩
    rw [hlawful, Counted, List.length_map]
    by_cases hzero : (listed fs).length % 2 ^ 32 = 0
    · rw [if_pos hzero, lawful_of_zero h hzero]
      exact ⟨fun hfirst => ⟨hdistinct, hfirst⟩, And.right⟩
    · rw [if_neg hzero, lawful_of_pos h hzero]
      exact ⟨fun hcounts => ⟨hdistinct, hcounts⟩, And.right⟩
  · constructor
    · rintro ⟨x, hx, -⟩
      rw [collect_none fs (by omega)] at hx
      cases hx
    · intro hcounted
      exact absurd hcounted.1 hdistinct

/-- The cores of the processors that the text lists, one for each processor. -/
def Linux.coreIDs (overflow : Int → S32) (text : Option (List Char)) : List CoreID :=
  match text with
  | none => []
  | some text => (listed (flushes (-1, .none) (attributes overflow text))).map Prod.fst

/-- The cores that CPUID identifies, one for each processor. -/
def FreeBSD.coreIDs (t : Levels) (probes : List (Option Cpuid)) : List CoreID :=
  (listed (flushes 0 t probes)).map Prod.fst

/-! ## All four -/

/-- What a platform answers to the constructor's query. -/
inductive Answer where
  | mach (logicalcpu physicalcpu : Option S32)
  | win32 (wide : Bool) (records : Option (List (Win32.ProcessorInfo wide)))
  | linux (overflow : Int → S32) (text : Option (List Char))
  | freeBSD (levels : FreeBSD.Levels) (probes : List (Option FreeBSD.Cpuid))

/-- The constructed object. There is none where an assertion fails or an index is out of range. -/
def construct : Answer → Option Interface
  | .mach logicalcpu physicalcpu => some (Mach.affinity (Mach.init logicalcpu physicalcpu))
  | .win32 _ records => (Win32.init records).map Win32.affinity
  | .linux overflow text => (Linux.init overflow text).map Cores.interface
  | .freeBSD levels probes => (FreeBSD.init levels probes).map Cores.interface

/-- The answers from which an object is constructed that keeps the law. -/
def Answer.Regular : Answer → Prop
  | .mach logicalcpu physicalcpu =>
    ∀ l p, Mach.counts logicalcpu physicalcpu = some (l, p) → p ≤ l → p ∣ l
  | .win32 _ _ => True
  | .linux overflow text => Counted (Linux.coreIDs overflow text)
  | .freeBSD levels probes => Counted (FreeBSD.coreIDs levels probes)

theorem lawful_iff_regular (answer : Answer) :
    (∃ x, construct answer = some x ∧ x.Lawful) ↔ answer.Regular := by
  cases answer with
  | mach logicalcpu physicalcpu =>
    rw [Answer.Regular, ← Mach.lawful_iff]
    constructor
    · rintro ⟨x, hx, hlawful⟩
      rw [Option.some.inj hx]
      exact hlawful
    · intro hlawful
      exact ⟨_, rfl, hlawful⟩
  | win32 wide records =>
    apply iff_of_true _ trivial
    obtain ⟨s, hs, hlawful⟩ := Win32.init_lawful records
    exact ⟨Win32.affinity s, by rw [construct, hs, Option.map_some], hlawful⟩
  | linux overflow text =>
    cases text with
    | none => exact collect_lawful_iff []
    | some text =>
      rw [construct, Linux.init_some]
      exact collect_lawful_iff _
  | freeBSD levels probes =>
    rw [construct, FreeBSD.init_eq]
    exact collect_lawful_iff _

/-- With seven logical processors on four cores each core has one thread, and the object is
accurate. -/
theorem mach_seven_four :
    ∃ x, construct (.mach (some 7) (some 4)) = some x ∧ x.isAccurate = true ∧
      x.numHWThreads = 7 ∧ x.threadCounts.sum = 4 ∧ ¬ x.Lawful := by
  refine ⟨_, rfl, by decide, by decide, by decide, fun h => ?_⟩
  exact absurd (h.total (by decide)) (by decide)

end Turf.Affinity
