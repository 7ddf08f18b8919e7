import Turf.Affinity.Model
import Turf.Lib.SetBits

/-!
# The fields of an APIC id on FreeBSD

`getTopology` builds the masks of the socket, core and thread fields from the shifts that CPUID
reports for the thread and core levels, and moves each field down by the trailing zeros of its
mask.
-/
namespace Turf.Affinity.FreeBSD

open Turf.Lib.SetBits

/-! ## The trailing zeros -/

theorem ctz_loop {fuel k : Nat} (v : U32) (hk : k ≤ fuel)
    (hv : ∀ i, i < 32 → v.getLsbD i = decide (i < k)) (hfit : k ≤ 32) : ctz.loop fuel v = k := by
  induction fuel generalizing v k with
  | zero => exact (Nat.le_zero.mp hk).symm
  | succ fuel ih =>
    cases k with
    | zero =>
      have hz : v = 0 := by
        apply BitVec.eq_of_getLsbD_eq
        intro i hi
        simp [hv i hi]
      rw [ctz.loop, if_pos hz]
    | succ k =>
      have hne : v ≠ 0 := by
        intro hz
        have hbit := hv 0 (by decide)
        rw [hz] at hbit
        simp at hbit
      have hshift : ∀ i, i < 32 → (v >>> 1).getLsbD i = decide (i < k) := by
        intro i hi
        rw [BitVec.getLsbD_ushiftRight]
        by_cases hlast : 1 + i < 32
        · rw [hv (1 + i) hlast]
          simp only [decide_eq_decide]
          omega
        · rw [BitVec.getLsbD_of_ge v _ (by omega)]
          exact (decide_eq_false (by omega)).symm
      rw [ctz.loop, if_neg hne, ih _ (by omega) hshift (by omega)]

theorem ctz_of_lowest {v : U32} {k : Nat} (h : Lowest v k) : ctz v = k := by
  have hk : k < 32 := BitVec.lt_of_getLsbD h.1
  have hne : v ≠ 0 := by
    intro hz
    rw [hz] at h
    simpa using h.1
  rw [ctz, if_neg hne]
  apply ctz_loop _ (by omega) _ (by omega)
  intro i hi
  rw [BitVec.getLsbD_ushiftRight, h.xor_pred (1 + i)]
  simp only [decide_eq_decide]
  omega

/-! ## The masks -/

/-- The shift count that a level's EAX gives. -/
def shiftCount (eax : U32) : Nat := (eax &&& 0x1f).toNat

theorem shiftCount_lt (eax : U32) : shiftCount eax < 32 := by
  have hle : (eax &&& 0x1f).toNat ≤ (0x1f : U32).toNat := by
    rw [BitVec.toNat_and]
    exact Nat.and_le_right
  exact Nat.lt_succ_of_le hle

theorem lowMask_bit (eax : U32) {i : Nat} (hi : i < 32) :
    (lowMask eax).getLsbD i = decide (i < shiftCount eax) := by
  have hmask : lowMask eax = ~~~(BitVec.allOnes 32 <<< shiftCount eax) := by
    rw [show BitVec.allOnes 32 = (-1 : U32) by decide]
    rfl
  have hsub : i - shiftCount eax < 32 := by omega
  rw [hmask, BitVec.getLsbD_not, BitVec.getLsbD_shiftLeft, BitVec.getLsbD_allOnes,
    decide_eq_true hi, decide_eq_true hsub]
  simp

theorem highMask_bit (eax : U32) {i : Nat} (hi : i < 32) :
    ((-1) ^^^ lowMask eax).getLsbD i = decide (shiftCount eax ≤ i) := by
  rw [show (-1 : U32) = BitVec.allOnes 32 by decide, BitVec.getLsbD_xor, BitVec.getLsbD_allOnes,
    decide_eq_true hi, lowMask_bit eax hi]
  by_cases h : i < shiftCount eax
  · simp [h]
  · simp [h, Nat.le_of_not_lt h]

/-- The scan ends before this sub-leaf. -/
def lastLevel (regs : Regs) : Prop :=
  (regs.eax = 0 ∧ regs.ebx = 0) ∨ (regs.ecx >>> 8) &&& 0xff = 0

instance (regs : Regs) : Decidable (lastLevel regs) := inferInstanceAs (Decidable (_ ∨ _))

/-- EAX of the last sub-leaf of a level that the scan meets, if any. -/
def reported (level : U32) : List Regs → Option U32
  | [] => none
  | regs :: rest =>
    if lastLevel regs then none
    else (reported level rest).or
      (if (regs.ecx >>> 8) &&& 0xff = level then some regs.eax else none)

theorem getD_map_or {α β : Type} (f : α → β) (a b : Option α) (d : β) :
    ((a.or b).map f).getD d = (a.map f).getD ((b.map f).getD d) := by
  cases a <;> rfl

theorem scanLevels_eq (t : Levels) (rs : List Regs) :
    scanLevels t rs =
      { thread := ((reported 1 rs).map fun eax => ⟨lowMask eax, true⟩).getD t.thread
        core := ((reported 2 rs).map fun eax => ⟨lowMask eax, true⟩).getD t.core
        socket := { t.socket with
          mask := ((reported 2 rs).map fun eax => (-1) ^^^ lowMask eax).getD t.socket.mask } } := by
  induction rs generalizing t with
  | nil => rfl
  | cons regs rest ih =>
    by_cases hlast : lastLevel regs
    · have hstop : scanLevels t (regs :: rest) = t := by
        unfold scanLevels
        by_cases hempty : regs.eax = 0 ∧ regs.ebx = 0
        · exact if_pos hempty
        · rw [if_neg hempty]
          exact if_pos (hlast.resolve_left hempty)
      rw [hstop]
      simp [reported, hlast]
    · have hempty : ¬ (regs.eax = 0 ∧ regs.ebx = 0) := fun h => hlast (.inl h)
      have hzero : ¬ (regs.ecx >>> 8) &&& 0xff = 0 := fun h => hlast (.inr h)
      simp only [reported, if_neg hlast, getD_map_or]
      unfold scanLevels
      rw [if_neg hempty]
      dsimp only
      rw [if_neg hzero]
      by_cases hthread : (regs.ecx >>> 8) &&& 0xff = 1
      · have hcore : ¬ (regs.ecx >>> 8) &&& 0xff = 2 := by
          rw [hthread]
          decide
        rw [if_pos hthread, if_pos hthread, if_neg hcore, ih]
        rfl
      · by_cases hcore : (regs.ecx >>> 8) &&& 0xff = 2
        · rw [if_neg hthread, if_neg hthread, if_pos hcore, if_pos hcore, ih]
          rfl
        · rw [if_neg hthread, if_neg hthread, if_neg hcore, if_neg hcore, ih]
          rfl

/-! ## The fields -/

/-- The static variables before the first call. -/
def unknown : Levels := ⟨⟨0, false⟩, ⟨0, false⟩, ⟨0, false⟩⟩

/-- A call that finds the masks already built only uses them. -/
theorem getTopology_reported {t : Levels} (ht : t.socket.reported = true) {answer : Cpuid}
    (hleaf : ¬ answer.maxLeaf < 0xb) :
    getTopology t (some answer) = (t, some (identify t answer.apicID)) := by
  simp only [getTopology, if_neg hleaf, if_pos ht]

/-- The masks have the bits below `low`, from there to `high` and from there on. -/
structure Divided (t : Levels) (low high : Nat) : Prop where
  thread : ∀ i, i < 32 → t.thread.mask.getLsbD i = decide (i < low)
  core : ∀ i, i < 32 → t.core.mask.getLsbD i = decide (low ≤ i ∧ i < high)
  socket : ∀ i, i < 32 → t.socket.mask.getLsbD i = decide (high ≤ i)

/-- Where the socket field begins: without a core level, where the thread field ends. -/
def socketShift (thread : U32) (core : Option U32) : Nat :=
  (core.map shiftCount).getD (shiftCount thread)

/-- The first call that succeeds. -/
theorem getTopology_unknown {answer : Cpuid} (hleaf : ¬ answer.maxLeaf < 0xb) {thread : U32}
    (ht : reported 1 answer.levels = some thread)
    (hc : ∀ core, reported 2 answer.levels = some core → shiftCount thread ≤ shiftCount core) :
    ∃ t, getTopology unknown (some answer) = (t, some (identify t answer.apicID)) ∧
      t.socket.reported = true ∧
      Divided t (shiftCount thread) (socketShift thread (reported 2 answer.levels)) := by
  have hsocket : ¬ unknown.socket.reported = true := by decide
  cases hcore : reported 2 answer.levels with
  | none =>
    refine ⟨⟨⟨(-1) ^^^ lowMask thread, true⟩, ⟨0, false⟩, ⟨lowMask thread, true⟩⟩, ?_, rfl,
      fun i => lowMask_bit thread, ?_, fun i => highMask_bit thread⟩
    · simp only [getTopology, if_neg hleaf, if_neg hsocket, scanLevels_eq, ht, hcore]
      rfl
    · intro i _
      have hnone : ¬ (shiftCount thread ≤ i ∧ i < shiftCount thread) := by omega
      exact (decide_eq_false hnone).symm ▸ BitVec.getLsbD_zero
  | some core =>
    refine ⟨⟨⟨(-1) ^^^ lowMask core, true⟩, ⟨lowMask core ^^^ lowMask thread, true⟩,
      ⟨lowMask thread, true⟩⟩, ?_, rfl, fun i => lowMask_bit thread, ?_,
      fun i => highMask_bit core⟩
    · simp only [getTopology, if_neg hleaf, if_neg hsocket, scanLevels_eq, ht, hcore]
      rfl
    · intro i hi
      have hle := hc core hcore
      show (lowMask core ^^^ lowMask thread).getLsbD i =
        decide (shiftCount thread ≤ i ∧ i < shiftCount core)
      rw [BitVec.getLsbD_xor, lowMask_bit core hi, lowMask_bit thread hi]
      by_cases h : i < shiftCount thread
      · simp [h, show i < shiftCount core by omega]
      · simp [h, Nat.le_of_not_lt h]

theorem ushiftRight_eq_iff {x y : U32} {k : Nat} :
    x >>> k = y >>> k ↔ ∀ i, i < 32 → k ≤ i → x.getLsbD i = y.getLsbD i := by
  constructor
  · intro h i _ hk
    have hbit := congrArg (fun v => v.getLsbD (i - k)) h
    simpa only [BitVec.getLsbD_ushiftRight, Nat.add_sub_cancel' hk] using hbit
  · intro h
    apply BitVec.eq_of_getLsbD_eq
    intro i _
    rw [BitVec.getLsbD_ushiftRight, BitVec.getLsbD_ushiftRight]
    by_cases hi : k + i < 32
    · exact h (k + i) hi (Nat.le_add_right k i)
    · rw [BitVec.getLsbD_of_ge x _ (by omega), BitVec.getLsbD_of_ge y _ (by omega)]

/-- Fields moved down by at most their trailing zeros agree where the mask is set. -/
theorem field_eq_iff {x y m : U32} {k : Nat}
    (hm : ∀ i, i < 32 → m.getLsbD i = true → k ≤ i) :
    (x &&& m) >>> k = (y &&& m) >>> k ↔
      ∀ i, i < 32 → m.getLsbD i = true → x.getLsbD i = y.getLsbD i := by
  rw [ushiftRight_eq_iff]
  constructor
  · intro h i hi hset
    have hbit := h i hi (hm i hi hset)
    simpa only [BitVec.getLsbD_and, hset, Bool.and_true] using hbit
  · intro h i hi _
    rw [BitVec.getLsbD_and, BitVec.getLsbD_and]
    cases hset : m.getLsbD i
    · rw [Bool.and_false, Bool.and_false]
    · rw [h i hi hset]

namespace Divided

variable {t : Levels} {low high : Nat}

/-- No bit is in two fields, and each is in one. -/
theorem partition (h : Divided t low high) (hle : low ≤ high) :
    t.socket.mask &&& t.core.mask = 0 ∧ t.socket.mask &&& t.thread.mask = 0 ∧
      t.core.mask &&& t.thread.mask = 0 ∧
      t.socket.mask ||| t.core.mask ||| t.thread.mask = -1 := by
  rw [show (-1 : U32) = BitVec.allOnes 32 by decide]
  refine ⟨?_, ?_, ?_, ?_⟩
  all_goals apply BitVec.eq_of_getLsbD_eq
  all_goals intro i hi
  all_goals have ht := h.thread i hi
  all_goals have hc := h.core i hi
  all_goals have hs := h.socket i hi
  · rw [BitVec.getLsbD_and, hc, hs]
    simp
    omega
  · rw [BitVec.getLsbD_and, ht, hs]
    simp
    omega
  · rw [BitVec.getLsbD_and, hc, ht]
    simp
    omega
  · rw [BitVec.getLsbD_or, BitVec.getLsbD_or, ht, hc, hs, BitVec.getLsbD_allOnes,
      decide_eq_true hi]
    rcases Nat.lt_or_ge i low with hlow | hlow
    · simp [hlow]
    · rcases Nat.lt_or_ge i high with hbelow | habove
      · simp [hlow, hbelow]
      · simp [habove]

theorem ctz_socket (h : Divided t low high) (hhigh : high < 32) : ctz t.socket.mask = high := by
  apply ctz_of_lowest
  constructor
  · rw [h.socket high hhigh, decide_eq_true (Nat.le_refl high)]
  · intro i hi
    rw [h.socket i (by omega), decide_eq_false (by omega)]

theorem ctz_core (h : Divided t low high) (hlt : low < high) (hhigh : high < 32) :
    ctz t.core.mask = low := by
  apply ctz_of_lowest
  constructor
  · rw [h.core low (by omega), decide_eq_true ⟨Nat.le_refl low, hlt⟩]
  · intro i hi
    rw [h.core i (by omega), decide_eq_false (by omega)]

/-- An empty core field is moved by 32. -/
theorem ctz_core_empty (h : Divided t low high) (hle : high ≤ low) : ctz t.core.mask = 32 := by
  have hzero : t.core.mask = 0 := by
    apply BitVec.eq_of_getLsbD_eq
    intro i hi
    rw [h.core i hi, decide_eq_false (by omega)]
    exact BitVec.getLsbD_zero.symm
  rw [ctz, if_pos hzero]

/-- Two ids belong to the same core exactly when they agree above the thread field. -/
theorem same_core (h : Divided t low high) (hle : low ≤ high) (hhigh : high < 32) (id id' : U32) :
    identify t id = identify t id' ↔ id >>> low = id' >>> low := by
  have hsocket : ∀ i, i < 32 → t.socket.mask.getLsbD i = true → ctz t.socket.mask ≤ i := by
    intro i hi hset
    rw [h.socket i hi] at hset
    rw [h.ctz_socket hhigh]
    exact of_decide_eq_true hset
  have hcore : ∀ i, i < 32 → t.core.mask.getLsbD i = true → ctz t.core.mask ≤ i := by
    intro i hi hset
    rw [h.core i hi] at hset
    have hbounds := of_decide_eq_true hset
    rw [h.ctz_core (by omega) hhigh]
    exact hbounds.1
  rw [identify, identify, CoreID.mk.injEq, field_eq_iff hsocket, field_eq_iff hcore,
    ushiftRight_eq_iff]
  constructor
  · intro ⟨hs, hc⟩ i hi hlow
    by_cases hihigh : high ≤ i
    · exact hs i hi (by rw [h.socket i hi, decide_eq_true hihigh])
    · exact hc i hi (by rw [h.core i hi, decide_eq_true ⟨hlow, by omega⟩])
  · intro hall
    constructor
    · intro i hi hset
      rw [h.socket i hi] at hset
      exact hall i hi (Nat.le_trans hle (of_decide_eq_true hset))
    · intro i hi hset
      rw [h.core i hi] at hset
      exact hall i hi (of_decide_eq_true hset).1

end Divided

/-- What the masks are for. A mask is built by one shift and its field moved down by another. -/
structure Separates (t : Levels) (shift : Nat) : Prop where
  building : ∀ eax, shiftCount eax < 32
  moving : ctz t.socket.mask < 32 ∧ ctz t.core.mask < 32
  partition : t.socket.mask &&& t.core.mask = 0 ∧ t.socket.mask &&& t.thread.mask = 0 ∧
    t.core.mask &&& t.thread.mask = 0 ∧ t.socket.mask ||| t.core.mask ||| t.thread.mask = -1
  same_core : ∀ id id', identify t id = identify t id' ↔ id >>> shift = id' >>> shift

/-- For every report with a thread level and, if any, a core level that is no smaller: the first
call accepts it and later calls reuse its masks. They separate the ids as they should exactly
when there is a core level and its shift is the larger one; otherwise the core field is empty and
is moved down by 32 places. -/
theorem separates_iff (answer : Cpuid) (hleaf : ¬ answer.maxLeaf < 0xb) (thread : U32)
    (ht : reported 1 answer.levels = some thread)
    (hc : ∀ core, reported 2 answer.levels = some core → shiftCount thread ≤ shiftCount core) :
    ∃ t, getTopology unknown (some answer) = (t, some (identify t answer.apicID)) ∧
      (∀ later : Cpuid, ¬ later.maxLeaf < 0xb →
        getTopology t (some later) = (t, some (identify t later.apicID))) ∧
      (Separates t (shiftCount thread) ↔
        ∃ core, reported 2 answer.levels = some core ∧ shiftCount thread < shiftCount core) := by
  obtain ⟨t, hfirst, hsocket, hdiv⟩ := getTopology_unknown hleaf ht hc
  refine ⟨t, hfirst, fun later => getTopology_reported hsocket, ?_⟩
  cases hcore : reported 2 answer.levels with
  | none =>
    rw [hcore] at hdiv
    apply iff_of_false
    · intro hsep
      have hmove := hsep.moving.2
      rw [hdiv.ctz_core_empty (Nat.le_refl _)] at hmove
      exact Nat.lt_irrefl 32 hmove
    · intro ⟨core, hsome, _⟩
      cases hsome
  | some core =>
    rw [hcore] at hdiv
    have hle := hc core hcore
    have hhigh := shiftCount_lt core
    constructor
    · intro hsep
      refine ⟨core, rfl, ?_⟩
      by_contra hnot
      have hmove := hsep.moving.2
      rw [hdiv.ctz_core_empty (Nat.le_of_not_lt hnot)] at hmove
      exact Nat.lt_irrefl 32 hmove
    · intro ⟨core', hsome, hlt⟩
      cases hsome
      constructor
      · exact shiftCount_lt
      · rw [hdiv.ctz_socket hhigh, hdiv.ctz_core hlt hhigh]
        exact ⟨hhigh, shiftCount_lt thread⟩
      · exact hdiv.partition hle
      · exact hdiv.same_core hle hhigh

/-- Two threads in each of eight cores: thread level 1 and core level 4. -/
def eightCores : Cpuid := ⟨0xb, 0x15, [⟨1, 2, 0x100, 0⟩, ⟨4, 16, 0x201, 0⟩, ⟨0, 0, 2, 0⟩]⟩

theorem separates_iff_small :
    (getTopology unknown (some eightCores)).2 = some ⟨1, 2⟩ ∧
      Separates (getTopology unknown (some eightCores)).1 1 := by
  have hcore : ∀ core, reported 2 eightCores.levels = some core →
      shiftCount 1 ≤ shiftCount core := by
    intro core h
    cases h
    decide
  obtain ⟨t, hfirst, _, hiff⟩ := separates_iff eightCores (by decide) 1 rfl hcore
  refine ⟨by decide, ?_⟩
  rw [hfirst]
  exact hiff.mpr ⟨4, rfl, by decide⟩

/-- One core in the package: both levels report the shift 1, and the empty core field is moved
down by 32. -/
def oneCore : Cpuid := ⟨0xb, 1, [⟨1, 2, 0x100, 0⟩, ⟨1, 2, 0x201, 0⟩, ⟨0, 0, 2, 0⟩]⟩

theorem oneCore_shifts_by_32 :
    (getTopology unknown (some oneCore)).2.isSome ∧
      ctz (getTopology unknown (some oneCore)).1.core.mask = 32 ∧
      ¬ Separates (getTopology unknown (some oneCore)).1 1 := by
  have hctz : ctz (getTopology unknown (some oneCore)).1.core.mask = 32 := by decide
  refine ⟨by decide, hctz, ?_⟩
  intro hsep
  have hmove := hsep.moving.2
  rw [hctz] at hmove
  exact Nat.lt_irrefl 32 hmove

end Turf.Affinity.FreeBSD
