import Mathlib.Algebra.BigOperators.Group.List.Lemmas
import Turf.Affinity.Model
import Turf.Lib.Grouping

/-!
# What the collector collects

Both constructors are a sequence of flushes. While the distinct cores can be counted in 32
bits, the collected cores are the groups of the processors by core, and the counters hold
their numbers modulo `2 ^ 32`.
-/
namespace Turf.Affinity

open Turf.Lib.Grouping

variable {es : List (CoreID × U32)} {keys : List CoreID} {index : CoreID → Option U32}
  {a : Cores} {c : Collector}

/-- The processor of a flush and its core, if there is a processor. -/
def entry (logicalProcessor : S32) (coreID : CoreID) : List (CoreID × U32) :=
  if 0 ≤ logicalProcessor.toInt then [(coreIDOf logicalProcessor coreID, logicalProcessor)] else []

/-- The collected cores are the groups of `es`, in the order `keys`. -/
structure Collects (es : List (CoreID × U32)) (keys : List CoreID)
    (index : CoreID → Option U32) (a : Cores) : Prop where
  grouped : Grouped es keys a.coreIndexToInfo
  bound : keys.length < 2 ^ 32
  known : ∀ i k, keys[i]? = some k → index k = some (BitVec.ofNat 32 i)
  unknown : ∀ k, k ∉ keys → index k = none
  count : a.numHWThreads = BitVec.ofNat 32 es.length

theorem collects_nil : Collects [] [] (fun _ => none) ⟨[], 0⟩ where
  grouped := grouped_nil
  bound := by decide
  known i k h := by cases h
  unknown _ _ := rfl
  count := rfl

theorem toNat_ofNat_of_lt {m : Nat} (h : m < 2 ^ 32) : (BitVec.ofNat 32 m).toNat = m := by
  rw [BitVec.toNat_ofNat, Nat.mod_eq_of_lt h]

theorem modify_append_length {α : Type*} (f : α → α) (l : List α) (x : α) :
    (l ++ [x]).modify l.length f = l ++ [f x] := by
  induction l with
  | nil => rfl
  | cons y l ih => rw [List.length_cons, List.cons_append, List.modify_succ_cons, ih, List.cons_append]

namespace Collects

theorem count_append (h : Collects es keys index a) (e : CoreID × U32) :
    a.numHWThreads + 1 = BitVec.ofNat 32 (es ++ [e]).length := by
  rw [h.count, List.length_append, List.length_singleton, BitVec.ofNat_add]
  rfl

/-- A processor of a core that is known. -/
theorem flush_old (h : Collects es keys index a) {logicalProcessor : S32} {coreID : CoreID}
    (hlp : 0 ≤ logicalProcessor.toInt) {i : Nat}
    (hi : keys[i]? = some (coreIDOf logicalProcessor coreID)) :
    ∃ a', flush ⟨logicalProcessor, coreID, index⟩ a = some (⟨-1, .none, index⟩, a') ∧
      Collects (es ++ [(coreIDOf logicalProcessor coreID, logicalProcessor)]) keys index a' := by
  have hlt : i < keys.length := (List.getElem?_eq_some_iff.mp hi).1
  have hnat : (BitVec.ofNat 32 i).toNat = i := toNat_ofNat_of_lt (Nat.lt_trans hlt h.bound)
  refine ⟨⟨a.coreIndexToInfo.modify i (· ++ [logicalProcessor]), a.numHWThreads + 1⟩, ?_, ?_⟩
  · rw [flush, if_pos hlp]
    simp only [h.known i _ hi, Cores.push, hnat]
    rw [if_pos (by rw [h.grouped.length_eq]; exact hlt), Option.map_some]
  · exact ⟨h.grouped.old hi logicalProcessor, h.bound, h.known, h.unknown, h.count_append _⟩

/-- A processor of a new core, while there are fewer than `2 ^ 32`. -/
theorem flush_new (h : Collects es keys index a) {logicalProcessor : S32} {coreID : CoreID}
    (hlp : 0 ≤ logicalProcessor.toInt) (hk : coreIDOf logicalProcessor coreID ∉ keys)
    (hbound : keys.length + 1 < 2 ^ 32) :
    ∃ index' a', flush ⟨logicalProcessor, coreID, index⟩ a = some (⟨-1, .none, index'⟩, a') ∧
      Collects (es ++ [(coreIDOf logicalProcessor coreID, logicalProcessor)])
        (keys ++ [coreIDOf logicalProcessor coreID]) index' a' := by
  have hlen := h.grouped.length_eq
  have hnat : (BitVec.ofNat 32 keys.length).toNat = keys.length := toNat_ofNat_of_lt h.bound
  have hsucc : (BitVec.ofNat 32 keys.length + 1).toNat = keys.length + 1 := by
    rw [BitVec.toNat_add, hnat]
    exact Nat.mod_eq_of_lt hbound
  refine ⟨Function.update index (coreIDOf logicalProcessor coreID)
    (some (BitVec.ofNat 32 keys.length)), ⟨a.coreIndexToInfo ++ [[logicalProcessor]],
      a.numHWThreads + 1⟩, ?_, ?_⟩
  · rw [flush, if_pos hlp]
    simp only [h.unknown _ hk, hlen, hsucc, Cores.resize, Cores.push, hnat]
    have htake : a.coreIndexToInfo.take (keys.length + 1) = a.coreIndexToInfo :=
      List.take_of_length_le (by omega)
    rw [htake, show keys.length + 1 - keys.length = 1 by omega, List.replicate_one,
      if_pos (by rw [List.length_append, hlen, List.length_singleton]; omega), Option.map_some,
      ← hlen, modify_append_length, List.nil_append]
  · refine ⟨h.grouped.new hk logicalProcessor, ?_, ?_, ?_, h.count_append _⟩
    · rw [List.length_append]
      exact hbound
    · intro i k hi
      have hlt : i < (keys ++ [coreIDOf logicalProcessor coreID]).length :=
        (List.getElem?_eq_some_iff.mp hi).1
      rw [List.length_append, List.length_singleton] at hlt
      by_cases hold : i < keys.length
      · rw [List.getElem?_append_left hold] at hi
        have hne : k ≠ coreIDOf logicalProcessor coreID := by
          rintro rfl
          exact hk (List.mem_of_getElem? hi)
        rw [Function.update_of_ne hne]
        exact h.known i k hi
      · obtain rfl : i = keys.length := by omega
        rw [List.getElem?_concat_length] at hi
        rw [← Option.some.inj hi, Function.update_self]
    · intro k hmem
      have hne : k ≠ coreIDOf logicalProcessor coreID := by
        rintro rfl
        exact hmem (List.mem_append_right _ (List.mem_singleton_self _))
      rw [Function.update_of_ne hne]
      exact h.unknown k fun hold => hmem (List.mem_append_left _ hold)

/-- The index of the `2 ^ 32`nd core plus one is zero: the cores are cleared and the index is out
of range. -/
theorem flush_full (h : Collects es keys index a) {logicalProcessor : S32} {coreID : CoreID}
    (hlp : 0 ≤ logicalProcessor.toInt) (hk : coreIDOf logicalProcessor coreID ∉ keys)
    (hbound : ¬ keys.length + 1 < 2 ^ 32) :
    flush ⟨logicalProcessor, coreID, index⟩ a = none := by
  have hlen := h.grouped.length_eq
  have hkeys : keys.length = 2 ^ 32 - 1 := by
    have hlt := h.bound
    omega
  rw [flush, if_pos hlp]
  have hindex : BitVec.ofNat 32 (2 ^ 32 - 1) + 1 = 0 := by decide
  simp only [h.unknown _ hk, hlen, hkeys, hindex, Cores.resize, Cores.push]
  rw [if_neg (by simp), Option.map_none]

end Collects

/-! ## All flushes -/

/-- The number of distinct cores. -/
def distinct (es : List (CoreID × U32)) : Nat := (es.map Prod.fst).toFinset.card

theorem distinct_append_le (es fs : List (CoreID × U32)) : distinct es ≤ distinct (es ++ fs) := by
  unfold distinct
  apply Finset.card_le_card
  intro k hk
  rw [List.map_append, List.toFinset_append]
  exact Finset.mem_union_left _ hk

namespace Collects

theorem distinct_eq (h : Collects es keys index a) : distinct es = keys.length :=
  h.grouped.length_keys.symm

theorem distinct_old (h : Collects es keys index a) {k : CoreID} (hk : k ∈ keys) (v : U32) :
    distinct (es ++ [(k, v)]) = keys.length := by
  obtain ⟨i, hi⟩ := List.mem_iff_getElem?.mp hk
  exact (h.grouped.old hi v).length_keys.symm

theorem distinct_new (h : Collects es keys index a) {k : CoreID} (hk : k ∉ keys) (v : U32) :
    distinct (es ++ [(k, v)]) = keys.length + 1 := by
  have hlen := (h.grouped.new hk v).length_keys
  rw [List.length_append, List.length_singleton] at hlen
  exact hlen.symm

/-- A flush succeeds exactly while the cores can be counted. -/
theorem flush (h : Collects es keys index a) (logicalProcessor : S32) (coreID : CoreID) :
    (distinct (es ++ entry logicalProcessor coreID) < 2 ^ 32 →
      ∃ keys' index' a',
        Affinity.flush ⟨logicalProcessor, coreID, index⟩ a = some (⟨-1, .none, index'⟩, a') ∧
          Collects (es ++ entry logicalProcessor coreID) keys' index' a' ∧
          (keys = keysOf es → keys' = keysOf (es ++ entry logicalProcessor coreID))) ∧
      (2 ^ 32 ≤ distinct (es ++ entry logicalProcessor coreID) →
        Affinity.flush ⟨logicalProcessor, coreID, index⟩ a = none) := by
  by_cases hlp : 0 ≤ logicalProcessor.toInt
  · rw [entry, if_pos hlp]
    by_cases hk : coreIDOf logicalProcessor coreID ∈ keys
    · rw [h.distinct_old hk]
      have hlt := h.bound
      constructor
      · intro _
        obtain ⟨i, hi⟩ := List.mem_iff_getElem?.mp hk
        obtain ⟨a', hflush, hcollects⟩ := h.flush_old hlp hi
        refine ⟨keys, index, a', hflush, hcollects, fun horder => ?_⟩
        rw [keysOf_append_old (horder ▸ hk)]
        exact horder
      · intro hle
        omega
    · rw [h.distinct_new hk]
      constructor
      · intro hbound
        obtain ⟨index', a', hflush, hcollects⟩ := h.flush_new hlp hk hbound
        refine ⟨_, index', a', hflush, hcollects, fun horder => ?_⟩
        rw [keysOf_append_new (horder ▸ hk), ← horder]
      · intro hle
        exact h.flush_full hlp hk (by omega)
  · rw [entry, if_neg hlp, List.append_nil, h.distinct_eq]
    have hlt := h.bound
    constructor
    · intro _
      exact ⟨keys, index, a, by rw [Affinity.flush, if_neg hlp], h, id⟩
    · intro hle
      omega

end Collects

/-- A flush of a collector that holds a processor and its core. -/
def flushNext (s : (CoreID → Option U32) × Cores) (f : S32 × CoreID) :
    Option ((CoreID → Option U32) × Cores) :=
  (flush ⟨f.1, f.2, s.1⟩ s.2).map fun r => (r.1.coreIDToIndex, r.2)

/-- The cores after a sequence of flushes. -/
def collect (fs : List (S32 × CoreID)) : Option Cores :=
  (fs.foldlM flushNext (fun _ => none, ⟨[], 0⟩)).map Prod.snd

/-- The processors of a sequence of flushes. -/
def listed (fs : List (S32 × CoreID)) : List (CoreID × U32) := fs.flatMap fun f => entry f.1 f.2

theorem Collects.flushes (h : Collects es keys index a) (fs : List (S32 × CoreID)) :
    (distinct (es ++ listed fs) < 2 ^ 32 →
      ∃ keys' index' a', fs.foldlM flushNext (index, a) = some (index', a') ∧
        Collects (es ++ listed fs) keys' index' a' ∧
        (keys = keysOf es → keys' = keysOf (es ++ listed fs))) ∧
      (2 ^ 32 ≤ distinct (es ++ listed fs) → fs.foldlM flushNext (index, a) = none) := by
  induction fs generalizing es keys index a with
  | nil =>
    have hlt := h.bound
    rw [listed, List.flatMap_nil, List.append_nil, h.distinct_eq]
    constructor
    · intro _
      exact ⟨keys, index, a, rfl, h, id⟩
    · intro hle
      omega
  | cons f fs ih =>
    have happend : es ++ listed (f :: fs) = es ++ entry f.1 f.2 ++ listed fs := by
      rw [List.append_assoc]
      rfl
    have hmono := distinct_append_le (es ++ entry f.1 f.2) (listed fs)
    rw [happend, List.foldlM_cons]
    by_cases hbound : distinct (es ++ entry f.1 f.2) < 2 ^ 32
    · obtain ⟨keys', index', a', hflush, hcollects, horder⟩ := (h.flush f.1 f.2).1 hbound
      rw [flushNext, hflush]
      have hrest := ih hcollects
      constructor
      · intro hlt
        obtain ⟨keys'', index'', a'', hrun, hcollects', horder'⟩ := hrest.1 hlt
        exact ⟨keys'', index'', a'', hrun, hcollects', fun hkeys => horder' (horder hkeys)⟩
      · exact hrest.2
    · have hnone := (h.flush f.1 f.2).2 (by omega)
      rw [flushNext, hnone]
      constructor
      · intro hlt
        omega
      · intro _
        rfl

theorem collect_some (fs : List (S32 × CoreID)) (h : distinct (listed fs) < 2 ^ 32) :
    ∃ index a, collect fs = some a ∧ Collects (listed fs) (keysOf (listed fs)) index a := by
  obtain ⟨keys, index, a, hrun, hcollects, horder⟩ := (collects_nil.flushes fs).1 h
  exact ⟨index, a, by rw [collect, hrun, Option.map_some], horder rfl ▸ hcollects⟩

theorem collect_none (fs : List (S32 × CoreID)) (h : 2 ^ 32 ≤ distinct (listed fs)) :
    collect fs = none := by
  rw [collect, (collects_nil.flushes fs).2 h, Option.map_none]

/-! ## The two constructors as sequences of flushes -/

theorem flush_reset {c' : Collector} {a' : Cores} (h : flush c a = some (c', a')) :
    c' = ⟨-1, .none, c'.coreIDToIndex⟩ := by
  unfold flush at h
  split at h
  next =>
    simp only at h
    split at h
    next =>
      obtain ⟨a'', -, heq⟩ := Option.map_eq_some_iff.mp h
      cases heq
      rfl
    next =>
      obtain ⟨a'', -, heq⟩ := Option.map_eq_some_iff.mp h
      cases heq
      rfl
  next =>
    cases h
    rfl

namespace Linux

/-- What the collector holds at each flush. -/
def flushes (pending : S32 × CoreID) : List (Attribute × S32) → List (S32 × CoreID)
  | [] => [pending]
  | (.processor, value) :: rest => pending :: flushes (value, .none) rest
  | (.physicalId, value) :: rest => flushes (pending.1, { pending.2 with physical := value }) rest
  | (.coreId, value) :: rest => flushes (pending.1, { pending.2 with core := value }) rest

/-- What the lines of the text set, in order. -/
def attributes (overflow : Int → S32) (text : List Char) : List (Attribute × S32) :=
  (text.splitOn '\n').filterMap (parseLine overflow)

theorem readLines_eq (overflow : Int → S32) (lines : List (List Char)) (c : Collector) (a : Cores) :
    ((lines.foldlM (readLine overflow) (c, a)).bind fun s => (flush s.1 s.2).map Prod.snd) =
      ((flushes (c.logicalProcessor, c.coreID) (lines.filterMap (parseLine overflow))).foldlM
        flushNext (c.coreIDToIndex, a)).map Prod.snd := by
  induction lines generalizing c a with
  | nil =>
    show (flush c a).map Prod.snd = (((flush c a).map fun r => (r.1.coreIDToIndex, r.2)).bind some).map
      Prod.snd
    cases flush c a <;> rfl
  | cons line lines ih =>
    rw [List.foldlM_cons, readLine]
    cases hparse : parseLine overflow line with
    | none =>
      rw [List.filterMap_cons_none hparse]
      exact ih c a
    | some setting =>
      rw [List.filterMap_cons_some hparse]
      obtain ⟨kind, value⟩ := setting
      cases kind with
      | processor =>
        rw [flushes, List.foldlM_cons, flushNext]
        cases hflush : flush c a with
        | none => rfl
        | some r =>
          obtain ⟨c', a'⟩ := r
          rw [flush_reset hflush]
          exact ih ⟨value, .none, c'.coreIDToIndex⟩ a'
      | physicalId => exact ih { c with coreID := { c.coreID with physical := value } } a
      | coreId => exact ih { c with coreID := { c.coreID with core := value } } a

theorem init_some (overflow : Int → S32) (text : List Char) :
    init overflow (some text) =
      (collect (flushes (-1, .none) (attributes overflow text))).map Cores.finish := by
  have hlines := readLines_eq overflow (text.splitOn '\n') .start ⟨[], 0⟩
  rw [init, collect, attributes]
  rw [show (Collector.start.logicalProcessor, Collector.start.coreID) = (-1, CoreID.none) from rfl]
    at hlines
  show _ = Option.map Cores.finish (Option.map Prod.snd (List.foldlM flushNext
    (Collector.start.coreIDToIndex, ⟨[], 0⟩) _))
  rw [← hlines, Option.map_bind]
  congr 1
  funext s
  rw [Function.comp_apply, Option.map_map]
  rfl

end Linux

namespace FreeBSD

/-- What the collector holds at each flush. -/
def flushes (logicalProcessor : U32) (t : Levels) : List (Option Cpuid) → List (S32 × CoreID)
  | [] => []
  | cpuid :: rest =>
    (logicalProcessor, (getTopology t cpuid).2.getD .none) ::
      flushes (logicalProcessor + 1) (getTopology t cpuid).1 rest

theorem probeAll_eq (probes : List (Option Cpuid)) (logicalProcessor : U32) (t : Levels)
    (lp : S32) (index : CoreID → Option U32) (a : Cores) :
    (probeAll logicalProcessor t (⟨lp, .none, index⟩, a) probes).map Prod.snd =
      ((flushes logicalProcessor t probes).foldlM flushNext (index, a)).map Prod.snd := by
  induction probes generalizing logicalProcessor t lp index a with
  | nil => rfl
  | cons cpuid rest ih =>
    rw [probeAll, flushes, List.foldlM_cons, flushNext]
    cases hflush : flush ⟨logicalProcessor, (getTopology t cpuid).2.getD .none, index⟩ a with
    | none => rfl
    | some r =>
      obtain ⟨c', a'⟩ := r
      rw [flush_reset hflush]
      exact ih (logicalProcessor + 1) (getTopology t cpuid).1 (-1) c'.coreIDToIndex a'

theorem init_eq (t : Levels) (probes : List (Option Cpuid)) :
    init t probes = (collect (flushes 0 t probes)).map Cores.finish := by
  have hprobes := probeAll_eq probes 0 t (-1) (fun _ => none) ⟨[], 0⟩
  rw [collect, ← hprobes, Option.map_map]
  rfl

end FreeBSD

end Turf.Affinity
