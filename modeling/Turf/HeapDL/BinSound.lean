import Turf.HeapDL.BinIndex
import Turf.Lib.Extents

/-!
# What the bins hold

Linking and unlinking a chunk adds it and takes it out, whatever its size, and keeps the maps, the
lists and the trees in step.
-/
namespace Turf.HeapDL

open Turf.Lib.BitMaps Turf.Lib.DigitalTree Turf.Lib.DigitalTree.Trie Turf.Lib.Extents

variable {c : Config} {narrow : Bool} {b : Bins} {p x s i : Nat}

/-- The chunks of a ring, with their size. -/
def ringEntries (e : Nat × Ring) : List (Nat × Nat) := (e.2.1 :: e.2.2).map fun p => (p, e.1)

def treeEntries (t : Trie Nat Ring) : List (Nat × Nat) := t.entries.flatMap ringEntries

namespace Bins

/-- The chunks in the bins, with their sizes. -/
def entries (b : Bins) : List (Nat × Nat) :=
  (List.range 32).flatMap b.smallbins ++ (List.range 32).flatMap fun i => treeEntries (b.treebins i)

/-- The maps tell which bins are not empty, and every chunk is in the bin of its size. -/
structure Sound (c : Config) (narrow : Bool) (b : Bins) : Prop where
  smallmap : ∀ i, b.smallmap.getLsbD i ↔ b.smallbins i ≠ []
  small : ∀ i, ∀ e ∈ b.smallbins i, e.2 = smallIndex2size i
  treemap : ∀ i, b.treemap.getLsbD i ↔ b.treebins i ≠ .nil
  placed : ∀ i, Placed (treeDigit c i) 0 (b.treebins i)
  index : ∀ i, ∀ s ∈ (b.treebins i).keys, computeTreeIndex narrow s = i ∧ isSmall s = false

theorem sound_init : Sound c narrow init := by
  refine ⟨fun i => ?_, fun i e he => ?_, fun i => ?_, fun i => trivial, fun i s hs => ?_⟩
  · simp [init]
  · cases he
  · simp [init]
  · cases hs

@[simp] theorem entries_init : init.entries = [] := by
  simp [entries, init, treeEntries]

end Bins

/-! ## One bin of many -/

theorem flatMap_update_perm {β : Type*} (f : Nat → List β) {n : Nat} (hi : i < n) (l : List β) :
    ((List.range n).flatMap (Function.update f i l) ++ f i).Perm ((List.range n).flatMap f ++ l) := by
  have hmap : (List.range n).map (Function.update f i l) = ((List.range n).map f).set i l := by
    apply List.ext_getElem
    · simp
    · intro j hj hj'
      rw [List.getElem_set]
      split
      · next h => simp [← h]
      · next h => simp [Function.update_of_ne (Ne.symm h)]
  have hget : ((List.range n).map f)[i]? = some (f i) := by simp [hi]
  have hperm := flatMap_set_perm id hget l
  rwa [← hmap, List.flatMap_id, List.flatMap_id] at hperm

theorem treeEntries_update (f : Nat → Trie Nat Ring) (t : Trie Nat Ring) :
    (fun j => treeEntries (Function.update f i t j)) =
      Function.update (fun j => treeEntries (f j)) i (treeEntries t) := by
  funext j
  by_cases h : j = i
  · subst h
    simp
  · simp [h]

/-! ## Maps of bins -/

section Maps

variable {m : BitVec 32} {P Q : Nat → Prop}

theorem marked_iff (hi : i < 32) (m : BitVec 32) : m &&& idx2bit i = 0 ↔ ¬ m.getLsbD i := by
  rw [← not_iff_not, not_not]
  exact isMarked_iff hi

theorem mark_iff (h : ∀ j, m.getLsbD j ↔ P j) (hi : i < 32) (hset : Q i) (hrest : ∀ j, j ≠ i → (Q j ↔ P j))
    (j : Nat) : (m ||| idx2bit i).getLsbD j ↔ Q j := by
  rw [idx2bit, getLsbD_mark hi, Bool.or_eq_true, h, decide_eq_true_eq]
  by_cases hj : j = i
  · rw [hj]
    exact iff_of_true (.inr rfl) hset
  · rw [hrest j hj, or_iff_left (Ne.symm hj)]

theorem clear_iff (h : ∀ j, m.getLsbD j ↔ P j) (hi : i < 32) (hset : ¬ Q i) (hrest : ∀ j, j ≠ i → (Q j ↔ P j))
    (j : Nat) : (m &&& ~~~idx2bit i).getLsbD j ↔ Q j := by
  rw [idx2bit, getLsbD_clear hi, Bool.and_eq_true, h, decide_eq_true_eq]
  by_cases hj : j = i
  · rw [hj]
    exact iff_of_false (fun h => h.2 rfl) hset
  · rw [hrest j hj, and_iff_left (Ne.symm hj)]

theorem keep_iff (h : ∀ j, m.getLsbD j ↔ P j) (hi : Q i ↔ P i) (hrest : ∀ j, j ≠ i → (Q j ↔ P j))
    (j : Nat) : m.getLsbD j ↔ Q j := by
  rw [h]
  by_cases hj : j = i
  · rw [hj, hi]
  · rw [hrest j hj]

end Maps

namespace Bins

/-! ## Smallbins -/

theorem smallIndex_lt (h : isSmall s) : smallIndex s < 32 := by
  rw [isSmall_iff] at h
  unfold smallIndex
  omega

theorem Sound.smallbin_lt (h : Sound c narrow b) (hne : b.smallbins i ≠ []) : i < 32 :=
  BitVec.lt_of_getLsbD ((h.smallmap i).mpr hne)

theorem update_ne_nil {f : Nat → List (Nat × Nat)} {l : List (Nat × Nat)} (j : Nat) (hj : j ≠ i) :
    Function.update f i l j ≠ [] ↔ f j ≠ [] := by
  rw [Function.update_of_ne hj]

theorem Sound.setSmallbin (h : Sound c narrow b) (hi : i < 32) {m : BitVec 32} {l : List (Nat × Nat)}
    (hm : ∀ j, m.getLsbD j ↔ Function.update b.smallbins i l j ≠ [])
    (hl : ∀ e ∈ l, e.2 = smallIndex2size i) :
    Sound c narrow { b with smallmap := m, smallbins := Function.update b.smallbins i l } ∧
      (entries { b with smallmap := m, smallbins := Function.update b.smallbins i l } ++
        b.smallbins i).Perm (b.entries ++ l) := by
  refine ⟨⟨hm, ?_, h.treemap, h.placed, h.index⟩, ?_⟩
  · exact (Function.forall_update_iff b.smallbins fun i l => ∀ e ∈ l, e.2 = smallIndex2size i).mpr
      ⟨hl, fun j _ => h.small j⟩
  · have hperm := flatMap_update_perm b.smallbins hi l
    apply List.perm_iff_count.mpr
    intro e
    have hcount := List.perm_iff_count.mp hperm e
    simp only [entries, List.count_append] at hcount ⊢
    omega

theorem Sound.insertSmallChunk (h : Sound c narrow b) (hs : isSmall s) (h8 : 8 ∣ s) (p : Nat) :
    Sound c narrow (b.insertSmallChunk p s) ∧
      (b.insertSmallChunk p s).entries.Perm ((p, s) :: b.entries) := by
  have hi := smallIndex_lt hs
  have hlist : (if b.smallmap &&& idx2bit (smallIndex s) = 0 then [] else b.smallbins (smallIndex s)) =
      b.smallbins (smallIndex s) := by
    split
    · next hzero =>
      rw [marked_iff hi, h.smallmap, not_not] at hzero
      exact hzero.symm
    · rfl
  obtain ⟨hsound, hperm⟩ := h.setSmallbin hi (l := (p, s) :: b.smallbins (smallIndex s))
    (mark_iff h.smallmap hi (by simp) update_ne_nil) (by
      intro e he
      rcases List.mem_cons.mp he with rfl | he
      · exact (Nat.div_mul_cancel h8).symm
      · exact h.small _ e he)
  simp only [Bins.insertSmallChunk, hlist]
  refine ⟨hsound, (List.perm_append_right_iff _).mp (hperm.trans ?_)⟩
  exact List.perm_middle

theorem Sound.unlinkSmallChunk (h : Sound c narrow b) (hs : isSmall s)
    (hmem : (p, s) ∈ b.smallbins (smallIndex s)) :
    Sound c narrow (b.unlinkSmallChunk p s) ∧
      b.entries.Perm ((p, s) :: (b.unlinkSmallChunk p s).entries) := by
  have hi := smallIndex_lt hs
  have hmap : ∀ j, (if (b.smallbins (smallIndex s)).erase (p, s) = [] then
      b.smallmap &&& ~~~idx2bit (smallIndex s) else b.smallmap).getLsbD j ↔
      Function.update b.smallbins (smallIndex s) ((b.smallbins (smallIndex s)).erase (p, s)) j ≠ [] := by
    split
    · next hnil => exact clear_iff h.smallmap hi (by simp [hnil]) update_ne_nil
    · next hne =>
      refine keep_iff h.smallmap ?_ update_ne_nil
      rw [Function.update_self]
      exact iff_of_true hne (List.ne_nil_of_mem hmem)
  obtain ⟨hsound, hperm⟩ := h.setSmallbin hi hmap
    fun e he => h.small _ e (List.mem_of_mem_erase he)
  refine ⟨hsound, (List.perm_append_right_iff ((b.smallbins (smallIndex s)).erase (p, s))).mp ?_⟩
  refine hperm.symm.trans ?_
  exact ((List.perm_cons_erase hmem).append_left _).trans List.perm_middle

/-! ## Rings -/

theorem leaveRing_perm {r : Ring} (h : x ∈ r.1 :: r.2) :
    (r.1 :: r.2).Perm (x :: ((leaveRing x r).toList.flatMap fun r' => r'.1 :: r'.2)) := by
  rw [leaveRing]
  split
  · next hx =>
    rw [hx]
    cases hlast : r.2.getLast? with
    | none =>
      rw [List.getLast?_eq_none_iff.mp hlast]
      exact .refl _
    | some bk =>
      have hsplit := List.dropLast_append_getLast? bk hlast
      refine List.Perm.cons _ ?_
      rw [← hsplit]
      simp
  · next hx =>
    have hmem : x ∈ r.2 := (List.mem_cons.mp h).resolve_left hx
    simpa using ((List.perm_cons_erase hmem).cons r.1).trans (List.Perm.swap _ _ _)

/-! ## Treebins -/

theorem mem_treeEntries {t : Trie Nat Ring} :
    (x, s) ∈ treeEntries t ↔ ∃ r, (s, r) ∈ t.entries ∧ x ∈ r.1 :: r.2 := by
  constructor
  · intro h
    obtain ⟨⟨s', r⟩, hr, hx⟩ := List.mem_flatMap.mp h
    obtain ⟨x', hx', heq⟩ := List.mem_map.mp hx
    obtain ⟨rfl, rfl⟩ := Prod.mk.inj heq
    exact ⟨r, hr, hx'⟩
  · intro ⟨r, hr, hx⟩
    exact List.mem_flatMap.mpr ⟨_, hr, List.mem_map.mpr ⟨x, hx, rfl⟩⟩

theorem insert_treeEntries {t : Trie Nat Ring} (h : Placed (treeDigit c i) 0 t) (x s : Nat) :
    (treeEntries (t.insert (treeDigit c i) (x, []) (joinRing x) s 0)).Perm ((x, s) :: treeEntries t) := by
  rcases h.insert_entries (x, []) (joinRing x) s with ⟨-, hperm⟩ | ⟨r, rest, hrest, hperm⟩
  · exact hperm.flatMap_right ringEntries
  · have hcons : (ringEntries (s, joinRing x r)).Perm ((x, s) :: ringEntries (s, r)) := List.Perm.swap _ _ _
    refine (hperm.flatMap_right ringEntries).trans ?_
    refine (hcons.append_right _).trans (List.Perm.cons _ ?_)
    exact (hrest.flatMap_right ringEntries).symm

theorem alter_treeEntries {t : Trie Nat Ring} (h : Placed (treeDigit c i) 0 t) (hmem : (x, s) ∈ treeEntries t) :
    (treeEntries t).Perm ((x, s) :: treeEntries (t.alter s (leaveRing x))) := by
  obtain ⟨r, hr, hx⟩ := mem_treeEntries.mp hmem
  obtain ⟨rest, hrest, hperm⟩ := h.alter_entries hr (leaveRing x)
  have hring : (ringEntries (s, r)).Perm
      ((x, s) :: ((leaveRing x r).toList.map (s, ·)).flatMap ringEntries) := by
    have hleave := (leaveRing_perm hx).map fun p => (p, s)
    rw [List.map_cons (a := x), List.map_flatMap] at hleave
    rw [List.flatMap_map]
    exact hleave
  refine (hrest.flatMap_right ringEntries).trans ?_
  refine (hring.append_right (rest.flatMap ringEntries)).trans (List.Perm.cons _ ?_)
  have happend := (hperm.flatMap_right ringEntries).symm
  rw [List.flatMap_append] at happend
  exact happend

theorem Sound.setTreebin (h : Sound c narrow b) (hi : i < 32) {m : BitVec 32} {t : Trie Nat Ring}
    (hm : ∀ j, m.getLsbD j ↔ Function.update b.treebins i t j ≠ .nil)
    (hplaced : Placed (treeDigit c i) 0 t)
    (ht : ∀ s ∈ t.keys, computeTreeIndex narrow s = i ∧ isSmall s = false) :
    Sound c narrow { b with treemap := m, treebins := Function.update b.treebins i t } ∧
      (entries { b with treemap := m, treebins := Function.update b.treebins i t } ++
        treeEntries (b.treebins i)).Perm (b.entries ++ treeEntries t) := by
  refine ⟨⟨h.smallmap, h.small, hm, ?_, ?_⟩, ?_⟩
  · exact (Function.forall_update_iff b.treebins fun i t => Placed (treeDigit c i) 0 t).mpr
      ⟨hplaced, fun j _ => h.placed j⟩
  · exact (Function.forall_update_iff b.treebins fun i t =>
      ∀ s ∈ t.keys, computeTreeIndex narrow s = i ∧ isSmall s = false).mpr ⟨ht, fun j _ => h.index j⟩
  · have hperm := flatMap_update_perm (fun j => treeEntries (b.treebins j)) hi (treeEntries t)
    rw [← treeEntries_update] at hperm
    apply List.perm_iff_count.mpr
    intro e
    have hcount := List.perm_iff_count.mp hperm e
    simp only [entries, List.count_append] at hcount ⊢
    omega

theorem update_ne_leaf {f : Nat → Trie Nat Ring} {t : Trie Nat Ring} (j : Nat) (hj : j ≠ i) :
    Function.update f i t j ≠ .nil ↔ f j ≠ .nil := by
  rw [Function.update_of_ne hj]

/-- A chunk is linked into an empty bin as into a tree without nodes. -/
theorem Sound.insertLargeChunk_eq (h : Sound c narrow b) (x s : Nat) :
    b.insertLargeChunk c narrow x s =
      let i := computeTreeIndex narrow s
      { b with
        treemap := if b.treemap &&& idx2bit i = 0 then b.treemap ||| idx2bit i else b.treemap
        treebins := Function.update b.treebins i
          ((b.treebins i).insert (treeDigit c i) (x, []) (joinRing x) s 0) } := by
  have hi := computeTreeIndex_lt narrow s
  simp only [insertLargeChunk]
  split
  · next hzero =>
    rw [marked_iff hi, h.treemap, not_not] at hzero
    rw [hzero]
    rfl
  · rfl

theorem Sound.insertLargeChunk (h : Sound c narrow b) (hs : isSmall s = false) (x : Nat) :
    Sound c narrow (b.insertLargeChunk c narrow x s) ∧
      (b.insertLargeChunk c narrow x s).entries.Perm ((x, s) :: b.entries) := by
  have hi := computeTreeIndex_lt narrow s
  rw [h.insertLargeChunk_eq]
  simp only
  have hentries := insert_treeEntries (h.placed (computeTreeIndex narrow s)) x s
  have hne : (b.treebins (computeTreeIndex narrow s)).insert (treeDigit c (computeTreeIndex narrow s))
      (x, []) (joinRing x) s 0 ≠ .nil := by
    intro hnil
    rw [hnil] at hentries
    exact List.cons_ne_nil _ _ hentries.symm.eq_nil
  have hmap : ∀ j, (if b.treemap &&& idx2bit (computeTreeIndex narrow s) = 0 then
      b.treemap ||| idx2bit (computeTreeIndex narrow s) else b.treemap).getLsbD j ↔
      Function.update b.treebins (computeTreeIndex narrow s)
        ((b.treebins (computeTreeIndex narrow s)).insert (treeDigit c (computeTreeIndex narrow s))
          (x, []) (joinRing x) s 0) j ≠ .nil := by
    split
    · exact mark_iff h.treemap hi (by rw [Function.update_self]; exact hne) update_ne_leaf
    · next hmarked =>
      rw [marked_iff hi, not_not, h.treemap] at hmarked
      refine keep_iff h.treemap ?_ update_ne_leaf
      rw [Function.update_self]
      exact iff_of_true hne hmarked
  obtain ⟨hsound, hperm⟩ := h.setTreebin hi hmap ((h.placed _).insert _ _ _) (by
    intro s' hs'
    rcases mem_of_mem_insert hs' with rfl | hs'
    · exact ⟨rfl, hs⟩
    · exact h.index _ s' hs')
  refine ⟨hsound, (List.perm_append_right_iff _).mp (hperm.trans ?_)⟩
  exact (hentries.append_left _).trans List.perm_middle

theorem Sound.unlinkLargeChunk (h : Sound c narrow b)
    (hmem : (x, s) ∈ treeEntries (b.treebins (computeTreeIndex narrow s))) :
    Sound c narrow (b.unlinkLargeChunk narrow x s) ∧
      b.entries.Perm ((x, s) :: (b.unlinkLargeChunk narrow x s).entries) := by
  have hi := computeTreeIndex_lt narrow s
  simp only [Bins.unlinkLargeChunk]
  have hentries := alter_treeEntries (h.placed (computeTreeIndex narrow s)) hmem
  have hne : b.treebins (computeTreeIndex narrow s) ≠ .nil := by
    intro hnil
    rw [hnil] at hmem
    cases hmem
  generalize ht : (b.treebins (computeTreeIndex narrow s)).alter s (leaveRing x) = t at hentries ⊢
  have hmap : ∀ j, (if t.isNil then b.treemap &&& ~~~idx2bit (computeTreeIndex narrow s)
      else b.treemap).getLsbD j ↔ Function.update b.treebins (computeTreeIndex narrow s) t j ≠ .nil := by
    cases t with
    | nil => exact clear_iff h.treemap hi (by simp) update_ne_leaf
    | node k v l r =>
      refine keep_iff h.treemap ?_ update_ne_leaf
      rw [Function.update_self]
      exact iff_of_true (fun hnil => by cases hnil) hne
  obtain ⟨hsound, hperm⟩ := h.setTreebin hi hmap (ht ▸ (h.placed _).alter _ _)
    (fun s' hs' => h.index _ s' (mem_of_mem_alter (ht ▸ hs')))
  refine ⟨hsound, (List.perm_append_right_iff (treeEntries t)).mp ?_⟩
  refine hperm.symm.trans ?_
  exact (hentries.append_left _).trans List.perm_middle

/-! ## Chunks of any size -/

/-- A chunk in the bins is in the bin of its size. -/
theorem Sound.mem_entries (h : Sound c narrow b) : (p, s) ∈ b.entries ↔
    if isSmall s then (p, s) ∈ b.smallbins (smallIndex s)
    else (p, s) ∈ treeEntries (b.treebins (computeTreeIndex narrow s)) := by
  have hsmall : ∀ i, (p, s) ∈ b.smallbins i → isSmall s ∧ i = smallIndex s := by
    intro i hi
    have hs := h.small i _ hi
    have hlt := h.smallbin_lt (List.ne_nil_of_mem hi)
    unfold smallIndex2size at hs
    refine ⟨isSmall_iff.mpr ?_, ?_⟩
    · omega
    · unfold smallIndex
      omega
  have hlarge : ∀ i, (p, s) ∈ treeEntries (b.treebins i) → isSmall s = false ∧ i = computeTreeIndex narrow s := by
    intro i hi
    obtain ⟨r, hr, -⟩ := mem_treeEntries.mp hi
    obtain ⟨hindex, hs⟩ := h.index i s (mem_keys.mpr ⟨r, hr⟩)
    exact ⟨hs, hindex.symm⟩
  rw [entries, List.mem_append, List.mem_flatMap, List.mem_flatMap]
  split
  · next hs =>
    constructor
    · intro hmem
      rcases hmem with ⟨i, -, hi⟩ | ⟨i, -, hi⟩
      · exact (hsmall i hi).2 ▸ hi
      · rw [(hlarge i hi).1] at hs
        cases hs
    · exact fun hmem => .inl ⟨_, List.mem_range.mpr (smallIndex_lt hs), hmem⟩
  · next hs =>
    constructor
    · intro hmem
      rcases hmem with ⟨i, -, hi⟩ | ⟨i, -, hi⟩
      · exact absurd (hsmall i hi).1 hs
      · exact (hlarge i hi).2 ▸ hi
    · exact fun hmem => .inr ⟨_, List.mem_range.mpr (computeTreeIndex_lt narrow s), hmem⟩

theorem Sound.insertChunk (h : Sound c narrow b) (h8 : 8 ∣ s) (p : Nat) :
    Sound c narrow (b.insertChunk c narrow p s) ∧
      (b.insertChunk c narrow p s).entries.Perm ((p, s) :: b.entries) := by
  rw [Bins.insertChunk]
  split
  · next hs => exact h.insertSmallChunk hs h8 p
  · next hs => exact h.insertLargeChunk (by simpa using hs) p

theorem Sound.unlinkChunk (h : Sound c narrow b) (hmem : (p, s) ∈ b.entries) :
    Sound c narrow (b.unlinkChunk narrow p s) ∧
      b.entries.Perm ((p, s) :: (b.unlinkChunk narrow p s).entries) := by
  rw [h.mem_entries] at hmem
  rw [Bins.unlinkChunk]
  split at hmem
  · next hs =>
    rw [if_pos hs]
    exact h.unlinkSmallChunk hs hmem
  · next hs =>
    rw [if_neg hs]
    exact h.unlinkLargeChunk hmem

end Bins

end Turf.HeapDL
