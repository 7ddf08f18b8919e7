import Turf.HeapDL.TreeSearch

/-!
# The search is best fit

Whatever the bins hold, the chunk that `dlmalloc` takes from them is the smallest one that is large
enough, and it takes none only if there is none or the designated victim will do.
-/
namespace Turf.HeapDL.Bins

open Turf.Lib.BitMaps Turf.Lib.DigitalTree Turf.Lib.DigitalTree.Trie

variable {c : Config} {narrow : Bool} {b : Bins} {nb s i d : Nat} {best : Best} {t rst : Trie Nat Ring}

/-! ## Best fit -/

/-- No chunk in the bins is a better fit. -/
structure BestFit (b : Bins) (nb : Nat) (e : Nat × Nat) : Prop where
  mem : e ∈ b.entries
  le : nb ≤ e.2
  least : ∀ e' ∈ b.entries, nb ≤ e'.2 → e.2 ≤ e'.2

theorem Sound.mem_cases (h : Sound c narrow b) {e : Nat × Nat} (he : e ∈ b.entries) :
    (e.2 < 2 ^ 8 ∧ ∃ i, e ∈ b.smallbins i ∧ e.2 = 8 * i) ∨
    (2 ^ 8 ≤ e.2 ∧ ∃ r, (e.2, r) ∈ b.nodes ∧ e.1 ∈ r.1 :: r.2) := by
  cases hs : isSmall e.2 with
  | false =>
    have hlarge : 2 ^ 8 ≤ e.2 := by
      rw [← Bool.not_eq_true, isSmall_iff, Nat.not_lt] at hs
      exact hs
    exact .inr ⟨hlarge, h.nodes_of_large he hs⟩
  | true =>
    rw [h.mem_entries, if_pos hs] at he
    have hsize := h.small _ e he
    unfold smallIndex2size at hsize
    exact .inl ⟨isSmall_iff.mp hs, _, he, by omega⟩

/-- The best chunk of the trees is the best of all, if no smallbin has one large enough. -/
theorem Sound.bestFit_of_chosen (h : Sound c narrow b) (hc : Chosen c nb b.nodes best)
    (hsmall : ∀ i, b.smallbins i ≠ [] → 8 * i < nb) :
    (∀ e, best.1 = some e → best.2 = e.2 - nb ∧ b.BestFit nb e) ∧
      (best.1 = none → ∀ e ∈ b.entries, e.2 < nb) := by
  have hlow : ∀ i, ∀ e ∈ b.smallbins i, e.2 = 8 * i → e.2 < nb :=
    fun i e he hsize => hsize ▸ hsmall i (List.ne_nil_of_mem he)
  cases hc with
  | nothing hnone =>
    refine ⟨fun e he => absurd he.symm (Option.some_ne_none e), fun _ e he => ?_⟩
    rcases h.mem_cases he with ⟨-, i, hi, hsize⟩ | ⟨-, r, hr, -⟩
    · exact hlow i e hi hsize
    · exact hnone _ hr
  | chunk e hmem hlt hle hleast =>
    refine ⟨fun e' he' => ?_, fun hnone => by cases hnone⟩
    obtain rfl := Option.some.inj he'
    refine ⟨rfl, (h.mem_nodes hmem).1 _ List.mem_cons_self, hle, fun e' he' hge => ?_⟩
    rcases h.mem_cases he' with ⟨-, i, hi, hsize⟩ | ⟨-, r, hr, -⟩
    · exact absurd hge (Nat.not_le_of_lt (hlow i e' hi hsize))
    · exact hleast _ hr hge

/-- The first chunk of the first smallbin that is large enough. -/
theorem Sound.bestFit_of_smallbin (h : Sound c narrow b) (nb : Nat) (hi : b.smallbins i ≠ []) (hge : nb ≤ 8 * i)
    (hlow : ∀ j, j < i → b.smallbins j ≠ [] → 8 * j < nb) :
    ∃ e, (b.smallbins i).head? = some e ∧ e.2 = 8 * i ∧ b.BestFit nb e := by
  have hlt := h.smallbin_lt hi
  have hsize := h.small i
  cases hb : b.smallbins i with
  | nil => exact absurd hb hi
  | cons e rest =>
    have he : e ∈ b.smallbins i := by rw [hb]; exact List.mem_cons_self
    have hs : e.2 = 8 * i := by
      rw [hsize e he, smallIndex2size, Nat.mul_comm]
    refine ⟨e, rfl, hs, ?_, hs ▸ hge, fun e' he' hge' => ?_⟩
    · exact List.mem_append_left _ (List.mem_flatMap.mpr ⟨i, List.mem_range.mpr hlt, he⟩)
    · rcases h.mem_cases he' with ⟨-, j, hj, hs'⟩ | ⟨hlarge, -⟩
      · have hji : i ≤ j := by
          by_contra hlt'
          have hlow' := hlow j (by omega) (List.ne_nil_of_mem hj)
          omega
        omega
      · omega

theorem findSmallest_root (s : Nat) (ring : Ring) (l r : Trie Nat Ring) :
    Bins.findSmallest c nb best (.node s ring l r) =
      Bins.findSmallest c nb (consider c nb best s ring) (leftmostChild l r) := by
  cases l <;> rfl

/-- `tmalloc_small` takes the best chunk of all treebins, where all of them are large enough. -/
theorem Sound.tmallocSmall_eq (h : Sound c narrow b) (hfits : b.Fits c narrow) (hnb : nb < 2 ^ 8)
    (hne : b.treemap ≠ 0) : ∃ best e, Chosen c nb b.nodes best ∧ best.1 = some e ∧
      b.tmallocSmall c nb = some e := by
  have hmod : 2 ^ 32 ≤ modulus c := by
    unfold modulus
    split <;> omega
  have hge : ∀ i, ∀ s ∈ (b.treebins i).keys, nb ≤ s := by
    intro i s hs
    have hlow := ((h.regular hfits i).keys s hs).1
    omega
  obtain ⟨hmem, hfirst⟩ := (bit_iff h.treemap).2 hne
  have hlt := ctz_lt hne
  have hchosen := h.chosen_of_bin hfits (show nb < modulus c by omega) hlt hmem (hge _) fun j hj s hs => by
    refine absurd (hfirst j fun hnil => ?_) (Nat.not_le_of_lt hj)
    rw [hnil] at hs
    cases hs
  unfold Bins.tmallocSmall
  rw [ctz_leastBit hne]
  have hkeys := (h.regular hfits b.treemap.ctz.toNat).keys
  have hge' := hge b.treemap.ctz.toNat
  cases ht : b.treebins b.treemap.ctz.toNat with
  | nil => exact absurd ht hmem
  | node s ring l r =>
    rw [ht] at hchosen hkeys hge'
    have hs := hkeys s (by simp)
    have hle := hge' s (by simp)
    have hroot : consider c nb (none, modulus c - nb) s ring = (some (ring.1, s), trem c nb s) := by
      unfold Bins.consider
      rw [trem_of_le hs.2.1 hle, if_pos (by simp only; omega)]
    rw [findSmallest_root, hroot] at hchosen
    simp only
    cases hb : (Bins.findSmallest c nb (some (ring.1, s), trem c nb s) (leftmostChild l r)).1 with
    | none =>
      obtain ⟨-, hnone⟩ := hchosen.isNone hb
      obtain ⟨r', hr'⟩ := mem_keys.mp (show s ∈ (b.treebins b.treemap.ctz.toNat).keys by rw [ht]; simp)
      have hless := hnone (s, r') (List.mem_flatMap.mpr ⟨_, List.mem_range.mpr hlt, hr'⟩)
      exact absurd hle (Nat.not_le_of_lt hless)
    | some e => exact ⟨_, e, hchosen, hb, rfl⟩

/-! ## Smallbins from an index on -/

theorem getLsbD_low (x : BitVec 32) : x &&& 3 ≠ 0 ↔ x.getLsbD 0 ∨ x.getLsbD 1 := by
  have hthree : ∀ j, (3 : BitVec 32).getLsbD j = decide (j < 2) := by
    intro j
    by_cases hj : j < 32
    · revert j
      decide
    · rw [BitVec.getLsbD_of_ge _ _ (by omega), decide_eq_false (by omega)]
  rw [← not_iff_not, not_not, show (0 : BitVec 32) = 0#32 from rfl, eq_zero_iff, not_or]
  simp only [BitVec.getLsbD_and, hthree, Bool.and_eq_false_iff, decide_eq_false_iff_not, Bool.not_eq_true]
  constructor
  · intro h
    exact ⟨(h 0).resolve_right (by omega), (h 1).resolve_right (by omega)⟩
  · rintro ⟨h0, h1⟩ j
    rcases Nat.lt_or_ge j 2 with hlt | hge
    · obtain rfl | rfl : j = 0 ∨ j = 1 := by omega
      · exact .inl h0
      · exact .inl h1
    · exact .inr (by omega)

theorem low_bit (x : BitVec 32) : (~~~x &&& 1).toNat = if x.getLsbD 0 then 0 else 1 := by
  have hone : (~~~x &&& 1).toNat = (~~~x).toNat % 2 := by
    rw [BitVec.toNat_and]
    exact Nat.and_one_is_mod _
  have hnot := BitVec.getLsbD_not (x := x) (i := 0)
  rw [BitVec.getLsbD, Nat.testBit_zero] at hnot
  rw [hone]
  cases hx : x.getLsbD 0 <;> rw [hx] at hnot <;> simp at hnot ⊢ <;> omega

theorem Sound.smallbits (h : Sound c narrow b) (i j : Nat) :
    (b.smallmap >>> i).getLsbD j ↔ b.smallbins (i + j) ≠ [] := by
  rw [BitVec.getLsbD_ushiftRight, h.smallmap]

/-- What a search for a small request comes to. -/
structure SmallAnswer (b : Bins) (nb dvsize : Nat) (r : Option (Nat × Nat)) : Prop where
  some : ∀ e, r = some e → b.BestFit nb e ∧ (e.2 ≤ nb + 8 ∨ dvsize < nb)
  none : r = none → nb ≤ dvsize ∨ ∀ e ∈ b.entries, e.2 < nb

theorem BestFit.answer {e : Nat × Nat} {dvsize : Nat} (h : b.BestFit nb e)
    (he : e.2 ≤ nb + 8 ∨ dvsize < nb) : b.SmallAnswer nb dvsize (some e) := by
  refine ⟨fun e' he' => ?_, fun hnone => absurd hnone (Option.some_ne_none e)⟩
  obtain rfl := Option.some.inj he'
  exact ⟨h, he⟩

section Small

variable {idx dvsize : Nat}

/-- The smallbin of the size, or the next one if it is empty. -/
theorem Sound.answer_exact (h : Sound c narrow b) (hnb : nb = 8 * idx)
    (hlow : b.smallmap >>> idx &&& 3 ≠ 0) :
    b.SmallAnswer nb dvsize (b.smallbins (idx + (~~~(b.smallmap >>> idx) &&& 1).toNat)).head? := by
  have hbits := h.smallbits idx
  generalize b.smallmap >>> idx = x at hbits hlow ⊢
  rw [low_bit]
  rw [getLsbD_low] at hlow
  have hne : b.smallbins (idx + if x.getLsbD 0 then 0 else 1) ≠ [] := by
    split
    · next h0 => exact (hbits 0).mp h0
    · next h0 => exact (hbits 1).mp (hlow.resolve_left h0)
  obtain ⟨e, he, hs, hbest⟩ := h.bestFit_of_smallbin nb hne (by omega) fun j hj hj' => by
    by_contra hge
    split at hj
    · omega
    · next h0 =>
      obtain rfl : j = idx + 0 := by omega
      exact h0 ((hbits 0).mpr hj')
  rw [he]
  refine hbest.answer (.inl ?_)
  rw [hs]
  split <;> omega

/-- The next smallbin that is not empty. -/
theorem Sound.answer_next (h : Sound c narrow b) (hi : idx < 32) (hnb : nb = 8 * idx)
    (hlow : ¬ b.smallmap >>> idx &&& 3 ≠ 0) (hne : b.smallmap >>> idx ≠ 0) (hdv : dvsize < nb) :
    b.SmallAnswer nb dvsize
      (b.smallbins (leastBit (b.smallmap >>> idx <<< idx &&& leftBits (idx2bit idx))).ctz.toNat).head? := by
  have hbits := h.smallbits idx
  generalize b.smallmap >>> idx = x at hbits hlow hne ⊢
  rw [getLsbD_low, not_or] at hlow
  have hnext : ∀ j, (x <<< idx &&& leftBits (idx2bit idx)).getLsbD j ↔ idx < j ∧ b.smallbins j ≠ [] := by
    intro j
    rw [BitVec.getLsbD_and, idx2bit, getLsbD_leftBits (ne_zero_of_bit hi), ctz_bit hi,
      BitVec.getLsbD_shiftLeft]
    simp only [Bool.and_eq_true, decide_eq_true_eq, Bool.not_eq_true', decide_eq_false_iff_not]
    constructor
    · rintro ⟨⟨-, hset⟩, -, hj⟩
      rw [hbits, Nat.add_sub_of_le hj.le] at hset
      exact ⟨hj, hset⟩
    · rintro ⟨hj, hset⟩
      have hj' := h.smallbin_lt hset
      refine ⟨⟨⟨hj', hj.not_gt⟩, ?_⟩, hj', hj⟩
      rwa [hbits, Nat.add_sub_of_le hj.le]
  obtain ⟨hzero, hleast⟩ := bit_iff hnext
  have hset : x <<< idx &&& leftBits (idx2bit idx) ≠ 0 := by
    intro hnone
    rw [hzero] at hnone
    refine hne (eq_zero_iff.mpr fun j => Bool.eq_false_iff.mpr fun hj => ?_)
    cases j with
    | zero => exact hlow.1 hj
    | succ j => exact hnone (idx + (j + 1)) ⟨by omega, (hbits _).mp hj⟩
  obtain ⟨⟨hgt, hmem⟩, hfirst⟩ := hleast hset
  rw [ctz_leastBit hset]
  obtain ⟨e, he, -, hbest⟩ := h.bestFit_of_smallbin nb hmem (by omega) fun j hj hj' => by
    by_contra hge
    rcases Nat.lt_or_ge idx j with hlt | hle
    · exact absurd (hfirst j ⟨hlt, hj'⟩) (Nat.not_le_of_lt hj)
    · obtain rfl : j = idx + 0 := by omega
      exact hlow.1 ((hbits 0).mpr hj')
  rw [he]
  exact hbest.answer (.inr hdv)

/-- The treebins, where no smallbin has a chunk that is large enough. -/
theorem Sound.answer_tree (h : Sound c narrow b) (hfits : b.Fits c narrow) (hlow : nb < 2 ^ 8)
    (hnb : nb = 8 * idx) (hzero : ¬ b.smallmap >>> idx ≠ 0) (hdv : dvsize < nb) :
    b.SmallAnswer nb dvsize (if b.treemap ≠ 0 then b.tmallocSmall c nb else none) := by
  have hsmall : ∀ i, b.smallbins i ≠ [] → 8 * i < nb := by
    intro i hi
    by_contra hge
    have hset := (h.smallbits idx (i - idx)).mpr (by rwa [Nat.add_sub_of_le (by omega)])
    rw [not_not] at hzero
    rw [hzero] at hset
    simp at hset
  split
  · next hmap =>
    obtain ⟨best, e, hchosen, he, heq⟩ := h.tmallocSmall_eq hfits hlow hmap
    rw [heq]
    exact ((h.bestFit_of_chosen hchosen hsmall).1 e he).2.answer (.inr hdv)
  · next hmap =>
    rw [not_not] at hmap
    refine ⟨fun e he => absurd he.symm (Option.some_ne_none e), fun _ => .inr fun e he => ?_⟩
    rcases h.mem_cases he with ⟨-, i, hi, hsize⟩ | ⟨-, r, hr, -⟩
    · exact hsize ▸ hsmall i (List.ne_nil_of_mem hi)
    · obtain ⟨i, -, hi⟩ := List.mem_flatMap.mp hr
      rw [not_not.mp ((bit_iff h.treemap).1.mp hmap i)] at hi
      cases hi

/-- A small request is served from the smallbin of its size or the next one, else by the best chunk of
all, unless the designated victim is large enough. -/
theorem Sound.searchSmall_answer (h : Sound c narrow b) (hfits : b.Fits c narrow) (hnb : nb < 2 ^ 8)
    (h8 : 8 ∣ nb) (dvsize : Nat) : b.SmallAnswer nb dvsize (b.searchSmall c nb dvsize) := by
  have hidx : nb = 8 * smallIndex nb := by
    unfold smallIndex
    omega
  unfold Bins.searchSmall
  simp only
  split
  · next hlow => exact h.answer_exact hidx hlow
  · next hlow =>
    split
    · next hdv =>
      split
      · next hne => exact h.answer_next (by omega) hidx hlow hne hdv
      · next hzero => exact h.answer_tree hfits hnb hidx hzero hdv
    · next hdv =>
      exact ⟨fun e he => absurd he.symm (Option.some_ne_none e), fun _ => .inl (Nat.le_of_not_lt hdv)⟩

end Small

/-! ## Chunks of the bins only -/

theorem traverse_subtree (d : Nat) (t : Trie Nat Ring) (best : Best) (rst : Trie Nat Ring) :
    (traverse c i nb d t best rst).2 = rst ∨
    (∀ e ∈ (traverse c i nb d t best rst).2.entries, e ∈ t.entries) := by
  induction t generalizing d best rst with
  | nil => exact .inl rfl
  | node k v l r ihl ihr =>
    rw [Bins.traverse]
    split
    · exact .inr fun e he => he
    · split
      · exact (ihr (d + 1) _ rst).imp_right fun h e he => List.mem_cons_of_mem _ (List.mem_append_right _ (h e he))
      · rcases ihl (d + 1) (Bins.consider c nb best k v) (if r.isNil then rst else r) with h | h
        · rw [h]
          split
          · exact .inl rfl
          · exact .inr fun e he => List.mem_cons_of_mem _ (List.mem_append_right _ he)
        · exact .inr fun e he => List.mem_cons_of_mem _ (List.mem_append_left _ (h e he))

theorem Sound.tree_nodes (h : Sound c narrow b) (j : Nat) : ∀ e ∈ (b.treebins j).entries, e ∈ b.nodes := by
  intro e he
  have hindex := (h.index j e.1 (mem_keys.mpr ⟨e.2, he⟩)).1
  exact List.mem_flatMap.mpr ⟨j, List.mem_range.mpr (hindex ▸ computeTreeIndex_lt narrow e.1), he⟩

theorem Sound.node_size (h : Sound c narrow b) (hsizes : ∀ e ∈ b.entries, e.2 < modulus c) :
    ∀ e ∈ b.nodes, e.1 < modulus c :=
  fun e he => hsizes _ ((h.mem_nodes he).1 e.2.1 List.mem_cons_self)

/-- The chunk of a node that was seen, if it was large enough. -/
theorem Sound.mem_of_chosen (h : Sound c narrow b) {seen : List (Nat × Ring)} (hseen : ∀ e ∈ seen, e ∈ b.nodes)
    (hc : Chosen c nb seen best) {e : Nat × Nat} (he : best.1 = some e) : e ∈ b.entries ∧ nb ≤ e.2 := by
  obtain ⟨hle, ring, hring, heq⟩ := hc.eq_some he
  have hmem := (h.mem_nodes (hseen _ hring)).1 ring.1 List.mem_cons_self
  rw [← heq] at hmem
  exact ⟨hmem, hle⟩

/-- Whatever order the bins are in, `tmalloc_large` takes a chunk of theirs that is large enough. -/
theorem Sound.tmallocLarge_mem (h : Sound c narrow b) (hsizes : ∀ e ∈ b.entries, e.2 < modulus c)
    (hnb : nb < modulus c) (hpos : 0 < nb) {dvsize : Nat} {e : Nat × Nat}
    (he : b.tmallocLarge c narrow nb dvsize = some e) : e ∈ b.entries ∧ nb ≤ e.2 := by
  have hempty : Chosen c nb [] (none, modulus c - nb) := .nothing fun e he => absurd he List.not_mem_nil
  have hstart : (modulus c - nb) % modulus c = modulus c - nb := Nat.mod_eq_of_lt (by omega)
  unfold Bins.tmallocLarge at he
  simp only at he
  rw [hstart] at he
  generalize hfound : Bins.traverse c (computeTreeIndex narrow nb) nb 0
    (b.treebins (computeTreeIndex narrow nb)) (none, modulus c - nb) .nil = found at he
  generalize ht : (if found.2.isNil && found.1.1.isNone then
      if leftBits (idx2bit (computeTreeIndex narrow nb)) &&& b.treemap = 0 then .nil
      else b.treebins (leastBit (leftBits (idx2bit (computeTreeIndex narrow nb)) &&& b.treemap)).ctz.toNat
    else found.2) = t at he
  have hsub : ∀ e ∈ t.entries, e ∈ b.nodes := by
    rw [← ht]
    split
    · split
      · exact fun e he => absurd he List.not_mem_nil
      · exact h.tree_nodes _
    · rcases traverse_subtree 0 (b.treebins (computeTreeIndex narrow nb)) (none, modulus c - nb) .nil with hnil | hin
      · rw [hfound] at hnil
        rw [hnil]
        exact fun e he => absurd he List.not_mem_nil
      · rw [hfound] at hin
        exact fun e he => h.tree_nodes _ e (hin e he)
  have hpath := (hempty.traverse (i := computeTreeIndex narrow nb) 0 .nil hnb
    (by simp only; omega) fun e he => h.node_size hsizes e (h.tree_nodes (computeTreeIndex narrow nb) e he)).1
  rw [hfound] at hpath
  have hbest := hpath.findSmallest hnb fun e he => h.node_size hsizes e (hsub e he)
  refine h.mem_of_chosen (fun e he => ?_) hbest (e := e) ?_
  · rcases List.mem_append.mp he with he | he
    · exact h.tree_nodes _ e (mem_of_mem_path he)
    · exact hsub e (mem_of_mem_spine he)
  · split at he
    · exact he
    · cases he

theorem Sound.tmallocSmall_mem (h : Sound c narrow b) (hsizes : ∀ e ∈ b.entries, e.2 < modulus c)
    (hnb : nb < 2 ^ 8) {e : Nat × Nat} (he : b.tmallocSmall c nb = some e) : e ∈ b.entries ∧ nb ≤ e.2 := by
  have hmod := constants c
  unfold Bins.tmallocSmall at he
  generalize (leastBit b.treemap).ctz.toNat = i at he
  have hnodes := h.tree_nodes i
  cases ht : b.treebins i with
  | nil =>
    rw [ht] at he
    cases he
  | node s ring l r =>
    rw [ht] at he hnodes
    have hnode := hnodes (s, ring) List.mem_cons_self
    have hs := h.node_size hsizes _ hnode
    have hlarge := (h.mem_nodes hnode).2.1
    simp only at hs hlarge
    rw [← Bool.not_eq_true, isSmall_iff, Nat.not_lt] at hlarge
    have hroot : Chosen c nb [(s, ring)] (some (ring.1, s), s - nb) :=
      .chunk (s, ring) List.mem_cons_self hs (by simp only; omega)
        fun e' he' _ => (List.mem_singleton.mp he').symm ▸ le_rfl
    have hchild : ∀ e ∈ (leftmostChild l r).entries, e ∈ (node s ring l r).entries := by
      intro e he
      refine List.mem_cons_of_mem _ (List.mem_append.mpr ?_)
      unfold leftmostChild at he
      split at he
      · exact .inr he
      · exact .inl he
    have hbest := hroot.findSmallest (t := leftmostChild l r) (by omega)
      fun e he => h.node_size hsizes e (hnodes e (hchild e he))
    simp only [trem_of_le hs (show nb ≤ s by omega)] at he
    refine h.mem_of_chosen (fun e he => ?_) hbest he
    rcases List.mem_append.mp he with he | he
    · rw [List.mem_singleton.mp he]
      exact hnode
    · exact hnodes e (hchild e (mem_of_mem_spine he))

/-! ## Requests of any size -/

/-- What a search for a large request comes to. -/
theorem Sound.tmallocLarge_answer (h : Sound c narrow b) (hfits : b.Fits c narrow) (hlow : 2 ^ 8 ≤ nb)
    (hnb : nb < modulus c) {dvsize : Nat} (hdv : dvsize < modulus c) :
    (∀ e, b.tmallocLarge c narrow nb dvsize = some e → b.BestFit nb e ∧ (nb ≤ dvsize → e.2 < dvsize)) ∧
      (b.tmallocLarge c narrow nb dvsize = none →
        ∀ e ∈ b.entries, nb ≤ e.2 → nb ≤ dvsize ∧ dvsize ≤ e.2) := by
  by_cases hfit : FitsIndex narrow nb
  · obtain ⟨best, hchosen, heq⟩ := h.tmallocLarge_eq hfits hlow hnb hfit dvsize
    obtain ⟨hsome, hnone⟩ := h.bestFit_of_chosen hchosen fun i hi => by
      have hlt := h.smallbin_lt hi
      omega
    rw [heq]
    refine ⟨fun e he => ?_, fun hfail e he hge => ?_⟩
    · split at he
      · next hbetter =>
        obtain ⟨hrsize, hbest⟩ := hsome e he
        refine ⟨hbest, fun hle => ?_⟩
        rw [trem_of_le hdv hle, hrsize] at hbetter
        have hle' := hbest.le
        omega
      · cases he
    · cases hb : best.1 with
      | none => exact absurd hge (Nat.not_le_of_lt (hnone hb e he))
      | some e' =>
        obtain ⟨hrsize, hbest⟩ := hsome e' hb
        rw [hb, ite_eq_right_iff] at hfail
        have hworse : ¬ best.2 < trem c nb dvsize := fun hlt => Option.some_ne_none _ (hfail hlt)
        have hle' := hbest.le
        have hlt' := (hfits e' hbest.mem).1
        have hleast := hbest.least e he hge
        by_cases hle : nb ≤ dvsize
        · rw [trem_of_le hdv hle, hrsize] at hworse
          omega
        · rw [trem_of_lt hnb (Nat.lt_of_not_le hle), hrsize] at hworse
          omega
  · -- A request that is not held whole is larger than all chunks.
    have hlarge : ∀ e ∈ b.entries, e.2 < nb := by
      intro e he
      by_contra hge
      exact hfit ((hfits e he).2.mono (Nat.le_of_not_lt hge))
    have hnone : b.tmallocLarge c narrow nb dvsize = none := by
      refine Option.eq_none_iff_forall_ne_some.mpr fun e he => ?_
      obtain ⟨hmem, hge⟩ := h.tmallocLarge_mem (fun e he => (hfits e he).1) hnb (by omega) he
      exact absurd hge (Nat.not_le_of_lt (hlarge e hmem))
    rw [hnone]
    exact ⟨fun e he => absurd he.symm (Option.some_ne_none e),
      fun _ e he hge => absurd hge (Nat.not_le_of_lt (hlarge e he))⟩

theorem request2size_small {bytes : Nat} (h : bytes ≤ maxSmallRequest c) :
    request2size c bytes < 2 ^ 8 ∧ 8 ∣ request2size c bytes := by
  have hc := constants c
  unfold request2size
  split
  · omega
  · rcases hc with ⟨hs, -, ha, -, -, -, -, -, hmax⟩ | ⟨hs, -, ha, -, -, -, -, -, hmax⟩
    · rw [padRequest, roundUp, chunkOverhead, hs, ha]
      omega
    · rw [padRequest, roundUp, chunkOverhead, hs, ha]
      omega

theorem padRequest_large {bytes : Nat} (h : maxSmallRequest c < bytes) : 2 ^ 8 ≤ padRequest c bytes := by
  rcases constants c with ⟨hs, -, ha, -, -, -, -, -, hmax⟩ | ⟨hs, -, ha, -, -, -, -, -, hmax⟩
  · rw [padRequest, roundUp, chunkOverhead, hs, ha]
    omega
  · rw [padRequest, roundUp, chunkOverhead, hs, ha]
    omega

/-- Whatever order the bins are in, the search yields a chunk of theirs that is large enough, and unless
it has just the size, only if the designated victim is too small for a small request. -/
theorem Sound.search_mem (h : Sound c narrow b) (hsizes : ∀ e ∈ b.entries, e.2 < modulus c)
    {bytes dvsize : Nat} {e : Nat × Nat} (he : b.search c narrow bytes dvsize = some e) :
    e ∈ b.entries ∧ paddedRequest c bytes ≤ e.2 ∧ bytes < maxRequest c ∧
      (bytes ≤ maxSmallRequest c →
        paddedRequest c bytes < 2 ^ 8 ∧ (e.2 ≤ paddedRequest c bytes + 8 ∨ dvsize < paddedRequest c bytes)) := by
  have hc := constants c
  have hlt : paddedRequest c bytes < modulus c := paddedRequest_lt c
  unfold Bins.search at he
  unfold paddedRequest at hlt ⊢
  by_cases hsmall : bytes ≤ maxSmallRequest c
  · simp only [if_pos hsmall] at he hlt ⊢
    obtain ⟨hlow, h8⟩ := request2size_small hsmall
    generalize request2size c bytes = nb at he hlt hlow h8 ⊢
    have hidx : nb = 8 * smallIndex nb := by
      unfold smallIndex
      omega
    have hanswer : ∀ r, b.SmallAnswer nb dvsize r → r = some e →
        e ∈ b.entries ∧ nb ≤ e.2 ∧ (e.2 ≤ nb + 8 ∨ dvsize < nb) :=
      fun r hr heq => ⟨(hr.some e heq).1.mem, (hr.some e heq).1.le, (hr.some e heq).2⟩
    have hfound : e ∈ b.entries ∧ nb ≤ e.2 ∧ (e.2 ≤ nb + 8 ∨ dvsize < nb) := by
      unfold Bins.searchSmall at he
      simp only at he
      split at he
      · next hbits => exact hanswer _ (h.answer_exact hidx hbits) he
      · next hbits =>
        split at he
        · next hdv =>
          split at he
          · next hne => exact hanswer _ (h.answer_next (by omega) hidx hbits hne hdv) he
          · split at he
            · obtain ⟨hmem, hge⟩ := h.tmallocSmall_mem hsizes hlow he
              exact ⟨hmem, hge, .inr hdv⟩
            · cases he
        · cases he
    exact ⟨hfound.1, hfound.2.1, by omega, fun _ => ⟨hlow, hfound.2.2⟩⟩
  · simp only [if_neg hsmall] at he hlt ⊢
    split at he
    · next hlarge =>
      simp only [if_neg (Nat.not_le_of_lt hlarge.1)] at hlt ⊢
      have hlow := padRequest_large (Nat.lt_of_not_le hsmall)
      obtain ⟨hmem, hge⟩ := h.tmallocLarge_mem hsizes hlt (by omega) he
      exact ⟨hmem, hge, hlarge.1, fun hle => absurd hle hsmall⟩
    · cases he

/-- The search yields a chunk that no chunk in the bins fits better, and for a large request a better one
than the designated victim; it yields none if there is none or the designated victim will do. -/
theorem Sound.search_answer (h : Sound c narrow b) (hfits : b.Fits c narrow) {bytes dvsize : Nat}
    (hbytes : bytes < maxRequest c) (hdv : dvsize < modulus c) :
    (∀ e, b.search c narrow bytes dvsize = some e → b.BestFit (paddedRequest c bytes) e ∧
      (paddedRequest c bytes ≤ dvsize →
        if bytes ≤ maxSmallRequest c then e.2 ≤ paddedRequest c bytes + 8 else e.2 < dvsize)) ∧
      (b.search c narrow bytes dvsize = none → ∀ e ∈ b.entries, paddedRequest c bytes ≤ e.2 →
        paddedRequest c bytes ≤ dvsize ∧ (maxSmallRequest c < bytes → dvsize ≤ e.2)) := by
  have hlt : paddedRequest c bytes < modulus c := paddedRequest_lt c
  unfold Bins.search paddedRequest at *
  by_cases hsmall : bytes ≤ maxSmallRequest c
  · simp only [if_pos hsmall]
    obtain ⟨hlow, h8⟩ := request2size_small hsmall
    obtain ⟨hsome, hnone⟩ := h.searchSmall_answer hfits hlow h8 dvsize
    refine ⟨fun e he => ?_, fun hfail e he hge => ?_⟩
    · obtain ⟨hbest, hcase⟩ := hsome e he
      exact ⟨hbest, fun hle => hcase.resolve_right (Nat.not_lt_of_le hle)⟩
    · rcases hnone hfail with hle | hless
      · exact ⟨hle, fun hlarge => absurd hsmall (Nat.not_le_of_lt hlarge)⟩
      · exact absurd hge (Nat.not_le_of_lt (hless e he))
  · simp only [if_neg hsmall, if_neg (Nat.not_le_of_lt hbytes)] at hlt ⊢
    have hlow := padRequest_large (Nat.lt_of_not_le hsmall)
    by_cases hmap : b.treemap ≠ 0
    · rw [if_pos ⟨hbytes, hmap⟩]
      obtain ⟨hsome, hnone⟩ := h.tmallocLarge_answer hfits hlow hlt hdv
      exact ⟨hsome, fun hfail e he hge => ⟨(hnone hfail e he hge).1, fun _ => (hnone hfail e he hge).2⟩⟩
    · rw [if_neg fun hand => hmap hand.2]
      rw [not_not] at hmap
      refine ⟨fun e he => absurd he.symm (Option.some_ne_none e), fun _ e he hge => ?_⟩
      -- Without treebins there is no large chunk.
      rcases h.mem_cases he with ⟨hless, -⟩ | ⟨-, r, hr, -⟩
      · omega
      · obtain ⟨i, -, hi⟩ := List.mem_flatMap.mp hr
        rw [not_not.mp ((bit_iff h.treemap).1.mp hmap i)] at hi
        cases hi

end Turf.HeapDL.Bins
