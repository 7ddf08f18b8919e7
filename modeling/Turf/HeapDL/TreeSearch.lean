import Turf.HeapDL.BinSound

/-!
# Searching the treebins

The traversal of one tree, and the way down to the left in what it leaves, come upon the smallest chunk
of the tree that is large enough; the bins behind the tree have larger chunks only.
-/
namespace Turf.HeapDL.Bins

open Turf.Lib.BitMaps Turf.Lib.DigitalTree Turf.Lib.DigitalTree.Trie

variable {c : Config} {narrow : Bool} {b : Bins} {nb s i d : Nat}

/-! ## The best of some nodes -/

theorem trem_of_le (hs : s < modulus c) (hle : nb ≤ s) : trem c nb s = s - nb := by
  unfold trem
  rw [show s + (modulus c - nb) = s - nb + modulus c by omega, Nat.add_mod_right,
    Nat.mod_eq_of_lt (by omega)]

theorem trem_of_lt (hnb : nb < modulus c) (hlt : s < nb) : trem c nb s = s + (modulus c - nb) :=
  Nat.mod_eq_of_lt (by omega)

/-- What the best so far is of the nodes that were seen. -/
inductive Chosen (c : Config) (nb : Nat) (seen : List (Nat × Ring)) : Best → Prop
  | nothing (h : ∀ e ∈ seen, e.1 < nb) : Chosen c nb seen (none, modulus c - nb)
  | chunk (e : Nat × Ring) (hmem : e ∈ seen) (hlt : e.1 < modulus c) (hle : nb ≤ e.1)
      (hleast : ∀ e' ∈ seen, nb ≤ e'.1 → e.1 ≤ e'.1) : Chosen c nb seen (some (e.2.1, e.1), e.1 - nb)

variable {seen seen' : List (Nat × Ring)} {best : Best} {t rst l r : Trie Nat Ring}

theorem Chosen.consider (h : Chosen c nb seen best) (hnb : nb < modulus c) (ring : Ring)
    (hs : s < modulus c) : Chosen c nb (seen ++ [(s, ring)]) (consider c nb best s ring) := by
  have hlast : (s, ring) ∈ seen ++ [(s, ring)] := List.mem_append_right _ List.mem_cons_self
  unfold Bins.consider
  cases h with
  | nothing hnone =>
    by_cases hle : nb ≤ s
    · rw [trem_of_le hs hle, if_pos (by simp only; omega)]
      refine .chunk (s, ring) hlast hs hle fun e he hge => ?_
      rcases List.mem_append.mp he with he | he
      · exact absurd hge (Nat.not_le_of_lt (hnone e he))
      · rw [List.mem_singleton.mp he]
    · rw [trem_of_lt hnb (by omega), if_neg (by simp only; omega)]
      refine .nothing fun e he => ?_
      rcases List.mem_append.mp he with he | he
      · exact hnone e he
      · rw [List.mem_singleton.mp he]
        exact Nat.lt_of_not_le hle
  | chunk e hmem hlt hle hleast =>
    by_cases hbetter : nb ≤ s ∧ s < e.1
    · rw [trem_of_le hs hbetter.1, if_pos (by simp only; omega)]
      refine .chunk (s, ring) hlast hs hbetter.1 fun e' he' hge => ?_
      rcases List.mem_append.mp he' with he' | he'
      · exact hbetter.2.le.trans (hleast e' he' hge)
      · rw [List.mem_singleton.mp he']
    · have hkeep : ¬ trem c nb s < e.1 - nb := by
        by_cases hge : nb ≤ s
        · rw [trem_of_le hs hge]
          omega
        · rw [trem_of_lt hnb (by omega)]
          omega
      rw [if_neg hkeep]
      refine .chunk e (List.mem_append_left _ hmem) hlt hle fun e' he' hge => ?_
      rcases List.mem_append.mp he' with he' | he'
      · exact hleast e' he' hge
      · rw [List.mem_singleton.mp he'] at hge ⊢
        simp only at hge ⊢
        omega

theorem Chosen.findSmallest (h : Chosen c nb seen best) (hnb : nb < modulus c)
    (hs : ∀ e ∈ t.entries, e.1 < modulus c) : Chosen c nb (seen ++ t.spine) (findSmallest c nb best t) := by
  induction t using spine.induct generalizing seen best with
  | case1 =>
    rw [spine, List.append_nil]
    exact h
  | case2 k v r ih =>
    have hnext := ih (h.consider hnb v (hs (k, v) List.mem_cons_self))
      fun e he => hs e (List.mem_cons_of_mem _ he)
    rw [List.append_assoc] at hnext
    exact hnext
  | case3 k v k' v' l' r' r ih =>
    have hnext := ih (h.consider hnb v (hs (k, v) List.mem_cons_self))
      fun e he => hs e (List.mem_cons_of_mem _ (List.mem_append_left _ he))
    rw [List.append_assoc] at hnext
    exact hnext

theorem findSmallest_zero {v : Option (Nat × Nat)} : findSmallest c nb (v, 0) t = (v, 0) := by
  have hkeep : ∀ s ring, Bins.consider c nb (v, 0) s ring = (v, 0) := fun s ring => if_neg (Nat.not_lt_zero _)
  induction t using spine.induct with
  | case1 => rfl
  | case2 k v' r ih => rw [Bins.findSmallest, hkeep, ih]
  | case3 k v' k' v'' l' r' r ih => rw [Bins.findSmallest, hkeep, ih]

/-- The traversal has seen the way to the size. Either it found a node of that size, or it goes on in
the deepest subtree to the right of the way. -/
theorem Chosen.traverse (h : Chosen c nb seen best) (d : Nat) (rst : Trie Nat Ring) (hnb : nb < modulus c)
    (hpos : 0 < best.2) (hs : ∀ e ∈ t.entries, e.1 < modulus c) :
    Chosen c nb (seen ++ path (treeDigit c i) nb d t) (traverse c i nb d t best rst).1 ∧
      ((traverse c i nb d t best rst).1.2 = 0 ∨
        (traverse c i nb d t best rst).2 = match beyond (treeDigit c i) nb d t with
          | .nil => rst
          | t' => t') := by
  induction t generalizing d seen best rst with
  | nil =>
    rw [path, List.append_nil]
    exact ⟨h, .inr rfl⟩
  | node k v l r ihl ihr =>
    have hk : k < modulus c := hs (k, v) List.mem_cons_self
    have hnext := h.consider hnb v hk
    rw [Bins.traverse, path, Trie.beyond]
    by_cases heq : k = nb
    · have htrem : trem c nb k = 0 := by
        rw [trem_of_le hk heq.ge]
        omega
      rw [if_pos heq, if_pos ⟨by omega, htrem⟩]
      refine ⟨hnext, .inl ?_⟩
      unfold Bins.consider
      rw [if_pos (by omega)]
      exact htrem
    · have hne : ¬ (trem c nb k < best.2 ∧ trem c nb k = 0) := by
        intro hbreak
        have hzero := hbreak.2
        by_cases hle : nb ≤ k
        · rw [trem_of_le hk hle] at hzero
          omega
        · rw [trem_of_lt hnb (by omega)] at hzero
          omega
      have hpos' : 0 < (Bins.consider c nb best k v).2 := by
        unfold Bins.consider
        split
        · exact Nat.pos_of_ne_zero fun hzero => hne ⟨by assumption, hzero⟩
        · exact hpos
      rw [if_neg hne, if_neg heq, if_neg heq]
      by_cases hdig : treeDigit c i nb d
      · rw [if_pos hdig, if_pos hdig, if_pos hdig]
        obtain ⟨hright, hwhere⟩ := ihr hnext (d + 1) rst hpos'
          fun e he => hs e (List.mem_cons_of_mem _ (List.mem_append_right _ he))
        rw [List.append_assoc] at hright
        exact ⟨hright, hwhere⟩
      · rw [if_neg hdig, if_neg hdig, if_neg hdig]
        obtain ⟨hleft, hwhere⟩ := ihl hnext (d + 1) (if r.isNil then rst else r) hpos'
          fun e he => hs e (List.mem_cons_of_mem _ (List.mem_append_left _ he))
        rw [List.append_assoc] at hleft
        refine ⟨hleft, hwhere.imp_right fun hwhere => ?_⟩
        rw [hwhere]
        cases Trie.beyond (treeDigit c i) nb (d + 1) l with
        | nil => cases r <;> rfl
        | node k' v' l' r' => rfl

/-! ## One tree -/

/-- The keys of a treebin are sizes of its index, all below the modulus and held whole. -/
structure Regular (c : Config) (narrow : Bool) (i : Nat) (t : Trie Nat Ring) : Prop where
  placed : Placed (treeDigit c i) 0 t
  keys : ∀ s ∈ t.keys, 2 ^ 8 ≤ s ∧ s < modulus c ∧ FitsIndex narrow s ∧ computeTreeIndex narrow s = i

theorem Regular.sizes (h : Regular c narrow i t) : ∀ e ∈ t.entries, e.1 < modulus c :=
  fun e he => (h.keys e.1 (mem_keys.mpr ⟨e.2, he⟩)).2.1

theorem shares_zero (dig : Nat → Nat → Bool) (k : Nat) (t : Trie Nat Ring) : Shares dig k 0 t :=
  fun _ _ _ h => absurd h (Nat.not_lt_zero _)

/-- Nothing is left over where the best one has just the size. -/
theorem Chosen.exact (h : Chosen c nb seen best) (hnb : nb < modulus c) (hzero : best.2 = 0) :
    ∃ e ∈ seen, e.1 = nb := by
  cases h with
  | nothing hnone =>
    simp only at hzero
    omega
  | chunk e he hlt hle hleast =>
    simp only at hzero
    exact ⟨e, he, by omega⟩

theorem Chosen.isSome (h : Chosen c nb seen best) (hsome : best.1 ≠ none) : ∃ e ∈ seen, nb ≤ e.1 := by
  cases h with
  | nothing hnone => exact absurd rfl hsome
  | chunk e he hlt hle hleast => exact ⟨e, he, hle⟩

theorem Chosen.eq_some (h : Chosen c nb seen best) {e : Nat × Nat} (he : best.1 = some e) :
    nb ≤ e.2 ∧ ∃ ring, (e.2, ring) ∈ seen ∧ e.1 = ring.1 := by
  cases h with
  | nothing hnone => cases he
  | chunk e' he' hlt hle hleast =>
    obtain rfl := Option.some.inj he
    exact ⟨hle, e'.2, he', rfl⟩

theorem Chosen.isNone (h : Chosen c nb seen best) (hnone : best.1 = none) :
    best = (none, modulus c - nb) ∧ ∀ e ∈ seen, e.1 < nb := by
  cases h with
  | nothing hlt => exact ⟨rfl, hlt⟩
  | chunk e he hlt hle hleast => cases hnone

/-- Nodes that are no better than some that were seen need not be looked at. -/
theorem Chosen.extend (h : Chosen c nb seen best) (hsub : ∀ e ∈ seen, e ∈ seen')
    (hcover : ∀ e ∈ seen', nb ≤ e.1 → ∃ e' ∈ seen, nb ≤ e'.1 ∧ e'.1 ≤ e.1) : Chosen c nb seen' best := by
  cases h with
  | nothing hnone =>
    refine .nothing fun e he => Nat.lt_of_not_le fun hge => ?_
    obtain ⟨e', he', hge', -⟩ := hcover e he hge
    exact absurd (hnone e' he') (Nat.not_lt_of_le hge')
  | chunk e he hlt hle hleast =>
    refine .chunk e (hsub e he) hlt hle fun e' he' hge => ?_
    obtain ⟨e'', he'', hge'', hle''⟩ := hcover e' he' hge
    exact (hleast e'' he'' hge'').trans hle''

/-- Where all chunks of a tree are large enough, the way down to the left has the best one. -/
theorem Regular.findSmallest (h : Regular c narrow i t) (hnb : nb < modulus c)
    (hge : ∀ s ∈ t.keys, nb ≤ s) (hc : Chosen c nb seen best) (hseen : ∀ e ∈ seen, e.1 < nb) :
    Chosen c nb (seen ++ t.entries) (Bins.findSmallest c nb best t) := by
  refine (hc.findSmallest hnb h.sizes).extend (fun e he => ?_) fun e he hle => ?_
  · rcases List.mem_append.mp he with he | he
    · exact List.mem_append_left _ he
    · exact List.mem_append_right _ (mem_of_mem_spine he)
  · rcases List.mem_append.mp he with he | he
    · exact absurd hle (Nat.not_le_of_lt (hseen e he))
    · obtain ⟨e', he', hle'⟩ := h.placed.spine_le (ordered_of_index h.keys) (shares_zero _ 0 t) e.1
        (mem_keys.mpr ⟨e.2, he⟩)
      exact ⟨e', List.mem_append_right _ he',
        hge e'.1 (mem_keys.mpr ⟨e'.2, mem_of_mem_spine he'⟩), hle'⟩

/-- The traversal of the tree of the size, and of the subtree to the right of the way, finds the best
chunk of the tree. -/
theorem Regular.traverse (h : Regular c narrow i t) (hlow : 2 ^ 8 ≤ nb) (hnb : nb < modulus c)
    (hfits : FitsIndex narrow nb) (hi : computeTreeIndex narrow nb = i) {found : Best × Trie Nat Ring}
    (hfound : Bins.traverse c i nb 0 t (none, (modulus c - nb) % modulus c) .nil = found) :
    Chosen c nb t.entries (Bins.findSmallest c nb found.1 found.2) ∧
      ((found.2.isNil && found.1.1.isNone) = false → ∃ s ∈ t.keys, nb ≤ s) := by
  have hstart : (modulus c - nb) % modulus c = modulus c - nb := Nat.mod_eq_of_lt (by omega)
  have hordered : Ordered (treeDigit c i) (nb :: t.keys) := by
    refine ordered_of_index (List.forall_mem_cons.mpr ⟨?_, h.keys⟩)
    exact ⟨hlow, hnb, hfits, hi⟩
  have hempty : Chosen c nb [] (none, modulus c - nb) := .nothing fun e he => absurd he List.not_mem_nil
  obtain ⟨hpath, hwhere⟩ := hempty.traverse (i := i) (t := t) 0 .nil hnb
    (by simp only; omega) h.sizes
  rw [hstart] at hfound
  rw [List.nil_append] at hpath
  rw [hfound] at hpath hwhere
  have hcover := h.placed.path_le hordered (shares_zero _ nb t)
  obtain ⟨⟨d', key, hplaced, hshares⟩, habove⟩ := h.placed.beyond hordered (shares_zero _ nb t)
  rcases hwhere with hzero | hwhere
  · -- A chunk of exactly that size leaves nothing better to find.
    obtain ⟨e, he, hexact⟩ := hpath.exact hnb hzero
    have hkeep : Bins.findSmallest c nb found.1 found.2 = found.1 := by
      obtain ⟨⟨v, rsize⟩, t'⟩ := found
      simp only at hzero
      rw [hzero, findSmallest_zero]
    rw [hkeep]
    exact ⟨hpath.extend (fun e he => mem_of_mem_path he)
      fun e' _ hge => ⟨e, he, hexact.ge, hexact.le.trans hge⟩,
      fun _ => ⟨e.1, mem_keys.mpr ⟨e.2, mem_of_mem_path he⟩, hexact.ge⟩⟩
  · have hbeyond : found.2 = Trie.beyond (treeDigit c i) nb 0 t := by
      rw [hwhere]
      cases Trie.beyond (treeDigit c i) nb 0 t <;> rfl
    rw [hbeyond]
    have hsizes : ∀ e ∈ (Trie.beyond (treeDigit c i) nb 0 t).entries, e.1 < modulus c :=
      fun e he => h.sizes e (mem_of_mem_beyond he)
    refine ⟨(hpath.findSmallest hnb hsizes).extend (fun e he => ?_) fun e he hge => ?_, fun hsome => ?_⟩
    · rcases List.mem_append.mp he with he | he
      · exact mem_of_mem_path he
      · exact mem_of_mem_beyond (mem_of_mem_spine he)
    · rcases hcover e.1 (mem_keys.mpr ⟨e.2, he⟩) hge with ⟨e', he', hge', hle'⟩ | ⟨k, hk, hle'⟩
      · exact ⟨e', List.mem_append_left _ he', hge', hle'⟩
      · obtain ⟨e', he', hle''⟩ := hplaced.spine_le (hordered.subset fun a ha => by
          obtain ⟨v, hv⟩ := mem_keys.mp ha
          exact List.mem_cons_of_mem _ (mem_keys.mpr ⟨v, mem_of_mem_beyond hv⟩)) hshares k hk
        refine ⟨e', List.mem_append_right _ he', (habove e'.1 ?_).le, hle''.trans hle'⟩
        exact mem_keys.mpr ⟨e'.2, mem_of_mem_spine he'⟩
    · cases ht : Trie.beyond (treeDigit c i) nb 0 t with
      | nil =>
        rw [ht, isNil, Bool.true_and] at hsome
        obtain ⟨e, he, hge⟩ := hpath.isSome fun hnone => by simp [hnone] at hsome
        exact ⟨e.1, mem_keys.mpr ⟨e.2, mem_of_mem_path he⟩, hge⟩
      | node k v l r =>
        have hk : (k, v) ∈ (Trie.beyond (treeDigit c i) nb 0 t).entries := by rw [ht]; simp
        exact ⟨k, mem_keys.mpr ⟨v, mem_of_mem_beyond hk⟩, (habove k (mem_keys.mpr ⟨v, hk⟩)).le⟩

/-! ## All trees -/

/-- The nodes of all treebins. -/
def nodes (b : Bins) : List (Nat × Ring) := (List.range 32).flatMap fun i => (b.treebins i).entries

/-- All chunks in the bins are smaller than the modulus, and their sizes are held whole. -/
def Fits (c : Config) (narrow : Bool) (b : Bins) : Prop :=
  ∀ e ∈ b.entries, e.2 < modulus c ∧ FitsIndex narrow e.2

theorem Sound.mem_nodes (h : Sound c narrow b) {e : Nat × Ring} (he : e ∈ b.nodes) :
    (∀ p ∈ e.2.1 :: e.2.2, (p, e.1) ∈ b.entries) ∧ isSmall e.1 = false ∧
      e ∈ (b.treebins (computeTreeIndex narrow e.1)).entries := by
  obtain ⟨i, hi, he⟩ := List.mem_flatMap.mp he
  obtain ⟨hindex, hlarge⟩ := h.index i e.1 (mem_keys.mpr ⟨e.2, he⟩)
  refine ⟨fun p hp => List.mem_append_right _ (List.mem_flatMap.mpr ⟨i, hi, ?_⟩), hlarge, hindex ▸ he⟩
  exact mem_treeEntries.mpr ⟨e.2, he, hp⟩

theorem Sound.nodes_of_large (h : Sound c narrow b) {p : Nat} (hmem : (p, s) ∈ b.entries)
    (hs : isSmall s = false) : ∃ r, (s, r) ∈ b.nodes ∧ p ∈ r.1 :: r.2 := by
  rw [h.mem_entries, if_neg (by rw [hs]; exact Bool.false_ne_true)] at hmem
  obtain ⟨r, hr, hp⟩ := mem_treeEntries.mp hmem
  exact ⟨r, List.mem_flatMap.mpr ⟨_, List.mem_range.mpr (computeTreeIndex_lt narrow s), hr⟩, hp⟩

theorem Sound.regular (h : Sound c narrow b) (hfits : b.Fits c narrow) (i : Nat) :
    Regular c narrow i (b.treebins i) := by
  refine ⟨h.placed i, fun s hs => ?_⟩
  obtain ⟨hindex, hlarge⟩ := h.index i s hs
  obtain ⟨r, hr⟩ := mem_keys.mp hs
  have hnode : (s, r) ∈ b.nodes :=
    List.mem_flatMap.mpr ⟨i, List.mem_range.mpr (hindex ▸ computeTreeIndex_lt narrow s), hr⟩
  have hentry := hfits (r.1, s) ((h.mem_nodes hnode).1 r.1 List.mem_cons_self)
  rw [← Bool.not_eq_true, isSmall_iff, Nat.not_lt] at hlarge
  exact ⟨hlarge, hentry.1, hentry.2, hindex⟩

/-- The bins are in the order of their sizes. -/
theorem Sound.node_lt (h : Sound c narrow b) (hfits : b.Fits c narrow) {j : Nat} {s s' : Nat}
    (hs : s ∈ (b.treebins i).keys) (hs' : s' ∈ (b.treebins j).keys) (hij : i < j) : s < s' := by
  obtain ⟨hlow, -, hfit, hi⟩ := (h.regular hfits i).keys s hs
  obtain ⟨hlow', -, hfit', hj⟩ := (h.regular hfits j).keys s' hs'
  exact lt_of_index_lt hlow hlow' hfit hfit' (by rw [hi, hj]; exact hij)

theorem bit_iff {m : BitVec 32} {P : Nat → Prop} (h : ∀ i, m.getLsbD i ↔ P i) :
    (m = 0 ↔ ∀ i, ¬ P i) ∧ (m ≠ 0 → P m.ctz.toNat ∧ ∀ j, P j → m.ctz.toNat ≤ j) := by
  refine ⟨?_, fun hne => ⟨(h _).mp (BitVec.getLsbD_true_ctz_of_ne_zero hne), fun j hj => ctz_le ((h j).mpr hj)⟩⟩
  rw [show (0 : BitVec 32) = 0#32 from rfl, eq_zero_iff]
  refine forall_congr' fun i => ?_
  rw [← Bool.not_eq_true, h]

/-- The treemap above a bin. -/
theorem Sound.leftbits (h : Sound c narrow b) (hi : i < 32) (j : Nat) :
    (leftBits (idx2bit i) &&& b.treemap).getLsbD j ↔ i < j ∧ b.treebins j ≠ .nil := by
  rw [BitVec.getLsbD_and, idx2bit, getLsbD_leftBits (ne_zero_of_bit hi), ctz_bit hi, Bool.and_eq_true,
    Bool.and_eq_true, decide_eq_true_eq, decide_eq_true_eq, h.treemap, and_assoc]
  exact and_iff_right_of_imp fun hj => BitVec.lt_of_getLsbD ((h.treemap j).mpr hj.2)

/-- The best chunk of the first bin that has one large enough is the best of all. -/
theorem Sound.chosen_of_first (h : Sound c narrow b) (hfits : b.Fits c narrow) (hi : i < 32)
    (hge : ∃ s ∈ (b.treebins i).keys, nb ≤ s) (hlow : ∀ j, j < i → ∀ s ∈ (b.treebins j).keys, s < nb)
    (hc : Chosen c nb (b.treebins i).entries best) : Chosen c nb b.nodes best := by
  refine hc.extend (fun e he => List.mem_flatMap.mpr ⟨i, List.mem_range.mpr hi, he⟩) fun e he hle => ?_
  obtain ⟨j, -, he⟩ := List.mem_flatMap.mp he
  have hkey := mem_keys.mpr ⟨e.2, he⟩
  rcases Nat.lt_trichotomy j i with hij | rfl | hij
  · exact absurd hle (Nat.not_le_of_lt (hlow j hij e.1 hkey))
  · exact ⟨e, he, hle, le_rfl⟩
  · obtain ⟨k, hk, hkge⟩ := hge
    obtain ⟨v, hv⟩ := mem_keys.mp hk
    exact ⟨(k, v), hv, hkge, (h.node_lt hfits hk hkey hij).le⟩

/-- A bin all of whose chunks are large enough, searched from the start. -/
theorem Sound.chosen_of_bin (h : Sound c narrow b) (hfits : b.Fits c narrow) (hnb : nb < modulus c)
    (hi : i < 32) (hne : b.treebins i ≠ .nil) (hge : ∀ s ∈ (b.treebins i).keys, nb ≤ s)
    (hlow : ∀ j, j < i → ∀ s ∈ (b.treebins j).keys, s < nb) :
    Chosen c nb b.nodes (Bins.findSmallest c nb (none, modulus c - nb) (b.treebins i)) := by
  have hempty : Chosen c nb [] (none, modulus c - nb) := .nothing fun e he => absurd he List.not_mem_nil
  have hexists : ∃ s ∈ (b.treebins i).keys, nb ≤ s := by
    cases ht : b.treebins i with
    | nil => exact absurd ht hne
    | node k v l r => exact ⟨k, by simp, hge k (by rw [ht]; simp)⟩
  exact h.chosen_of_first hfits hi hexists hlow
    ((h.regular hfits i).findSmallest hnb hge hempty fun e he => absurd he List.not_mem_nil)

/-- `tmalloc_large` compares the best chunk of all treebins with the designated victim. -/
theorem Sound.tmallocLarge_eq (h : Sound c narrow b) (hfits : b.Fits c narrow) (hlow : 2 ^ 8 ≤ nb)
    (hnb : nb < modulus c) (hfit : FitsIndex narrow nb) (dvsize : Nat) :
    ∃ best, Chosen c nb b.nodes best ∧
      b.tmallocLarge c narrow nb dvsize = if best.2 < trem c nb dvsize then best.1 else none := by
  have hidx := computeTreeIndex_lt narrow nb
  have hbefore : ∀ j, j < computeTreeIndex narrow nb → ∀ s ∈ (b.treebins j).keys, s < nb := by
    intro j hj s hs
    obtain ⟨hlow', -, hfit', hindex⟩ := (h.regular hfits j).keys s hs
    exact lt_of_index_lt hlow' hlow hfit' hfit (by rw [hindex]; exact hj)
  have hbehind : ∀ j, computeTreeIndex narrow nb < j → ∀ s ∈ (b.treebins j).keys, nb ≤ s := by
    intro j hj s hs
    obtain ⟨hlow', -, hfit', hindex⟩ := (h.regular hfits j).keys s hs
    exact (lt_of_index_lt hlow hlow' hfit hfit' (by rw [hindex]; exact hj)).le
  refine ⟨_, ?_, rfl⟩
  generalize hfound : Bins.traverse c (computeTreeIndex narrow nb) nb 0
    (b.treebins (computeTreeIndex narrow nb)) (none, (modulus c - nb) % modulus c) .nil = found
  obtain ⟨htree, hexists⟩ := (h.regular hfits _).traverse hlow hnb hfit rfl hfound
  cases hempty : found.2.isNil && found.1.1.isNone with
  | false =>
    rw [if_neg Bool.false_ne_true]
    exact h.chosen_of_first hfits hidx (hexists hempty) hbefore htree
  | true =>
    obtain ⟨hnil, hnone⟩ := Bool.and_eq_true_iff.mp hempty
    have ht : found.2 = .nil := by
      cases hf : found.2 with
      | nil => rfl
      | node k v l r => rw [hf] at hnil; cases hnil
    rw [ht] at htree
    obtain ⟨hbest, hsmall⟩ := htree.isNone (Option.isNone_iff_eq_none.mp hnone)
    have hbest : found.1 = (none, modulus c - nb) := hbest
    have hown : ∀ s ∈ (b.treebins (computeTreeIndex narrow nb)).keys, s < nb := by
      intro s hs
      obtain ⟨r, hr⟩ := mem_keys.mp hs
      exact hsmall (s, r) hr
    obtain ⟨hzero, hleast⟩ := bit_iff (h.leftbits hidx)
    rw [if_pos rfl, hbest]
    simp only
    split
    · next hbits =>
      refine .nothing fun e he => ?_
      obtain ⟨j, -, he⟩ := List.mem_flatMap.mp he
      have hkey := mem_keys.mpr ⟨e.2, he⟩
      rcases Nat.lt_trichotomy j (computeTreeIndex narrow nb) with hij | rfl | hij
      · exact hbefore j hij e.1 hkey
      · exact hown e.1 hkey
      · refine absurd ⟨hij, fun hnil => ?_⟩ (hzero.mp hbits j)
        rw [hnil] at he
        cases he
    · next hbits =>
      obtain ⟨⟨hgt, hne⟩, hfirst⟩ := hleast hbits
      rw [ctz_leastBit hbits]
      refine h.chosen_of_bin hfits hnb (ctz_lt hbits) hne (hbehind _ hgt) fun j hj s hs => ?_
      rcases Nat.lt_trichotomy j (computeTreeIndex narrow nb) with hij | rfl | hij
      · exact hbefore j hij s hs
      · exact hown s hs
      · refine absurd (hfirst j ⟨hij, fun hnil => ?_⟩) (Nat.not_le_of_lt hj)
        rw [hnil] at hs
        cases hs

end Turf.HeapDL.Bins
