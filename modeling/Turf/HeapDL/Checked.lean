import Turf.HeapDL.Checks

/-!
# The debugging checks pass

What the bins, the designated victim, `top` and the chunks of the segments are checked for is part of the
invariant or follows from it.
-/
namespace Turf.HeapDL

open Turf.Lib.BitMaps Turf.Lib.DigitalTree Turf.Lib.DigitalTree.Trie Turf.Lib.Extents Turf.Lib.Schedule

variable {c : Config} {narrow : Bool} {h : Heap} {m : MallocState} {b : Bins} {p s i d : Nat} {st : Site} {s' : Segment}

/-! ## Finding chunks -/

theorem chunkAt_eq (w : WF c m) (hin : st.In m) : m.chunkAt st.address = some st :=
  find_eq w hin (by simp) fun q _ hq => by simpa using hq

theorem Bins.Sound.binFind_iff (hs : b.Sound c narrow) (h8 : 8 ∣ s) :
    b.binFind c narrow p s = true ↔ (p, s) ∈ b.entries := by
  rw [hs.mem_entries, Bins.binFind]
  split
  · next hsmall =>
    have hi := smallIndex_lt hsmall
    simp only [ne_eq, Bool.and_eq_true, decide_eq_true_eq, marked_iff hi, not_not, hs.smallmap]
    constructor
    · rintro ⟨-, hmem⟩
      obtain ⟨⟨q, n⟩, he, rfl⟩ := List.mem_map.mp hmem
      have hn := hs.small _ _ he
      have hn : n = s := by
        unfold smallIndex2size smallIndex at hn
        simp only at hn
        omega
      exact hn ▸ he
    · intro he
      exact ⟨List.ne_nil_of_mem he, List.mem_map_of_mem he⟩
  · have hi := computeTreeIndex_lt narrow s
    simp only [ne_eq, Bool.and_eq_true, decide_eq_true_eq, marked_iff hi, not_not, hs.treemap,
      Option.any_eq_true, mem_treeEntries]
    constructor
    · rintro ⟨-, r, hr, hp⟩
      exact ⟨r, (hs.placed _).find?_eq_some.mp hr, hp⟩
    · rintro ⟨r, hr, hp⟩
      refine ⟨fun hnil => ?_, r, (hs.placed _).find?_eq_some.mpr hr, hp⟩
      rw [hnil] at hr
      cases hr

/-! ## One chunk -/

theorem checkAnyChunk_of (hp : mallocAlignment c ∣ p) (hle : m.leastAddr ≤ p) : m.checkAnyChunk c p = true := by
  have hmem := Nat.mod_eq_zero_of_dvd (chunk2mem_dvd hp)
  simp [MallocState.checkAnyChunk, hmem, hle]

theorem Heap.Inv.checkAnyChunk (inv : h.Inv c narrow) (hin : st.In h.m) :
    h.m.checkAnyChunk c st.address = true := by
  have hleast := (hin.sound inv.wf).least
  have hbase := (hin.bounds inv.wf).1
  exact checkAnyChunk_of (inv.address_dvd hin) (by omega)

/-- The chunk before a free one is in use. -/
theorem last_inuse {l : List Chunk} (hl : Spaced (l.map Chunk.isInuse ++ [false])) :
    l.getLast?.all Chunk.isInuse = true := by
  cases hlast : l.getLast? with
  | none => rfl
  | some prev =>
    rw [← List.dropLast_append_getLast? prev hlast, List.map_append, List.append_assoc] at hl
    have hpair := hl.right
    cases hprev : prev.isInuse with
    | true => exact hprev
    | false =>
      rw [List.map_singleton, hprev] at hpair
      exact absurd hpair not_spaced_false_false

/-- A free chunk has chunks in use around it. -/
theorem Neat.around (hn : Neat c m) (hin : st.In m) (hfree : st.chunk.isInuse = false) :
    (st.left.getLast?).all Chunk.isInuse = true ∧ (m.nextCell st).isInuse = true := by
  obtain ⟨-, -, hspaced⟩ := hn.site hin
  rw [hfree, spaced_append_false] at hspaced
  refine ⟨last_inuse hspaced.1, ?_⟩
  have hnext := hspaced.2
  unfold MallocState.nextCell
  cases hr : st.right with
  | nil =>
    rw [hr] at hnext
    simp only
    split
    · next h0 =>
      rw [h0] at hnext
      exact absurd hnext not_spaced_false_false
    · rfl
  | cons x right =>
    rw [hr, List.map_cons, List.cons_append] at hnext
    cases hx : x.isInuse with
    | true => exact hx
    | false =>
      rw [hx] at hnext
      exact absurd hnext not_spaced_false_false

theorem all_chunk (l : Option Chunk) : (l.map Cell.chunk).all Cell.isInuse = l.all Chunk.isInuse := by
  cases l <;> rfl

theorem Heap.Inv.checkFreeChunk (inv : h.Inv c narrow) (hin : st.In h.m) (hfree : st.chunk.isInuse = false) :
    h.m.checkFreeChunk c st.address (st.left.getLast?.map .chunk) (.chunk st.chunk) (h.m.nextCell st) = true := by
  obtain ⟨hprev, hnext⟩ := inv.neat.around hin hfree
  obtain ⟨-, hdvd, -⟩ := inv.neat.site hin
  have hmin := hin.size_ge inv.wf
  have hmod := Nat.mod_eq_zero_of_dvd hdvd
  have hcell : Cell.isInuse (.chunk st.chunk) = st.chunk.isInuse := rfl
  have hsize : Cell.size c (.chunk st.chunk) = st.chunk.size := rfl
  simp [MallocState.checkFreeChunk, inv.checkAnyChunk hin, hcell, hfree, hsize, hmin, hmod, all_chunk, hprev, hnext]

/-! ## Bins -/

theorem Heap.Inv.checkSmallChunk (inv : h.Inv c narrow) {e : Nat × Nat} (he : e ∈ h.bins.smallbins i)
    {bk : Option Nat} (hbk : bk.all (· = e.2) = true) : h.checkSmallChunk c i e.1 bk = true := by
  have hi : i < 32 := inv.sound.smallbin_lt (List.ne_nil_of_mem he)
  have hmem : e ∈ h.bins.entries :=
    List.mem_append_left _ (List.mem_flatMap.mpr ⟨i, List.mem_range.mpr hi, he⟩)
  obtain ⟨st, -, hin, hbin, haddr, hsize⟩ := inv.binned_site hmem
  have hfree := isInuse_of_isBinned hbin
  have hindex : smallIndex st.chunk.size = i := by
    rw [hsize, inv.sound.small i e he, smallIndex2size, smallIndex, Nat.mul_div_cancel _ (by decide)]
  have hnext := (inv.neat.around hin hfree).2
  have hafter : h.m.checkAnyChunk c (e.1 + st.chunk.size) = true := by
    obtain ⟨-, hdvd, -⟩ := inv.neat.site hin
    have hleast := (hin.sound inv.wf).least
    have hbase := (hin.bounds inv.wf).1
    exact checkAnyChunk_of (haddr ▸ Nat.dvd_add (inv.address_dvd hin) hdvd) (by omega)
  have hat := chunkAt_eq inv.wf hin
  have hcheck := inv.checkFreeChunk hin hfree
  rw [haddr] at hat hcheck
  rw [← hsize] at hbk
  simp [Heap.checkSmallChunk, hat, hcheck, hindex, hbk, MallocState.checkInuseChunk, hafter, hnext]

theorem Heap.Inv.checkSmallChunks (inv : h.Inv c narrow) {es : List (Nat × Nat)}
    (hes : ∀ e ∈ es, e ∈ h.bins.smallbins i) : h.checkSmallChunks c i es = true := by
  induction es using Heap.checkSmallChunks.induct with
  | case1 => rfl
  | case2 e => exact inv.checkSmallChunk (hes e (by simp)) rfl
  | case3 e e' rest ih =>
    have he := hes e (by simp)
    have he' := hes e' (by simp)
    have hsame : e'.2 = e.2 := (inv.sound.small i e' he').trans (inv.sound.small i e he).symm
    rw [Heap.checkSmallChunks, ih fun x hx => hes x (List.mem_cons_of_mem _ hx), Bool.and_true]
    refine inv.checkSmallChunk he ?_
    have hi : i < 32 := inv.sound.smallbin_lt (List.ne_nil_of_mem he')
    have hmem : e' ∈ h.bins.entries :=
      List.mem_append_left _ (List.mem_flatMap.mpr ⟨i, List.mem_range.mpr hi, he'⟩)
    obtain ⟨st, -, hin, -, haddr, hsize⟩ := inv.binned_site hmem
    rw [← haddr, chunkAt_eq inv.wf hin]
    simp [hsize, hsame]

theorem Heap.Inv.checkSmallbin (inv : h.Inv c narrow) (hi : i < 32) : h.checkSmallbin c i = true := by
  have hmap := inv.sound.smallmap i
  unfold Heap.checkSmallbin
  simp only [Bool.and_eq_true, Bool.or_eq_true, decide_eq_true_eq, marked_iff hi]
  refine ⟨?_, .inr (inv.checkSmallChunks fun e he => List.mem_reverse.mp he)⟩
  by_cases hnil : h.bins.smallbins i = []
  · exact .inr fun hbit => (hmap.mp hbit) hnil
  · exact .inl hnil

theorem Heap.Inv.checkRing (inv : h.Inv c narrow) {e : Nat × Ring} (he : e ∈ h.bins.nodes) :
    h.checkRing c e.1 e.2 = true := by
  refine List.all_eq_true.mpr fun u hu => ?_
  obtain ⟨st, -, hin, hbin, haddr, hsize⟩ := inv.binned_site ((inv.sound.mem_nodes he).1 u hu)
  have hat := chunkAt_eq inv.wf hin
  have hcheck := inv.checkAnyChunk hin
  rw [haddr] at hat hcheck
  simp only at hsize hat hcheck
  simp [hat, hcheck, hsize, isInuse_of_isBinned hbin]

/-- What `do_check_tree` asserts of a size and its index. -/
theorem index_bounds (hs : isSmall s = false) (hfits : FitsIndex narrow s) :
    minLargeSize ≤ s ∧ minsizeForTreeIndex (computeTreeIndex narrow s) ≤ s ∧
      (computeTreeIndex narrow s = 31 ∨ s < minsizeForTreeIndex (computeTreeIndex narrow s + 1)) := by
  have hlarge : 2 ^ 8 ≤ s := by
    rw [← Bool.not_eq_true, isSmall_iff, Nat.not_lt] at hs
    exact hs
  rw [hfits.index_eq]
  refine ⟨hlarge, minsize_le hlarge, ?_⟩
  by_cases hi : computeTreeIndex false s = 31
  · exact .inl hi
  · exact .inr (lt_minsize hlarge hi)

theorem Heap.Inv.checkTree (inv : h.Inv c narrow) (hfits : h.bins.Fits c narrow) {t : Trie Nat Ring} {key : Nat}
    (ht : ∀ e ∈ t.entries, e ∈ h.bins.nodes) (hi : ∀ k ∈ t.keys, computeTreeIndex narrow k = i)
    (hp : Placed (treeDigit c i) d t) (ho : Ordered (treeDigit c i) t.keys) (hs : Shares (treeDigit c i) key d t) :
    h.checkTree c narrow i t = true := by
  induction t generalizing d key with
  | nil => rfl
  | node tsize r left right ihl ihr =>
    have hnode : (tsize, r) ∈ h.bins.nodes := ht _ (by simp)
    obtain ⟨hmem, hlarge, -⟩ := inv.sound.mem_nodes hnode
    have hfit : FitsIndex narrow tsize := (hfits _ (hmem r.1 List.mem_cons_self)).2
    obtain ⟨hmin, hge, hlt⟩ := index_bounds hlarge hfit
    have hindex := hi tsize (by simp)
    have hbetween := hp.lt_of_ordered ho hs
    obtain ⟨hleft, hright, hpl, hpr⟩ := hp
    have hkeys : ∀ a, a ∈ left.keys ∨ a ∈ right.keys → a ∈ (Trie.node tsize r left right).keys := by simp +contextual
    have hl : h.checkTree c narrow i left = true := by
      cases hleftTree : left with
      | nil => rfl
      | node k v l r' =>
        rw [← hleftTree]
        have hk : k ∈ left.keys := by simp [hleftTree]
        exact ihl (fun e he => ht e (by simp [he])) (fun a ha => hi a (hkeys a (.inl ha))) hpl
          (ho.subset fun a ha => hkeys a (.inl ha))
          (Shares.left ⟨hleft, hright, hpl, hpr⟩ (hs.trans (hkeys k (.inl hk))) (hleft k hk).2)
    have hr : h.checkTree c narrow i right = true := by
      cases hrightTree : right with
      | nil => rfl
      | node k v l r' =>
        rw [← hrightTree]
        have hk : k ∈ right.keys := by simp [hrightTree]
        exact ihr (fun e he => ht e (by simp [he])) (fun a ha => hi a (hkeys a (.inr ha))) hpr
          (ho.subset fun a ha => hkeys a (.inr ha))
          (Shares.right ⟨hleft, hright, hpl, hpr⟩ (hs.trans (hkeys k (.inr hk))) (hright k hk).2)
    have hring := inv.checkRing hnode
    simp only at hring hmin hge hlt
    simp only [Heap.checkTree, Bool.and_eq_true, decide_eq_true_eq, Bool.or_eq_true]
    refine ⟨⟨⟨⟨⟨⟨⟨hindex.symm, hmin⟩, hge⟩, hlt⟩, hring⟩, hl⟩, hr⟩, ?_⟩
    cases left with
    | nil => rfl
    | node k _ _ _ =>
      cases right with
      | nil => rfl
      | node k' _ _ _ => exact decide_eq_true (hbetween k (by simp) k' (by simp))

theorem Heap.Inv.checkTreebin (inv : h.Inv c narrow) (hfits : h.bins.Fits c narrow) (hi : i < 32) :
    h.checkTreebin c narrow i = true := by
  have hmap := inv.sound.treemap i
  have hnodes : ∀ e ∈ (h.bins.treebins i).entries, e ∈ h.bins.nodes :=
    fun e he => List.mem_flatMap.mpr ⟨i, List.mem_range.mpr hi, he⟩
  have hindex : ∀ k ∈ (h.bins.treebins i).keys, computeTreeIndex narrow k = i :=
    fun k hk => (inv.sound.index i k hk).1
  have hordered : Ordered (treeDigit c i) (h.bins.treebins i).keys := by
    have hkeys : ∀ k ∈ (h.bins.treebins i).keys, 2 ^ 8 ≤ k ∧ k < modulus c ∧
        FitsIndex narrow k ∧ computeTreeIndex narrow k = i := by
      intro k hk
      obtain ⟨r, hr⟩ := mem_keys.mp hk
      obtain ⟨hmem, hlarge, -⟩ := inv.sound.mem_nodes (hnodes _ hr)
      obtain ⟨hlt, hfit⟩ := hfits _ (hmem r.1 List.mem_cons_self)
      rw [← Bool.not_eq_true, isSmall_iff, Nat.not_lt] at hlarge
      exact ⟨hlarge, hlt, hfit, hindex k hk⟩
    exact ordered_of_index hkeys
  have hshares : Shares (treeDigit c i) 0 0 (h.bins.treebins i) := fun k _ j hj => absurd hj (Nat.not_lt_zero j)
  have htree := inv.checkTree hfits hnodes hindex (inv.sound.placed i) hordered hshares
  unfold Heap.checkTreebin
  simp only [Bool.and_eq_true, Bool.or_eq_true, decide_eq_true_eq, marked_iff hi, htree, and_true]
  cases ht : h.bins.treebins i with
  | nil =>
    refine ⟨.inr fun hbit => ?_, .inl fun hbit => ?_⟩ <;> exact (hmap.mp hbit) ht
  | node k v l r => exact ⟨.inl rfl, .inr rfl⟩

/-! ## What no bin holds -/

theorem Heap.Inv.mem_entries_iff (inv : h.Inv c narrow) (hin : st.In h.m) :
    (st.address, st.chunk.size) ∈ h.bins.entries ↔ st.chunk.isBinned = true := by
  refine ⟨fun he => ?_, inv.mem_entries hin⟩
  obtain ⟨st', -, hin', hbin, haddr, -⟩ := inv.binned_site he
  rwa [← hin'.unique hin inv.wf haddr]

theorem Heap.Inv.binFind_chunk (inv : h.Inv c narrow) (hin : st.In h.m) :
    h.bins.binFind c narrow st.address st.chunk.size = st.chunk.isBinned := by
  obtain ⟨-, hdvd, -⟩ := inv.neat.site hin
  rw [Bool.eq_iff_iff, inv.sound.binFind_iff ((mallocAlignment_dvd c).1.trans hdvd), inv.mem_entries_iff hin]

theorem trailer_not_extent (w : WF c m) {s : Segment} (hi : m.segs[i]? = some s) {mark : Chunk → Bool} {n : Nat} :
    (s.trailer, n) ∉ m.extents mark := by
  intro hmem
  obtain ⟨t, ht, hbase, hle, hmin⟩ := mem_extents_bounds w hmem
  obtain ⟨j, hj⟩ := List.getElem?_of_mem ht
  have hfoot := (w.sound s (List.mem_of_getElem? hi)).foot
  have hfoot' := (w.sound t ht).foot
  have hc := constants c
  have hpos := minChunkSize_pos c
  unfold Segment.trailer at hbase hle
  simp only at hbase hle hmin
  by_cases hij : j = i
  · subst hij
    obtain rfl : t = s := Option.some.inj (hj.symm.trans hi)
    omega
  · have hap := w.apart_of hi hj hij
    unfold Apart Segment.extent at hap
    simp only at hap
    omega

theorem Heap.Inv.binFind_trailer (inv : h.Inv c narrow) {s : Segment} (hi : h.m.segs[i]? = some s) {n : Nat}
    (h8 : 8 ∣ n) : h.bins.binFind c narrow s.trailer n = false := by
  rw [← Bool.not_eq_true, inv.sound.binFind_iff h8, inv.linked.mem_iff]
  exact trailer_not_extent inv.wf hi

theorem Heap.Inv.checkAny_trailer (inv : h.Inv c narrow) {s : Segment} (hi : h.m.segs[i]? = some s) :
    h.m.checkAnyChunk c s.trailer = true := by
  have hneat := inv.neat.segs i s hi
  have hleast := (inv.wf.sound s (List.mem_of_getElem? hi)).least
  refine checkAnyChunk_of (Nat.dvd_add ((mallocAlignment_dvd c).2.2.trans hneat.aligned) (total_dvd hneat.sizes)) ?_
  unfold Segment.trailer
  omega

theorem top_eq (hi : m.segs[0]? = some s') : m.top = s'.trailer := by
  cases hs : m.segs with
  | nil => simp [hs] at hi
  | cons s₀ others =>
    obtain rfl : s₀ = s' := by simpa [hs] using hi
    simp [MallocState.top, hs]

theorem Heap.Inv.checkTop (inv : h.Inv c narrow) (htop : h.m.top ≠ 0) :
    h.m.checkTopChunk c = true ∧ h.bins.binFind c narrow h.m.top h.m.topsize = false := by
  cases hs : h.m.segs with
  | nil =>
    rw [MallocState.top, hs] at htop
    exact absurd rfl htop
  | cons s others =>
    have hi : h.m.segs[0]? = some s := by rw [hs]; rfl
    have htrail := top_eq hi
    obtain ⟨hsize, hpos⟩ := inv.neat.top s (by rw [hs]; rfl)
    have hneat := inv.neat.segs 0 s hi
    have hc := constants c
    have hgran : mallocAlignment c ∣ h.m.topsize := by
      have hdvd := (mallocAlignment_dvd c).2.2.trans hneat.granular
      have hfoot : mallocAlignment c ∣ topFootSize c := by
        rcases hc with ⟨-, -, ha, -, -, -, -, hf, -⟩ | ⟨-, -, ha, -, -, -, -, hf, -⟩ <;> rw [ha, hf] <;> decide
      have htotal : mallocAlignment c ∣ s.total := total_dvd hneat.sizes
      rw [← hsize] at hdvd
      exact (Nat.dvd_add_right htotal).mp ((Nat.dvd_add_left hfoot).mp hdvd)
    rw [htrail]
    refine ⟨?_, inv.binFind_trailer hi ((mallocAlignment_dvd c).1.trans hgran)⟩
    have hholds : s.holds s.trailer := by
      unfold Segment.holds Segment.trailer
      omega
    have hlast := last_inuse hneat.spaced
    have hfit : h.m.topsize = s.base + s.size - s.trailer - topFootSize c := by
      unfold Segment.trailer
      omega
    unfold MallocState.checkTopChunk
    rw [htrail, hs, List.find?_cons_of_pos (by simpa using hholds)]
    simp [inv.checkAny_trailer hi, hpos, hlast, ← hfit]

theorem Heap.Inv.dvAddress_eq (inv : h.Inv c narrow) (hin : st.In h.m) (hdv : st.chunk.isDv = true) :
    h.m.dvAddress = st.address := by
  have hmem : (st.address, st.chunk.size) ∈ h.m.extents Chunk.isDv := mem_extents.mpr ⟨st, hin, hdv, rfl, rfl⟩
  unfold MallocState.dvAddress
  rcases inv.neat.dv_cases with ⟨-, he⟩ | ⟨st', hst', -, -, he⟩
  · rw [he] at hmem
    cases hmem
  · rw [he, List.mem_singleton] at hmem
    rw [hst']
    exact (Prod.mk.inj hmem).1.symm

theorem Heap.Inv.checkDv (inv : h.Inv c narrow) (hdv : h.m.dvsize ≠ 0) :
    h.m.checkAnyChunk c h.m.dvAddress = true ∧ minChunkSize c ≤ h.m.dvsize ∧
      h.bins.binFind c narrow h.m.dvAddress h.m.dvsize = false := by
  rcases inv.neat.dv_cases with ⟨hnone, -⟩ | ⟨st, hst, hin, hsel, -⟩
  · rw [MallocState.dvsize, hnone] at hdv
    exact absurd rfl hdv
  · rw [inv.dvAddress_eq hin hsel, MallocState.dvsize, hst]
    refine ⟨inv.checkAnyChunk hin, hin.size_ge inv.wf, ?_⟩
    rw [inv.binFind_chunk hin]
    have hstate : st.chunk.state = .dv := of_decide_eq_true hsel
    simp [Chunk.isBinned, hstate]

/-! ## The traversal -/

/-- What follows the chunks of a segment. -/
def MallocState.behindCells (c : Config) (m : MallocState) (s : Segment) (i : Nat) : List Cell :=
  if i = 0 then [.top m.topsize] else .record :: fenceposts c s

/-- What the traversal of a segment adds up to. -/
def Segment.walked (c : Config) (si : Segment × Nat) : Nat :=
  si.1.total + if si.2 = 0 then 0 else segmentRecordSize c

variable {s : Segment}

theorem Heap.Inv.traverse_behind (inv : h.Inv c narrow) (hi : h.m.segs[i]? = some s) (lastq : Option Cell) :
    h.traverseFrom c narrow s s.trailer lastq (h.m.behindCells c s i) =
      some (if i = 0 then 0 else segmentRecordSize c) := by
  unfold MallocState.behindCells
  split
  · next h0 =>
    subst h0
    rw [Heap.traverseFrom, if_neg (by simp [top_eq hi])]
  · next h0 =>
    have hfoot := (inv.wf.sound s (List.mem_of_getElem? hi)).foot
    have hc := constants c
    have hholds : s.holds s.trailer := by
      unfold Segment.holds Segment.trailer
      omega
    have hnotop : s.trailer ≠ h.m.top := fun heq => h0 (top_in_first inv.wf hi (heq ▸ hholds))
    have h8 : 8 ∣ segmentRecordSize c := by
      rcases hc with ⟨-, -, -, -, -, -, hr, -⟩ | ⟨-, -, -, -, -, -, hr, -⟩ <;> rw [hr] <;> decide
    have hsize : Cell.size c .record = segmentRecordSize c := rfl
    have hcheck : ∀ next, h.checkCell c narrow s.trailer lastq .record next = true := by
      intro next
      simp [Heap.checkCell, Cell.isInuse, hsize, inv.binFind_trailer hi h8, MallocState.checkInuseChunk,
        inv.checkAny_trailer hi]
    have hfence : ∀ q lastq, h.traverseFrom c narrow s q lastq (fenceposts c s) = some 0 := by
      intro q lastq
      rw [fenceposts, Nat.add_comm 1, List.replicate_succ, Heap.traverseFrom, if_neg (by simp)]
    rw [Heap.traverseFrom, if_pos ⟨hholds, hnotop, by simp⟩, if_pos (hcheck _), hfence]
    rfl

theorem Heap.Inv.traverse_chunks (inv : h.Inv c narrow) (hi : h.m.segs[i]? = some s) (left right : List Chunk)
    (hs : s.chunks = left ++ right) :
    h.traverseFrom c narrow s (s.base + total Chunk.size left) (left.getLast?.map .chunk)
        (right.map .chunk ++ h.m.behindCells c s i) =
      some (total Chunk.size right + if i = 0 then 0 else segmentRecordSize c) := by
  induction right generalizing left with
  | nil =>
    rw [List.append_nil] at hs
    have htrail : s.base + total Chunk.size left = s.trailer := by rw [Segment.trailer, Segment.total, hs]
    rw [htrail, List.map_nil, List.nil_append, inv.traverse_behind hi, total_nil, Nat.zero_add]
  | cons x right ih =>
    have hin : Site.In ⟨i, s, left, x, right⟩ h.m := ⟨hi, hs⟩
    have hbounds := hin.bounds inv.wf
    have hc := constants c
    have haddr : Site.address ⟨i, s, left, x, right⟩ = s.base + total Chunk.size left := rfl
    rw [haddr] at hbounds
    simp only at hbounds
    have hholds : s.holds (s.base + total Chunk.size left) := ⟨by omega, by omega⟩
    have hpos := minChunkSize_pos c
    have hnotop : s.base + total Chunk.size left ≠ h.m.top := by
      intro heq
      have h0 := top_in_first inv.wf hi (heq ▸ hholds)
      subst h0
      rw [top_eq hi, Segment.trailer, Segment.total, hs, total_append, total_cons] at heq
      omega
    have hsize : Cell.size c (.chunk x) = x.size := rfl
    have huse : Cell.isInuse (.chunk x) = x.isInuse := rfl
    have hnext : (right.map Cell.chunk ++ h.m.behindCells c s i).head? =
        some (h.m.nextCell ⟨i, s, left, x, right⟩) := by
      unfold MallocState.nextCell MallocState.behindCells
      cases right with
      | nil => simp only [List.map_nil, List.nil_append]; split <;> rfl
      | cons y right => rfl
    have hfind := inv.binFind_chunk hin
    have hany := inv.checkAnyChunk hin
    rw [haddr] at hfind hany
    have hcheck : h.checkCell c narrow (s.base + total Chunk.size left) (left.getLast?.map .chunk) (.chunk x)
        (right.map Cell.chunk ++ h.m.behindCells c s i).head? = true := by
      unfold Heap.checkCell
      rw [hnext, huse, hsize, hfind]
      cases hx : x.isInuse with
      | true => simp [isBinned_of_isInuse hx, MallocState.checkInuseChunk, hany, huse, hx]
      | false =>
        have hfree := inv.checkFreeChunk hin hx
        obtain ⟨hprev, -⟩ := inv.neat.around hin hx
        rw [haddr] at hfree
        simp only at hfree hprev
        have hbinned : (s.base + total Chunk.size left = h.m.dvAddress) ∨ x.isBinned = true := by
          rcases x.cases with hcase | hcase | hcase
          · rw [hcase] at hx
            cases hx
          · rw [hcase]
            exact .inr rfl
          · have hdv := inv.dvAddress_eq hin (by rw [hcase]; rfl)
            exact .inl hdv.symm
        simp [hbinned, all_chunk, hprev, hfree]
    have hlast : (left ++ [x]).getLast?.map Cell.chunk = some (.chunk x) := by simp
    have hrest := ih (left ++ [x]) (by rw [hs, List.append_assoc]; rfl)
    rw [hlast, total_append, total_cons, total_nil, Nat.add_zero, ← Nat.add_assoc] at hrest
    rw [List.map_cons, List.cons_append, Heap.traverseFrom, if_pos ⟨hholds, hnotop, by simp⟩, if_pos hcheck, hsize,
      hrest, Option.map_some, total_cons, Nat.add_assoc]

theorem Heap.Inv.traverse_segments (inv : h.Inv c narrow) {l : List (Segment × Nat)}
    (hl : ∀ si ∈ l, h.m.segs[si.2]? = some si.1) :
    h.traverseSegments c narrow l = some (total (Segment.walked c) l) := by
  induction l with
  | nil => rfl
  | cons si l ih =>
    obtain ⟨s, i⟩ := si
    obtain ⟨hi, hl⟩ := List.forall_mem_cons.mp hl
    have hchunks := inv.traverse_chunks hi [] s.chunks rfl
    have hcells : h.m.cells c s i = s.chunks.map .chunk ++ h.m.behindCells c s i := rfl
    rw [total_nil, Nat.add_zero, List.getLast?_nil, Option.map_none, ← hcells] at hchunks
    rw [Heap.traverseSegments, hchunks, ih hl, total_cons]
    rfl

/-- The traversal does not find more than the system was asked for. -/
theorem Heap.Inv.walked_le (inv : h.Inv c narrow) (hne : h.m.segs ≠ []) :
    h.m.topsize + topFootSize c + total (Segment.walked c) h.m.segs.zipIdx ≤ h.m.footprint := by
  have hc := constants c
  obtain ⟨s, others, hs⟩ := List.exists_cons_of_ne_nil hne
  obtain ⟨htop, -⟩ := inv.neat.top s (by rw [hs]; rfl)
  have hothers : total (Segment.walked c) (others.zipIdx 1) ≤ total (fun si => si.1.size) (others.zipIdx 1) := by
    refine total_le fun si hsi => ?_
    obtain ⟨hi, hget⟩ := List.mem_zipIdx_iff_le_and_getElem?_sub.mp hsi
    have hmem : si.1 ∈ h.m.segs := by
      rw [hs]
      exact List.mem_cons_of_mem s (List.mem_of_getElem? hget)
    have hfoot := (inv.wf.sound si.1 hmem).foot
    unfold Segment.walked
    split <;> omega
  have hsizes : total (fun si : Segment × Nat => si.1.size) (others.zipIdx 1) = total Segment.size others := by
    rw [← total_map Segment.size Prod.fst, List.zipIdx_map_fst]
  have hfoot := inv.neat.footprint
  rw [hs, total_cons] at hfoot
  rw [hs, List.zipIdx_cons, total_cons, Nat.zero_add]
  have hfirst : Segment.walked c (s, 0) = s.total := rfl
  omega

/-! ## All of them -/

/-- The chunks of a heap whose footprint the index of a treebin can tell. -/
theorem Heap.Inv.fits (inv : h.Inv c narrow) (hfits : FitsIndex narrow h.m.footprint) : h.bins.Fits c narrow := by
  intro e he
  refine ⟨inv.sizes e he, hfits.mono ?_⟩
  obtain ⟨t, ht, hbase, hle, -⟩ := mem_extents_bounds inv.wf (inv.linked.mem_iff.mp he)
  have hfoot := (inv.wf.sound t ht).foot
  have hsize : t.size ≤ h.m.footprint := by
    obtain ⟨l, r, hlr⟩ := List.append_of_mem ht
    rw [inv.neat.footprint, hlr, total_append, total_cons]
    omega
  unfold Segment.trailer at hle
  omega

theorem Heap.Inv.traverse (inv : h.Inv c narrow) : ∃ total, h.traverseAndCheck c narrow = some total ∧
    total ≤ h.m.footprint := by
  unfold Heap.traverseAndCheck
  split
  · exact ⟨0, rfl, Nat.zero_le _⟩
  · next hne =>
    have hwalked := inv.walked_le hne
    rw [inv.traverse_segments fun si hsi => List.mem_zipIdx_iff_getElem?.mp hsi]
    exact ⟨_, rfl, (Nat.mod_le _ _).trans hwalked⟩

theorem Heap.Inv.checks (inv : h.Inv c narrow) (hfits : h.bins.Fits c narrow) :
    h.checkMallocState c narrow = true := by
  obtain ⟨sum, hsum, hle⟩ := inv.traverse
  have hsmall : (List.range 32).all (h.checkSmallbin c) = true :=
    List.all_eq_true.mpr fun i hi => inv.checkSmallbin (List.mem_range.mp hi)
  have htree : (List.range 32).all (h.checkTreebin c narrow) = true :=
    List.all_eq_true.mpr fun i hi => inv.checkTreebin hfits (List.mem_range.mp hi)
  have hdv : h.m.dvsize = 0 ∨ _ := or_iff_not_imp_left.mpr inv.checkDv
  have htop : h.m.top = 0 ∨ _ := or_iff_not_imp_left.mpr inv.checkTop
  simp only [Heap.checkMallocState, hsmall, htree, hsum, Bool.and_eq_true, Bool.or_eq_true, decide_eq_true_eq,
    Option.any_some, Bool.not_eq_true', Bool.true_and]
  exact ⟨⟨hdv.imp_right fun hd => ⟨⟨hd.1, hd.2.1⟩, hd.2.2⟩, htop⟩, hle, inv.neat.peak⟩

/-- In every session the assertions of `do_check_malloc_state` hold, as long as the index of a treebin has
room for the size of the heap. -/
theorem session_checks (hpage : 9 ≤ c.granularityShift) {ls : List (Call × Answers)} {t : Session}
    (hr : run (Session.next c narrow) .zeroed ls = some t) (hfits : FitsIndex narrow t.heap.m.footprint) :
    t.heap.checkMallocState c narrow = true :=
  (Session.run_inv hpage hr).heap.checks ((Session.run_inv hpage hr).heap.fits hfits)

theorem fewCalls_checks : ∃ s, run (Session.next plainPages4K false) .zeroed fewCalls = some s ∧
    s.heap.checkMallocState plainPages4K false = true := by
  obtain ⟨s, hs⟩ := fewCalls_run
  exact ⟨s, hs, session_checks (by decide) hs (fitsIndex_wide _)⟩

end Turf.HeapDL
