import Turf.HeapDL.Contracts
import Turf.HeapDL.DirectMapping

/-!
# Sessions

A session starts from a zeroed heap with empty bins and takes one call after another. The caller frees and
resizes what it holds, and the system maps fresh pages or refuses to.
-/
namespace Turf.HeapDL

open Turf.Lib.Extents Turf.Lib.Schedule

variable {c : Config} {narrow : Bool} {ans : Answers} {k : Call}

/-- A block that the caller holds, with the size and the alignment it asked for. -/
structure Held where
  ptr : Nat
  size : Nat
  alignment : Nat
  deriving DecidableEq, Repr

structure Session where
  heap : Heap
  held : List Held

def Session.zeroed : Session := ⟨⟨.zeroInit, .init⟩, []⟩

/-- Arguments are machine words, and only blocks that are held are freed or resized. -/
def Call.Lawful (c : Config) (held : List Held) : Call → Prop
  | .op o => o.Lawful c (held.map Held.ptr)
  | .realloc ptr newSize => newSize < modulus c ∧ (ptr = 0 ∨ ptr ∈ held.map Held.ptr)

instance (held : List Held) : (k : Call) → Decidable (k.Lawful c held)
  | .op o => inferInstanceAs (Decidable (o.Lawful c _))
  | .realloc _ _ => inferInstanceAs (Decidable (_ ∧ _))

/-- The bytes a call asks `dlmalloc` for, if it gets as far. -/
def callRequest (c : Config) : Call → Option Nat
  | .op o => mallocRequest c o
  | .realloc ptr newSize => if ptr ≠ 0 ∧ maxRequest c ≤ newSize then none else some newSize

instance (m : MallocState) (bytes : Nat) (ans : Answers) : Decidable (Granted c m bytes ans) :=
  inferInstanceAs (Decidable (∀ _ ∈ _, _))

def heldAfter (held : List Held) (mem : Nat) : Call → List Held
  | .op (.alloc size) => if mem = 0 then held else ⟨mem, size, 1⟩ :: held
  | .op (.allocAligned size alignment) => if mem = 0 then held else ⟨mem, size, alignment⟩ :: held
  | .op (.free ptr) => held.eraseP fun l => l.ptr = ptr
  | .realloc ptr newSize =>
    if mem = 0 then held else ⟨mem, newSize, 1⟩ :: held.eraseP fun l => l.ptr = ptr

def Session.next (c : Config) (narrow : Bool) (s : Session) (l : Call × Answers) : Option Session :=
  if l.1.Lawful c s.held ∧ ∀ bytes ∈ callRequest c l.1, Granted c s.heap.m bytes l.2 then
    (s.heap.exec c narrow l.2 l.1).map fun r => ⟨r.1, heldAfter s.held r.2 l.1⟩
  else none

theorem Session.next_cases {s s' : Session} {l : Call × Answers} (hs : s.next c narrow l = some s') :
    l.1.Lawful c s.held ∧ (∀ bytes ∈ callRequest c l.1, Granted c s.heap.m bytes l.2) ∧
      ∃ h' mem, s.heap.exec c narrow l.2 l.1 = some (h', mem) ∧ s' = ⟨h', heldAfter s.held mem l.1⟩ := by
  unfold Session.next at hs
  split at hs
  · next hen =>
    obtain ⟨⟨h', mem⟩, he, rfl⟩ := Option.map_eq_some_iff.mp hs
    exact ⟨hen.1, hen.2, h', mem, he, rfl⟩
  · cases hs

def refuses : Answers := ⟨none, none, none, none, fun _ _ => false⟩

/-- Calls that leave a chunk in a bin and a designated victim behind. -/
def fewCalls : List (Call × Answers) :=
  [(.op (.alloc 100), grants 65536), (.op (.allocAligned 500 256), refuses), (.op (.alloc 40), refuses),
    (.realloc 65552 300, refuses), (.op (.alloc 24), refuses)]

theorem fewCalls_run : ∃ s, run (Session.next plainPages4K false) .zeroed fewCalls = some s :=
  Option.isSome_iff_exists.mp (by decide +kernel)

/-! ## What the caller holds -/

/-- The block of the heap behind what is held. -/
structure Covers (c : Config) (e : Nat × Nat) (l : Held) : Prop where
  ptr : l.ptr = chunk2mem c e.1
  size : l.size + chunkOverhead c ≤ e.2
  aligned : l.alignment.isPowerOfTwo → l.alignment ∣ l.ptr

/-- The bins are in step, and what is held are the chunks in use. -/
structure Session.Inv (c : Config) (narrow : Bool) (s : Session) : Prop where
  heap : s.heap.Inv c narrow
  held : ∃ bs, bs.Perm s.heap.m.blocks ∧ List.Forall₂ (Covers c) bs s.held

variable {s s' : Session}

theorem Session.inv_zeroed : Session.Inv c narrow .zeroed :=
  ⟨Heap.inv_zeroed, [], by simp [zeroed, MallocState.blocks, MallocState.zeroInit], .nil⟩

/-- A call that hands out memory without taking any back. -/
theorem Session.Inv.handed (inv : s.Inv c narrow) {size alignment : Nat} {r : Heap × Nat}
    (hr : Hands c narrow s.heap size alignment [] r) {al : Nat} (hal : al.isPowerOfTwo → al ∣ alignment)
    (hpow : al.isPowerOfTwo → alignment.isPowerOfTwo) :
    Session.Inv c narrow ⟨r.1, if r.2 = 0 then s.held else ⟨r.2, size, al⟩ :: s.held⟩ := by
  obtain ⟨bs, hbs, hcovers⟩ := inv.held
  rcases hr with rfl | ⟨p, n, hp, hinv, hn, hdvd, hblocks⟩
  · exact ⟨inv.heap, bs, hbs, by simpa using hcovers⟩
  · have hblocks : (r.1.m.blocks ++ []).Perm (s.heap.m.blocks ++ [(p, n)]) := hblocks
    rw [List.append_nil] at hblocks
    rw [if_neg (hp ▸ chunk2mem_ne_zero c p)]
    refine ⟨hinv, (p, n) :: bs, ?_, .cons ⟨hp, hn, fun h => (hal h).trans (hdvd (hpow h))⟩ hcovers⟩
    exact ((hbs.cons _).trans (List.perm_append_singleton _ _).symm).trans hblocks.symm

/-- The block behind something held, and the blocks behind the rest. -/
theorem Session.Inv.block (inv : s.Inv c narrow) {ptr : Nat} (hptr : ptr ∈ s.held.map Held.ptr) :
    ∃ p n bs, ptr = chunk2mem c p ∧ s.heap.m.blocks.Perm ((p, n) :: bs) ∧
      List.Forall₂ (Covers c) bs (s.held.eraseP fun l => l.ptr = ptr) := by
  obtain ⟨bs, hbs, hcovers⟩ := inv.held
  obtain ⟨l, hl, rfl⟩ := List.mem_map.mp hptr
  obtain ⟨⟨p, n⟩, l', rest, hcover, hl', hperm, hrest⟩ :=
    forall₂_eraseP (q := fun x => x.ptr = l.ptr) hcovers ⟨l, hl, by simp⟩
  have hl' : l'.ptr = l.ptr := by simpa using hl'
  exact ⟨p, n, rest, hl' ▸ hcover.ptr, hbs.symm.trans hperm, hrest⟩

/-- The chunks in use once a block is gone. -/
theorem blocks_without {blocks blocks' bs added : List (Nat × Nat)} {e : Nat × Nat}
    (h : Exchange blocks blocks' [e] added) (hb : blocks.Perm (e :: bs)) : blocks'.Perm (bs ++ added) := by
  have h : (blocks' ++ [e]).Perm (blocks ++ added) := h
  have hcons : (e :: blocks').Perm (e :: (bs ++ added)) :=
    (List.perm_append_singleton e blocks').symm.trans (h.trans (hb.append_right added))
  exact (List.perm_cons e).mp hcons

theorem Session.Inv.step (hpage : 9 ≤ c.granularityShift) (inv : s.Inv c narrow)
    (hs : s.next c narrow (k, ans) = some s') : s'.Inv c narrow := by
  obtain ⟨hlawful, hg, h', mem, he, rfl⟩ := Session.next_cases hs
  have hmalloc : ∀ bytes, Granted c s.heap.m bytes ans → s.heap.dlmalloc c narrow bytes ans = some (h', mem) →
      Session.Inv c narrow ⟨h', if mem = 0 then s.held else ⟨mem, bytes, 1⟩ :: s.held⟩ :=
    fun bytes hgrant he => inv.handed (dlmalloc_hands inv.heap hgrant he) (fun _ => one_dvd _)
      fun _ => mallocAlignment_isPowerOfTwo c
  cases k with
  | op o =>
    cases o with
    | alloc size => exact hmalloc size (hg size rfl) he
    | allocAligned size alignment =>
      exact inv.handed (dlmemalign_hands inv.heap hg he) (fun _ => dvd_rfl) id
    | free ptr =>
      obtain ⟨p, n, bs, rfl, hblocks, hcovers⟩ := inv.block hlawful
      have hmem : (p, n) ∈ s.heap.m.blocks := hblocks.mem_iff.mpr List.mem_cons_self
      obtain ⟨h₁, hfree, hinv, hex⟩ := dlfree_hands inv.heap hpage hmem ans
      have hexec : s.heap.exec c narrow ans (.op (.free (chunk2mem c p))) = some (h₁, 0) := by
        rw [Heap.exec, hfree]
        rfl
      obtain ⟨rfl, rfl⟩ := Prod.mk.inj (Option.some.inj (hexec.symm.trans he))
      refine ⟨hinv, bs, ?_, hcovers⟩
      simpa using (blocks_without hex hblocks).symm
  | realloc ptr newSize =>
    obtain ⟨-, hptr⟩ := hlawful
    by_cases h0 : ptr = 0
    · subst h0
      have hheld : s.held.eraseP (fun l => l.ptr = 0) = s.held := by
        apply List.eraseP_of_forall_not
        obtain ⟨bs, -, hcovers⟩ := inv.held
        intro l hl
        obtain ⟨e, -, hcover⟩ := forall₂_mem_right hcovers hl
        simp [hcover.ptr, chunk2mem_ne_zero]
      simp only [heldAfter, hheld]
      refine hmalloc newSize (hg newSize (by simp [callRequest])) ?_
      simpa [Heap.exec, Heap.dlrealloc] using he
    · obtain ⟨p, n, bs, rfl, hblocks, hcovers⟩ := inv.block (hptr.resolve_left h0)
      have hmem : (p, n) ∈ s.heap.m.blocks := hblocks.mem_iff.mpr List.mem_cons_self
      have hgrant : newSize < maxRequest c → Granted c s.heap.m newSize ans := by
        intro hlt
        exact hg newSize (by simp [callRequest, hlt])
      rcases dlrealloc_hands hpage inv.heap hmem hgrant he with hnull | ⟨q, j, hq, hinv, hj, -, hex⟩
      · obtain ⟨rfl, rfl⟩ := Prod.mk.inj hnull
        exact ⟨inv.heap, inv.held⟩
      · have hne : mem ≠ 0 := fun h => chunk2mem_ne_zero c q (hq.symm.trans h)
        simp only [heldAfter, if_neg hne]
        refine ⟨hinv, (q, j) :: bs, ?_, .cons ⟨hq, hj, fun _ => one_dvd _⟩ hcovers⟩
        exact (List.perm_append_singleton _ _).symm.trans (blocks_without hex hblocks).symm

theorem Session.run_inv (hpage : 9 ≤ c.granularityShift) {ls : List (Call × Answers)}
    (hr : run (Session.next c narrow) .zeroed ls = some s) : s.Inv c narrow :=
  run_preserves (fun _ _ _ hs inv => inv.step hpage hs) hr inv_zeroed

/-! ## Every run -/

/-- The bytes between two blocks that are held hold a header at least. -/
theorem covers_apart {e e' : Nat × Nat} {l l' : Held} (h : Covers c e l) (h' : Covers c e' l')
    (hap : Apart e e') : l.ptr + l.size < l'.ptr ∨ l'.ptr + l'.size < l.ptr := by
  have hc := constants c
  have hover : chunkOverhead c = sizeT c := rfl
  have hptr := h.ptr
  have hptr' := h'.ptr
  have hsize := h.size
  have hsize' := h'.size
  unfold chunk2mem at hptr hptr'
  unfold Apart at hap
  omega

theorem Session.Inv.apart (inv : s.Inv c narrow) :
    s.held.Pairwise (fun l l' => l.ptr + l.size < l'.ptr ∨ l'.ptr + l'.size < l.ptr) := by
  obtain ⟨bs, hbs, hcovers⟩ := inv.held
  exact forall₂_pairwise hcovers (fun h h' hap => covers_apart h h' hap)
    ((hbs.pairwise_iff (fun hap => symm hap)).mpr (blocks_apart inv.heap.wf))

theorem Session.Inv.placed (inv : s.Inv c narrow) {l : Held} (hl : l ∈ s.held) :
    mallocAlignment c ∣ l.ptr ∧ (l.alignment.isPowerOfTwo → l.alignment ∣ l.ptr) ∧
      ∃ seg ∈ s.heap.m.segs, seg.base < l.ptr ∧ l.ptr + l.size < seg.base + seg.size := by
  obtain ⟨bs, hbs, hcovers⟩ := inv.held
  obtain ⟨e, he, hcover⟩ := forall₂_mem_right hcovers hl
  have hmem : (e.1, e.2) ∈ s.heap.m.blocks := hbs.mem_iff.mp he
  refine ⟨hcover.ptr ▸ chunk2mem_dvd (inv.heap.block_dvd hmem).1, hcover.aligned, ?_⟩
  obtain ⟨seg, hseg, hbase, hle, -⟩ := mem_blocks_bounds inv.heap.wf hmem
  have hfoot := (inv.heap.wf.sound seg hseg).foot
  have hc := constants c
  have hover : chunkOverhead c = sizeT c := rfl
  have hptr := hcover.ptr
  have hsize := hcover.size
  unfold chunk2mem at hptr
  unfold Segment.trailer at hle
  simp only at hbase hle
  exact ⟨seg, hseg, by omega, by omega⟩

/-- In every session the blocks that are held lie apart, each in one segment of the heap and aligned both to
`MALLOC_ALIGNMENT` and to the power of two it was asked for. -/
theorem held_blocks_apart (hpage : 9 ≤ c.granularityShift) {ls : List (Call × Answers)}
    (hr : run (Session.next c narrow) .zeroed ls = some s) :
    s.held.Pairwise (fun l l' => l.ptr + l.size < l'.ptr ∨ l'.ptr + l'.size < l.ptr) ∧
      ∀ l ∈ s.held, mallocAlignment c ∣ l.ptr ∧ (l.alignment.isPowerOfTwo → l.alignment ∣ l.ptr) ∧
        ∃ seg ∈ s.heap.m.segs, seg.base < l.ptr ∧ l.ptr + l.size < seg.base + seg.size := by
  have inv := Session.run_inv hpage hr
  exact ⟨inv.apart, fun l hl => inv.placed hl⟩

theorem fewCalls_blocks_apart : ∃ s, run (Session.next plainPages4K false) .zeroed fewCalls = some s ∧
    s.held.Pairwise (fun l l' => l.ptr + l.size < l'.ptr ∨ l'.ptr + l'.size < l.ptr) := by
  obtain ⟨s, hs⟩ := fewCalls_run
  exact ⟨s, hs, (held_blocks_apart (by decide) hs).1⟩

/-- The power of two to align to is found below half the address space. -/
theorem roundAlignment_isSome {alignment : Nat} (h : alignment ≤ modulus c / 2) :
    (roundAlignment c alignment).isSome := by
  by_contra hnone
  have hstuck := roundAlignment_none (Option.not_isSome_iff_eq_none.mp hnone)
  rcases constants c with ⟨-, hmod, ha, hmin, -⟩ | ⟨-, hmod, ha, hmin, -⟩
  · have hturn := hstuck 58
    rw [doubled_eq _ (by omega), hmod, ha, hmin] at hturn
    omega
  · have hturn := hstuck 27
    rw [doubled_eq _ (by omega), hmod, ha, hmin] at hturn
    omega

/-- With the fast statistics compiled out, every call that a session may make returns, unless it asks for an
alignment of more than half the address space. -/
theorem calls_return (hfast : c.fastStats = false) (hpage : 9 ≤ c.granularityShift) {ls : List (Call × Answers)}
    (hr : run (Session.next c narrow) .zeroed ls = some s) (hlawful : k.Lawful c s.held)
    (hg : ∀ bytes ∈ callRequest c k, Granted c s.heap.m bytes ans)
    (hal : ∀ size alignment, k = .op (.allocAligned size alignment) → alignment ≤ modulus c / 2) :
    (s.heap.exec c narrow ans k).isSome := by
  have inv := Session.run_inv hpage hr
  cases k with
  | op o =>
    cases o with
    | alloc size => exact dlmalloc_returns hfast narrow s.heap size ans
    | allocAligned size alignment =>
      exact dlmemalign_returns hfast inv.heap hg (.inr (roundAlignment_isSome (hal size alignment rfl)))
    | free ptr =>
      obtain ⟨p, n, bs, rfl, hblocks, -⟩ := inv.block hlawful
      obtain ⟨h', hfree, -⟩ := dlfree_hands inv.heap hpage (hblocks.mem_iff.mpr List.mem_cons_self) ans
      simp [Heap.exec, hfree]
  | realloc ptr newSize =>
    obtain ⟨-, hptr⟩ := hlawful
    by_cases h0 : ptr = 0
    · subst h0
      simpa [Heap.exec, Heap.dlrealloc] using dlmalloc_returns hfast narrow s.heap newSize ans
    · obtain ⟨p, n, bs, rfl, hblocks, -⟩ := inv.block (hptr.resolve_left h0)
      refine dlrealloc_returns hfast hpage inv.heap (hblocks.mem_iff.mpr List.mem_cons_self) fun hlt => ?_
      exact hg newSize (by simp [callRequest, hlt])

theorem fewCalls_return : ∃ s, run (Session.next plainPages4K false) .zeroed fewCalls = some s ∧
    (s.heap.exec plainPages4K false refuses (.op (.allocAligned 100 64))).isSome := by
  obtain ⟨s, hs⟩ := fewCalls_run
  refine ⟨s, hs, calls_return rfl (by decide) hs ⟨by decide, by decide⟩ ?_ ?_⟩
  · intro bytes _ tbase hmap
    cases hmap
  · intro size alignment hcall
    cases hcall
    decide

end Turf.HeapDL
