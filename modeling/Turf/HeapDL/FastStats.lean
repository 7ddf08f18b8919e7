import Turf.HeapDL.Statistics
import Turf.Lib.Schedule

/-!
# The fast statistics against the traversal

`dlmalloc` adds the size of the chunk it hands out to the fast counter and `dlfree` takes it
away again, and nothing else touches the counter. It keeps up with the traversal exactly as
long as no allocation fails in `dlmalloc` and none has to be aligned beyond `MALLOC_ALIGNMENT`.
-/
namespace Turf.HeapDL

open Turf.Lib.Extents Turf.Lib.Schedule

variable {c : Config} {m m' : MallocState} {p k n : Nat} {ans : Answers}

def MallocState.Agrees (c : Config) (m : MallocState) : Prop :=
  m.inUseBytes = (internalMallocStats c m).inUseBytes

/-- The run goes on, and `getInUseBytes` and `getStats` agree. -/
def State.Agrees (c : Config) : State → Prop
  | .running m _ => m.Agrees c
  | .stopped => False

/-- The live blocks are the chunks in use of a well-formed heap. -/
def State.Inv (c : Config) : State → Prop
  | .running m live => WF c m ∧ (m.blocks.map fun e => chunk2mem c e.1).Perm live
  | .stopped => True

/-- The aligned allocation is refused for its size before `dlmalloc` is called. -/
def RefusedForSize (c : Config) (size alignment : Nat) : Prop :=
  ∃ al ∈ roundAlignment c alignment, maxRequest c - al ≤ size

/-- The calls that keep the counter right. -/
def Covered (c : Config) : State → Op × Answers → Prop
  | .running m _, (.alloc size, ans) => MemoryFor c m (paddedRequest c size) ans
  | .running m _, (.allocAligned size alignment, ans) =>
    if alignment ≤ mallocAlignment c then MemoryFor c m (paddedRequest c size) ans
    else RefusedForSize c size alignment
  | .running _ _, (.free _, _) => True
  | .stopped, _ => True

/-- A block of `k` bytes at `p` is added, and `n` to the counter. -/
structure Allocated (c : Config) (m m' : MallocState) (p k n : Nat) : Prop where
  wf : WF c m'
  blocks : m'.blocks.Perm (m.blocks ++ [(p, k)])
  counter : m'.inUseBytes = (m.inUseBytes + n) % modulus c

theorem Allocated.inv {live : List Nat} (h : Allocated c m m' p k n)
    (hinv : State.Inv c (.running m live)) : State.Inv c (.running m' (chunk2mem c p :: live)) := by
  refine ⟨h.wf, ?_⟩
  have hperm := h.blocks.map fun e => chunk2mem c e.1
  rw [List.map_append] at hperm
  exact hperm.trans (List.perm_append_comm.trans (hinv.2.cons _))

/-- The counter stays right exactly if it grew by the size of the block. -/
theorem Allocated.agrees_iff (h : Allocated c m m' p k n) (w : WF c m) (hm : m.Agrees c)
    (hle : k ≤ n) (hlt : n - k < modulus c) : m'.Agrees c ↔ k = n := by
  have hbytes : m'.blockBytes = m.blockBytes + k := by
    have hsum := total_perm Prod.snd h.blocks
    rwa [total_append] at hsum
  unfold MallocState.Agrees at *
  rw [inUseBytes_eq w] at hm
  rw [h.counter, inUseBytes_eq h.wf, hm, hbytes, Nat.mod_add_mod]
  rcases constants c with ⟨-, hmod, -⟩ | ⟨-, hmod, -⟩ <;> rw [hmod] at hlt ⊢ <;> omega

theorem dlmalloc_cases (hfast : c.fastStats = true) (w : WF c m) {bytes : Nat} (hp : ans.Possible c m bytes) :
    (MemoryFor c m (paddedRequest c bytes) ans ∧ ∃ p n m',
      m.dlmalloc c bytes ans = some (m', chunk2mem c p) ∧ Allocated c m m' p n n ∧
        paddedRequest c bytes ≤ n ∧ p + n ≤ modulus c) ∨
    (¬ MemoryFor c m (paddedRequest c bytes) ans ∧ m.dlmalloc c bytes ans = none) := by
  by_cases hf : MemoryFor c m (paddedRequest c bytes) ans
  · obtain ⟨p, n, m', hr, hn, -, hb⟩ := dlmalloc_serves hfast w hp hf
    have hmem : (p, n) ∈ m'.blocks := hb.mem_added (by simp) (by simp)
    refine .inl ⟨hf, p, n, _, hr, ⟨?_, ?_, rfl⟩, hn, block_lt hb.wf hmem⟩
    · exact hb.wf.congr ⟨rfl, rfl, rfl, rfl, rfl, rfl⟩
    · have hperm := hb.blocks
      rw [List.append_nil] at hperm
      exact hperm
  · exact .inr ⟨hf, dlmalloc_fails hfast w hf⟩

theorem internalMemalign_cases (hfast : c.fastStats = true) (w : WF c m) {size alignment : Nat}
    (hp : ∀ al ∈ roundAlignment c alignment, size < maxRequest c - al →
      ans.Possible c m (alignedRequest c al size)) :
    (RefusedForSize c size alignment ∧ m.internalMemalign c alignment size ans = some (m, 0)) ∨
    (¬ RefusedForSize c size alignment ∧
      (m.internalMemalign c alignment size ans = none ∨ ∃ p k n m',
        m.internalMemalign c alignment size ans = some (m', chunk2mem c p) ∧
          Allocated c m m' p k n ∧ k < n ∧ n - k < modulus c)) := by
  cases hal : roundAlignment c alignment with
  | none =>
    right
    constructor
    · intro ⟨al, h, _⟩
      rw [hal] at h
      cases h
    · exact .inl (by simp [MallocState.internalMemalign, hal])
  | some al =>
    by_cases hsize : maxRequest c - al ≤ size
    · refine .inl ⟨⟨al, hal, hsize⟩, ?_⟩
      rw [MallocState.internalMemalign, hal, Option.bind_some, if_pos hsize]
    · right
      have hmin := roundAlignment_ge hal
      have hnb := request2size_ge c size
      have hpos := minChunkSize_pos c
      constructor
      · intro ⟨al', h, hle⟩
        rw [hal] at h
        cases h
        exact hsize hle
      · rcases dlmalloc_cases hfast w (hp al hal (by omega)) with
          ⟨-, p, n, m₁, hr, ha, hn, hlt⟩ | ⟨-, hr⟩
        · have hpad := alignedRequest_padded (c := c) (show size < maxRequest c - al by omega) hmin
          have hmem : (p, n) ∈ m₁.blocks := ha.blocks.mem_iff.mpr (by simp)
          have hne : chunk2mem c p ≠ 0 := by
            have hc := constants c
            unfold chunk2mem
            omega
          have hp' : p < modulus c := by omega
          obtain ⟨q, k, m₂, h₂, hb, hk, hkn⟩ := alignBlock_spec ha.wf hmem hmin hnb (by omega)
          refine .inr ⟨q, k, n, m₂, ?_, ⟨hb.wf, ?_, hb.counter.trans ha.counter⟩, hkn, by omega⟩
          · rw [MallocState.internalMemalign, hal, Option.bind_some, if_neg hsize, hr,
              Option.bind_some, if_neg hne, mem2chunk_chunk2mem hp', h₂]
          · have hcount := List.perm_iff_count.mp hb.blocks
            have hcount' := List.perm_iff_count.mp ha.blocks
            apply List.perm_iff_count.mpr
            intro e
            have h₁ := hcount e
            have h₂ := hcount' e
            simp only [List.count_append] at h₁ h₂ ⊢
            omega
        · left
          rw [MallocState.internalMemalign, hal, Option.bind_some, if_neg hsize, hr]
          rfl

/-- Freeing a block takes its size off the counter. -/
theorem dlfree_agrees (hfast : c.fastStats = true) (w : WF c m) (hmem : (p, n) ∈ m.blocks) (hm : m.Agrees c)
    (hb : Becomes c (m.subInUse c n) m' [(p, n)] []) : m'.Agrees c := by
  have hsame : (m.subInUse c n).blockBytes = m.blockBytes := by
    unfold MallocState.blockBytes MallocState.blocks
    rw [(subInUse_same c m n).segs]
  have hbytes : m'.blockBytes + n = m.blockBytes := hsame ▸ hb.bytes
  have hlt := block_lt w hmem
  have hcount : m'.inUseBytes = (m.inUseBytes + modulus c - n % modulus c) % modulus c := by
    rw [hb.counter, MallocState.subInUse, if_pos hfast]
  unfold MallocState.Agrees at *
  rw [inUseBytes_eq w] at hm
  rw [hcount, inUseBytes_eq hb.wf, hm, ← hbytes]
  rcases constants c with ⟨-, hmod, -⟩ | ⟨-, hmod, -⟩ <;> rw [hmod] at hlt ⊢ <;> omega

/-- The state that a call leaves behind. -/
def stateAfter (live : List Nat) (op : Op) : Option (MallocState × Nat) → State
  | some r => .running r.1 (liveAfter live r.2 op)
  | none => .stopped

theorem next_eq_some {live : List Nat} {op : Op} {t : State}
    (h : next c (.running m live) (op, ans) = some t) :
    op.Lawful c live ∧ (∀ bytes ∈ mallocRequest c op, ans.Possible c m bytes) ∧
      t = stateAfter live op (exec c m ans op) := by
  rw [next] at h
  split at h
  · next hen =>
    refine ⟨hen.1, hen.2, ?_⟩
    cases he : exec c m ans op with
    | none =>
      rw [he] at h
      exact (Option.some.inj h).symm
    | some r =>
      rw [he] at h
      exact (Option.some.inj h).symm
  · cases h

theorem chunk2mem_ne_zero (c : Config) (p : Nat) : chunk2mem c p ≠ 0 := by
  have hc := constants c
  unfold chunk2mem
  omega

/-- What a call of `dlmalloc` leaves behind. -/
theorem dlmalloc_step (hfast : c.fastStats = true) {live : List Nat} {op : Op} {bytes : Nat}
    (hinv : State.Inv c (.running m live)) (hp : ans.Possible c m bytes)
    (hop : ∀ mem, mem ≠ 0 → liveAfter live mem op = mem :: live) :
    State.Inv c (stateAfter live op (m.dlmalloc c bytes ans)) ∧
      (m.Agrees c → (MemoryFor c m (paddedRequest c bytes) ans ↔
        State.Agrees c (stateAfter live op (m.dlmalloc c bytes ans)))) := by
  have hmod := constants c
  rcases dlmalloc_cases hfast hinv.1 hp with ⟨hf, p, n, m', hr, ha, -, -⟩ | ⟨hf, hr⟩
  · rw [hr]
    simp only [stateAfter, hop _ (chunk2mem_ne_zero c p)]
    refine ⟨ha.inv hinv, fun hm => iff_of_true hf ?_⟩
    exact (ha.agrees_iff hinv.1 hm le_rfl (by omega)).mpr rfl
  · rw [hr]
    exact ⟨trivial, fun _ => iff_of_false hf id⟩

/-- What an aligned allocation leaves behind. -/
theorem internalMemalign_step (hfast : c.fastStats = true) {live : List Nat} {size alignment : Nat}
    (hinv : State.Inv c (.running m live))
    (hp : ∀ al ∈ roundAlignment c alignment, size < maxRequest c - al →
      ans.Possible c m (alignedRequest c al size)) :
    State.Inv c (stateAfter live (.allocAligned size alignment)
        (m.internalMemalign c alignment size ans)) ∧
      (m.Agrees c → (RefusedForSize c size alignment ↔
        State.Agrees c (stateAfter live (.allocAligned size alignment)
          (m.internalMemalign c alignment size ans)))) := by
  rcases internalMemalign_cases hfast hinv.1 hp with
    ⟨hf, hr⟩ | ⟨hf, hr | ⟨p, k, n, m', hr, ha, hkn, hlt⟩⟩
  · rw [hr]
    exact ⟨hinv, fun hm => iff_of_true hf hm⟩
  · rw [hr]
    exact ⟨trivial, fun _ => iff_of_false hf id⟩
  · rw [hr]
    simp only [stateAfter, liveAfter, chunk2mem_ne_zero, ite_false]
    refine ⟨ha.inv hinv, fun hm => iff_of_false hf ?_⟩
    intro hagree
    have heq := (ha.agrees_iff hinv.1 hm (by omega) hlt).mp hagree
    omega

/-- What freeing a live block leaves behind. -/
theorem dlfree_step (hfast : c.fastStats = true) {live : List Nat} {ptr : Nat} (hinv : State.Inv c (.running m live))
    (hptr : ptr ∈ live) :
    State.Inv c (stateAfter live (.free ptr) (exec c m ans (.free ptr))) ∧
      (m.Agrees c → State.Agrees c (stateAfter live (.free ptr) (exec c m ans (.free ptr)))) := by
  obtain ⟨w, hlive⟩ := hinv
  obtain ⟨⟨p, n⟩, hmem, rfl⟩ := List.mem_map.mp (hlive.mem_iff.mpr hptr)
  obtain ⟨m', hr, hb⟩ := dlfree_spec w hmem ans
  have hexec : exec c m ans (.free (chunk2mem c p)) = some (m', 0) := by simp [exec, hr]
  rw [hexec]
  refine ⟨⟨hb.wf, ?_⟩, fun hm => dlfree_agrees hfast w hmem hm hb⟩
  have hperm := hb.blocks.map fun e => chunk2mem c e.1
  have hsame : (m.subInUse c n).blocks = m.blocks := by
    unfold MallocState.blocks
    rw [(subInUse_same c m n).segs]
  rw [List.append_nil, List.map_append, hsame] at hperm
  have hcons := (List.perm_append_comm.trans hperm).trans hlive
  simpa [liveAfter] using hcons.erase (chunk2mem c p)

theorem mem_mallocRequest {size alignment al : Nat} (hal : ¬ alignment ≤ mallocAlignment c)
    (hround : al ∈ roundAlignment c alignment) (hsize : size < maxRequest c - al) :
    alignedRequest c al size ∈ mallocRequest c (.allocAligned size alignment) := by
  have hround : roundAlignment c alignment = some al := hround
  rw [mallocRequest, if_neg hal, hround, Option.bind_some, if_neg (by omega)]
  rfl

/-- A call leaves a well-formed heap behind, and a counter that is right exactly if the call is
covered. -/
theorem next_step (hfast : c.fastStats = true) {s t : State} {l : Op × Answers} (h : next c s l = some t)
    (hinv : State.Inv c s) :
    State.Inv c t ∧ (State.Agrees c s → (Covered c s l ↔ State.Agrees c t)) := by
  cases s with
  | stopped => cases h
  | running m live =>
    obtain ⟨op, ans⟩ := l
    obtain ⟨hlawful, hposs, rfl⟩ := next_eq_some h
    cases op with
    | alloc size =>
      exact dlmalloc_step hfast hinv (hposs size rfl) (fun mem hne => if_neg hne)
    | allocAligned size alignment =>
      simp only [exec, MallocState.dlmemalign, Covered]
      by_cases hal : alignment ≤ mallocAlignment c
      · rw [if_pos hal, if_pos hal]
        exact dlmalloc_step hfast hinv (hposs size (by simp [mallocRequest, hal]))
          (fun mem hne => if_neg hne)
      · rw [if_neg hal, if_neg hal]
        apply internalMemalign_step hfast hinv
        intro al hround hsize
        exact hposs _ (mem_mallocRequest hal hround hsize)
    | free ptr =>
      obtain ⟨hi, ha⟩ := dlfree_step hfast hinv hlawful
      exact ⟨hi, fun hm => iff_of_true trivial (ha hm)⟩

theorem inv_zeroed : State.Inv c .zeroed := ⟨wf_zeroInit, .refl _⟩

theorem agrees_zeroed : State.Agrees c .zeroed := by
  simp [State.Agrees, State.zeroed, MallocState.Agrees, MallocState.zeroInit, internalMallocStats]

/-- An allocation that returns a null pointer leaves the heap as it was. -/
theorem null_unchanged (hfast : c.fastStats = true) (w : WF c m) {op : Op}
    (hp : ∀ bytes ∈ mallocRequest c op, ans.Possible c m bytes) (hop : ∀ ptr, op ≠ .free ptr)
    (h : exec c m ans op = some (m', 0)) : m' = m := by
  have hmalloc : ∀ bytes, ans.Possible c m bytes →
      m.dlmalloc c bytes ans ≠ some (m', 0) := by
    intro bytes hposs heq
    rcases dlmalloc_cases hfast w hposs with ⟨-, p, n, m₁, hr, -⟩ | ⟨-, hr⟩
    · rw [hr] at heq
      exact chunk2mem_ne_zero c p (Prod.mk.inj (Option.some.inj heq)).2
    · rw [hr] at heq
      cases heq
  cases op with
  | alloc size => exact absurd h (hmalloc size (hp size rfl))
  | allocAligned size alignment =>
    simp only [exec, MallocState.dlmemalign] at h
    by_cases hal : alignment ≤ mallocAlignment c
    · rw [if_pos hal] at h
      exact absurd h (hmalloc size (hp size (by simp [mallocRequest, hal])))
    · rw [if_neg hal] at h
      rcases internalMemalign_cases hfast w
          (fun al hround hsize => hp _ (mem_mallocRequest hal hround hsize)) with
        ⟨-, hr⟩ | ⟨-, hr | ⟨p, k, n, m₁, hr, -⟩⟩
      · rw [hr] at h
        exact (Prod.mk.inj (Option.some.inj h)).1.symm
      · rw [hr] at h
        cases h
      · rw [hr] at h
        exact absurd (Prod.mk.inj (Option.some.inj h)).2 (chunk2mem_ne_zero c p)
  | free ptr => exact absurd rfl (hop ptr)

/-- Along every run from a zeroed heap the fast counter agrees with the traversal after each
call exactly if every call is covered: it frees a live block, or is refused for its size before
`dlmalloc` is called, or asks for no more than the default alignment and finds memory. An
allocation that returns a null pointer leaves the counter as it was. -/
theorem fastStats_agree_iff (hfast : c.fastStats = true) {ls : List (Op × Answers)} {s : State}
    (hr : run (next c) .zeroed ls = some s) :
    (Steps (next c) (Covered c) .zeroed ls ↔ Along (next c) (State.Agrees c) .zeroed ls) ∧
      ∀ ms m live op ans m', ms ++ [(op, ans)] <+: ls →
        run (next c) .zeroed ms = some (.running m live) → (∀ ptr, op ≠ .free ptr) →
        exec c m ans op = some (m', 0) → m'.inUseBytes = m.inUseBytes := by
  have hkeep : ∀ s l t, next c s l = some t → State.Inv c s → State.Inv c t :=
    fun s l t h hi => (next_step hfast h hi).1
  have hagree : ∀ s l t, next c s l = some t → State.Inv c s → State.Agrees c s →
      (Covered c s l ↔ State.Agrees c t) := fun s l t h hi => (next_step hfast h hi).2
  constructor
  · exact steps_iff_along hkeep hagree hr inv_zeroed agrees_zeroed
  · intro ms m live op ans m' hms hrun hop hexec
    obtain ⟨rest, rfl⟩ := hms
    rw [List.append_assoc, run_append] at hr
    obtain ⟨u, hu, hrest⟩ := hr
    obtain rfl : .running m live = u := Option.some.inj (hrun.symm.trans hu)
    have hinv := run_preserves hkeep hrun inv_zeroed
    obtain ⟨t, ht, -⟩ := run_cons.mp hrest
    obtain ⟨-, hposs, -⟩ := next_eq_some ht
    rw [null_unchanged hfast hinv.1 hposs hop hexec]

/-- A first call that is granted the page at 64 KiB. -/
def firstPage : Answers := ⟨none, none, some 65536, none, fun _ _ => false⟩

theorem aligned_first_call_drifts :
    ∃ m live, run (next pages4K) .zeroed [(.allocAligned 64 64, firstPage)] =
      some (.running m live) ∧ m.inUseBytes ≠ (internalMallocStats pages4K m).inUseBytes := by
  refine ⟨⟨[⟨65536, 4096, [⟨48, .binned⟩, ⟨80, .inuse⟩]⟩], [], 3888, 2097152, 4095, 65536, 4096, 4096,
    0, 0, 176⟩, [65600], ?_, ?_⟩
  · decide +kernel
  · decide +kernel

/-- A run that allocates a block and frees it. -/
theorem fastStats_agree_iff_small :
    Along (next pages4K) (State.Agrees pages4K) .zeroed
      [(.alloc 100, firstPage), (.free 65552, firstPage)] := by
  have hr : run (next pages4K) .zeroed [(.alloc 100, firstPage), (.free 65552, firstPage)] =
      some (.running ⟨[⟨65536, 4096, []⟩], [], 4016, 2097152, 4095, 65536, 4096, 4096, 0, 0, 0⟩ []) := by
    decide +kernel
  apply (fastStats_agree_iff (by decide) hr).1.mp
  refine ⟨.inr (.inr (.inr ⟨by decide +kernel, by decide⟩)), ?_⟩
  intro t ht
  refine ⟨?_, fun _ _ => trivial⟩
  cases t with
  | running m live => exact trivial
  | stopped => exact trivial

end Turf.HeapDL
