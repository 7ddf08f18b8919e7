import Turf.HeapDL.Heap

/-!
# The heap without its bins

Apart from the bins, a call does what it does when the chunk that the bins yield is an answer to it.
-/
namespace Turf.HeapDL

variable {c : Config} {narrow : Bool} {h : Heap} {ans : Answers} {p q n nb al bytes mem : Nat} {st : Site}

/-- A result without the bins. -/
def Heap.plain {α : Type} (r : Heap × α) : MallocState × α := (r.1.m, r.2)

@[simp] theorem Heap.plain_mk {α : Type} (h : Heap) (a : α) : Heap.plain (h, a) = (h.m, a) := rfl

theorem map_bind_of {α β γ δ : Type} {o : Option α} {o' : Option β} {g : α → Option γ} {g' : β → Option δ}
    {f : α → β} {k : γ → δ} (ho : o.map f = o') (hg : ∀ a, (g a).map k = g' (f a)) :
    (o.bind g).map k = o'.bind g' := by
  subst ho
  cases o with
  | none => rfl
  | some a => exact hg a

theorem dlmalloc_plain : (h.dlmalloc c narrow bytes ans).map Heap.plain =
    h.m.dlmalloc c bytes (h.searching c narrow bytes ans) := by
  unfold Heap.dlmalloc
  rw [Option.map_map]
  exact Option.map_id'

/-! ## Freeing -/

theorem sysTrim_plain (pad : Nat) : (h.sysTrim c narrow pad ans).m = h.m.sysTrim c pad ans := by
  unfold Heap.sysTrim MallocState.sysTrim
  split
  · exact apply_ite Heap.m _ _ _
  · rfl

theorem afterFree_plain (landing : Landing) : (h.afterFree c narrow landing ans).m = h.m.afterFree c landing ans := by
  unfold Heap.afterFree MallocState.afterFree
  cases landing with
  | top =>
    simp only
    split
    · exact sysTrim_plain 0
    · rfl
  | dv => rfl
  | bin psize =>
    simp only
    split
    · rfl
    · split <;> rfl

theorem dlfree_plain : (h.dlfree c narrow mem ans).map Heap.m = h.m.dlfree c mem ans := by
  unfold Heap.dlfree
  split
  · next h0 => simp [MallocState.dlfree, h0]
  · next h0 =>
    simp only
    split
    · next hlow => simp [MallocState.dlfree, h0, hlow]
    · next hlow =>
      cases hst : h.m.inuseAt (mem2chunk c mem) with
      | some st => simp [MallocState.dlfree, h0, hlow, hst, afterFree_plain, Heap.consolidate]
      | none =>
        simp only [Option.map_map]
        exact Option.map_id'

/-- Only `dlmalloc` searches the bins. -/
theorem releaseLoop_bin (bin : Option Nat) (others : List Segment) :
    releaseLoop c { ans with bin := bin } others = releaseLoop c ans others := by
  induction others with
  | nil => rfl
  | cons s others ih => simp only [releaseLoop, ih]

theorem dlfree_bin (m : MallocState) (bin : Option Nat) :
    m.dlfree c mem { ans with bin := bin } = m.dlfree c mem ans := by
  simp only [MallocState.dlfree, MallocState.afterFree, MallocState.sysTrim, MallocState.shrinkTop,
    MallocState.releaseUnusedSegments, releaseLoop_bin]

theorem disposeChunk_plain : (h.disposeChunk c narrow p).map Heap.m = h.m.disposeChunk p := by
  unfold Heap.disposeChunk
  rw [Option.map_map]
  rfl

theorem splitInuse_plain : (h.splitInuse p n).map Heap.m = h.m.splitInuse p n := by
  unfold Heap.splitInuse
  rw [Option.map_map]
  exact Option.map_id'

theorem giveBackLeader_plain : (h.giveBackLeader c narrow p n).map Heap.m = h.m.giveBackLeader p n :=
  map_bind_of splitInuse_plain fun _ => disposeChunk_plain

theorem giveBackRest_plain : (h.giveBackRest c narrow p n).map Heap.m = h.m.giveBackRest p n :=
  map_bind_of splitInuse_plain fun _ => disposeChunk_plain

/-! ## Aligned allocation -/

/-- A step that leaves the bins alone. -/
theorem keepBins_plain {α : Type} (b : Bins) (o : Option (MallocState × α)) :
    (o.map fun r => ((⟨r.1, b⟩ : Heap), r.2)).map Heap.plain = o := by
  rw [Option.map_map]
  exact Option.map_id'

theorem map_plain {α : Type} (a : α) {o : Option Heap} {o' : Option MallocState} (ho : o.map Heap.m = o') :
    (o.map fun h => (h, a)).map Heap.plain = o'.map fun m => (m, a) := by
  subst ho
  rw [Option.map_map, Option.map_map]
  rfl

theorem alignLeader_plain : (h.alignLeader c narrow al p).map Heap.plain = h.m.alignLeader c al p := by
  unfold Heap.alignLeader
  split
  · next hal => simp [MallocState.alignLeader, hal]
  · next hal =>
    simp only
    split
    · next huse =>
      rw [map_plain _ giveBackLeader_plain]
      simp [MallocState.alignLeader, hal, huse]
    · exact keepBins_plain _ _

theorem trimRest_plain : (h.trimRest c narrow nb p).map Heap.m = h.m.trimRest c nb p := by
  unfold Heap.trimRest MallocState.trimRest
  cases h.m.inuseAt p with
  | none => rfl
  | some st =>
    simp only
    split
    · exact giveBackRest_plain
    · rfl

theorem alignBlock_plain : (h.alignBlock c narrow nb al p).map Heap.plain = h.m.alignBlock c nb al p :=
  map_bind_of alignLeader_plain fun _ => map_plain _ trimRest_plain

theorem dlmemalign_plain {alignment : Nat} : ∃ bin, (h.dlmemalign c narrow alignment bytes ans).map Heap.plain =
    h.m.dlmemalign c alignment bytes { ans with bin := bin } := by
  unfold Heap.dlmemalign MallocState.dlmemalign
  split
  · exact ⟨_, dlmalloc_plain⟩
  · unfold Heap.internalMemalign MallocState.internalMemalign
    cases roundAlignment c alignment with
    | none => exact ⟨none, rfl⟩
    | some al =>
      simp only [Option.bind_some]
      split
      · exact ⟨none, rfl⟩
      · refine ⟨_, map_bind_of dlmalloc_plain fun r => ?_⟩
        obtain ⟨h', mem⟩ := r
        by_cases h0 : mem = 0
        · simp [h0]
        · simp only [Heap.plain_mk, h0, ite_false]
          exact alignBlock_plain

/-! ## Resizing -/

theorem resizeInPlace_plain : (h.resizeInPlace c narrow p nb st).map Heap.plain = h.m.resizeInPlace c p nb st := by
  unfold Heap.resizeInPlace
  simp only
  split
  · next hle =>
    split
    · next hrest =>
      rw [map_plain _ giveBackRest_plain]
      simp [MallocState.resizeInPlace, hle, hrest]
    · next hrest => simp [MallocState.resizeInPlace, hle, hrest]
  · next hlt =>
    cases hr : st.right with
    | nil => exact keepBins_plain _ _
    | cons next right =>
      simp only
      split
      · next hstop => simp [MallocState.resizeInPlace, hlt, hr, hstop]
      · next hstop =>
        split
        · exact keepBins_plain _ _
        · next hdv =>
          split
          · next hsmall => simp [MallocState.resizeInPlace, hlt, hr, hstop, hsmall]
          · next hsmall =>
            rw [map_plain _ disposeChunk_plain]
            simp [MallocState.resizeInPlace, hlt, hr, hstop, hsmall, hdv]

theorem tryReallocChunk_plain : (h.tryReallocChunk c narrow p nb ans).map Heap.plain =
    h.m.tryReallocChunk c p nb ans := by
  unfold Heap.tryReallocChunk
  split
  · next hlow => simp [MallocState.tryReallocChunk, hlow]
  · next hlow =>
    cases hst : h.m.inuseAt p with
    | some st =>
      simp only [MallocState.tryReallocChunk, if_neg hlow, hst]
      exact resizeInPlace_plain
    | none => exact keepBins_plain _ _

/-- A call with the bins is one whose answer for the bins is what they yield. -/
theorem exec_plain (k : Call) : ∃ bin, (h.exec c narrow ans k).map Heap.plain =
    execCall c h.m { ans with bin := bin } k := by
  cases k with
  | op o =>
    cases o with
    | alloc size => exact ⟨_, dlmalloc_plain⟩
    | allocAligned size alignment => exact dlmemalign_plain
    | free ptr =>
      refine ⟨ans.bin, ?_⟩
      exact map_plain 0 dlfree_plain
  | realloc ptr newSize =>
    simp only [Heap.exec, execCall]
    unfold Heap.dlrealloc MallocState.dlrealloc
    split
    · exact ⟨_, dlmalloc_plain⟩
    · split
      · exact ⟨none, rfl⟩
      · cases htry : h.tryReallocChunk c narrow (mem2chunk c ptr) (request2size c newSize) ans with
        | none =>
          have hplain : (h.tryReallocChunk c narrow (mem2chunk c ptr) (request2size c newSize) ans).map Heap.plain =
            h.m.tryReallocChunk c (mem2chunk c ptr) (request2size c newSize) ans := tryReallocChunk_plain
          rw [htry] at hplain
          refine ⟨ans.bin, ?_⟩
          rw [← hplain]
          rfl
        | some r =>
          refine ⟨(r.1.searching c narrow newSize ans).bin, ?_⟩
          have hplain : (h.tryReallocChunk c narrow (mem2chunk c ptr) (request2size c newSize) ans).map Heap.plain =
            h.m.tryReallocChunk c (mem2chunk c ptr) (request2size c newSize) ans := tryReallocChunk_plain
          have hans : h.m.tryReallocChunk c (mem2chunk c ptr) (request2size c newSize)
              { ans with bin := (r.1.searching c narrow newSize ans).bin } =
              h.m.tryReallocChunk c (mem2chunk c ptr) (request2size c newSize) ans := rfl
          rw [htry] at hplain
          rw [hans, ← hplain]
          simp only [Option.bind_some, Option.map_some, Heap.plain]
          cases r.2 with
          | some newp => rfl
          | none =>
            refine map_bind_of dlmalloc_plain fun r' => ?_
            obtain ⟨h', mem⟩ := r'
            by_cases h0 : mem = 0
            · simp [h0]
            · simp only [Heap.plain_mk, h0, ite_false]
              rw [dlfree_bin]
              exact map_plain _ dlfree_plain

end Turf.HeapDL
