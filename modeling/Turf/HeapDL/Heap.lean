import Turf.HeapDL.Bins
import Turf.HeapDL.Realloc

/-!
# The heap with its bins

Every call with the chunks it links into bins and unlinks from them. The searches are those of the
bins, so that only the system is left to answer.
-/
namespace Turf.HeapDL

structure Heap where
  m : MallocState
  bins : Bins

variable (c : Config) (narrow : Bool)

/-! ## The bins in a call -/

/-- `init_bins` -/
def Bins.initBins (b : Bins) : Bins := { b with smallbins := fun _ => [] }

/-- `release_unused_segments`, for which only a large chunk can hold a segment. -/
def releaseLoopBins (ans : Answers) : List Segment → Bins → Bins
  | [], b => b
  | s :: rest, b =>
    match s.chunks with
    | [] => releaseLoopBins ans rest b
    | p :: _ =>
      if !p.isInuse && s.base + s.size - topFootSize c ≤ s.base + p.size then
        let b := if p.isDv then b else b.unlinkLargeChunk narrow s.base p.size
        if ans.munmap s.base s.size then releaseLoopBins ans rest b
        else releaseLoopBins ans rest (b.insertLargeChunk c narrow s.base p.size)
      else releaseLoopBins ans rest b

/-- The free chunk before a chunk that is freed leaves its bin. -/
def Site.behindBins (st : Site) (b : Bins) : Bins :=
  match st.left.getLast? with
  | some prev =>
    if prev.isInuse || prev.isDv then b
    else
      let left := (backward st.left st.chunk.size).1
      b.unlinkChunk narrow (st.seg.base + Lib.Extents.total Chunk.size left) prev.size
  | none => b

/-- So does the one behind, and what they become together is linked into a bin, unless `top` or the
designated victim takes it in. -/
def Site.consolidateBins (st : Site) (b : Bins) : Bins :=
  let (left, psize, isDv) := backward st.left st.chunk.size
  let p := st.seg.base + Lib.Extents.total Chunk.size left
  let b := st.behindBins narrow b
  match st.right with
  | [] => if st.index = 0 then b else if isDv then b else b.insertChunk c narrow p psize
  | next :: _ =>
    if next.isInuse then if isDv then b else b.insertChunk c narrow p psize
    else if next.isDv then b
    else
      let b := b.unlinkChunk narrow (st.address + st.chunk.size) next.size
      if isDv then b else b.insertChunk c narrow p (psize + next.size)

namespace MallocState

/-- `replace_dv`, which takes the designated victim there was for a small chunk. -/
def replaceDvBins (m : MallocState) (b : Bins) : Bins :=
  match m.dv with
  | some st => b.insertSmallChunk st.address st.chunk.size
  | none => b

def takeBinnedBins (small : Bool) (nb : Nat) (m : MallocState) (st : Site) (b : Bins) : Bins :=
  let b := b.unlinkChunk narrow st.address st.chunk.size
  let rsize := st.chunk.size - nb
  if rsize < minChunkSize c then b
  else if small then m.replaceDvBins b
  else b.insertChunk c narrow (st.address + nb) rsize

def prependAllocBins (tbase tsize nb : Nat) (s : Segment) (m : MallocState) (b : Bins) : Bins :=
  let q := tbase + nb
  let qsize := tsize - nb
  if s.base = m.top then b
  else
    match s.chunks with
    | [] => b.insertChunk c narrow q qsize
    | oldfirst :: _ =>
      if oldfirst.isInuse then b.insertChunk c narrow q qsize
      else if oldfirst.isDv then b
      else (b.unlinkChunk narrow s.base oldfirst.size).insertChunk c narrow q (qsize + oldfirst.size)

def addSegmentBins (m : MallocState) (b : Bins) : Bins :=
  match m.segs with
  | [] => b
  | s :: _ =>
    let csp := recordAddress c s
    if csp ≠ s.trailer then b.insertChunk c narrow s.trailer (csp - s.trailer) else b

def useMappingBins (nb tbase tsize : Nat) (m : MallocState) (b : Bins) : Bins :=
  if m.segs = [] then b.initBins
  else
    let after := m.segs.zipIdx.find? fun si => tbase = si.1.base + si.1.size
    match after.filter fun si => si.1.holds m.top with
    | some _ => b
    | none =>
      match m.segs.zipIdx.find? fun si => si.1.base = tbase + tsize with
      | some (s, _) => m.prependAllocBins c narrow tbase tsize nb s b
      | none => m.addSegmentBins c narrow b

def sysAllocBins (nb : Nat) (ans : Answers) (m : MallocState) (b : Bins) : Bins :=
  let direct :=
    if m.useMmap && defaultMmapThreshold ≤ nb && m.topsize ≠ 0 then m.mmapAlloc c nb ans else none
  match direct with
  | some _ => b
  | none =>
    let asize := sysAllocSize c nb
    if asize ≤ nb || m.overLimit c asize then b
    else
      match ans.mmap with
      | none => b
      | some tbase => m.useMappingBins c narrow nb tbase asize b

def serveBins (bytes : Nat) (ans : Answers) (m : MallocState) (b : Bins) : Bins :=
  let nb := paddedRequest c bytes
  match ans.bin.bind m.binnedAt with
  | some st => m.takeBinnedBins c narrow (bytes ≤ maxSmallRequest c) nb st b
  | none =>
    match m.dv.filter fun st => nb ≤ st.chunk.size with
    | some _ => b
    | none => if nb < m.topsize then b else m.sysAllocBins c narrow nb ans b

end MallocState

/-! ## Calls -/

namespace Heap

/-- What `dlmalloc` is answered when the bins are searched for the request. -/
def searching (bytes : Nat) (ans : Answers) (h : Heap) : Answers :=
  { ans with bin := (h.bins.search c narrow bytes h.m.dvsize).map Prod.fst }

def dlmalloc (bytes : Nat) (ans : Answers) (h : Heap) : Option (Heap × Nat) :=
  let ans := h.searching c narrow bytes ans
  (h.m.dlmalloc c bytes ans).map fun r => (⟨r.1, h.m.serveBins c narrow bytes ans h.bins⟩, r.2)

def consolidate (st : Site) (h : Heap) : Heap × Landing :=
  let r := h.m.consolidate st
  (⟨r.1, st.consolidateBins c narrow h.bins⟩, r.2)

def releaseUnusedSegments (ans : Answers) (h : Heap) : Heap × Nat :=
  let r := h.m.releaseUnusedSegments c ans
  (⟨r.1, releaseLoopBins c narrow ans h.m.segs.tail h.bins⟩, r.2)

def sysTrim (pad : Nat) (ans : Answers) (h : Heap) : Heap :=
  if pad < maxRequest c && h.m.segs ≠ [] then
    let shrunk := h.m.shrinkTop c (pad + topFootSize c) ans
    let r := Heap.releaseUnusedSegments c narrow ans ⟨shrunk.1, h.bins⟩
    if shrunk.2 + r.2 = 0 && r.1.m.trimCheck < r.1.m.topsize then
      { r.1 with m := { r.1.m with trimCheck := maxSizeT c } }
    else r.1
  else h

def afterFree (landing : Landing) (ans : Answers) (h : Heap) : Heap :=
  match landing with
  | .top => if h.m.trimCheck < h.m.topsize then h.sysTrim c narrow 0 ans else h
  | .dv => h
  | .bin psize =>
    if isSmall psize then h
    else
      let m := { h.m with releaseChecks := (h.m.releaseChecks + maxSizeT c) % modulus c }
      let h := { h with m := m }
      if h.m.releaseChecks = 0 then (h.releaseUnusedSegments c narrow ans).1 else h

def dlfree (mem : Nat) (ans : Answers) (h : Heap) : Option Heap :=
  if mem = 0 then some h
  else
    let p := mem2chunk c mem
    if p < h.m.leastAddr then none
    else
      match h.m.inuseAt p with
      | some st =>
        let r := Heap.consolidate c narrow st { h with m := h.m.subInUse c st.chunk.size }
        some (r.1.afterFree c narrow r.2 ans)
      | none => (h.m.dlfree c mem ans).map fun m => { h with m := m }

def disposeChunk (p : Nat) (h : Heap) : Option Heap :=
  (h.m.inuseAt p).map fun st => (h.consolidate c narrow st).1

def splitInuse (p n : Nat) (h : Heap) : Option Heap :=
  (h.m.splitInuse p n).map fun m => { h with m := m }

def giveBackLeader (p n : Nat) (h : Heap) : Option Heap :=
  (h.splitInuse p n).bind fun h => h.disposeChunk c narrow p

def giveBackRest (p n : Nat) (h : Heap) : Option Heap :=
  (h.splitInuse p n).bind fun h => h.disposeChunk c narrow (p + n)

def alignLeader (alignment p : Nat) (h : Heap) : Option (Heap × Nat) :=
  if chunk2mem c p % alignment = 0 then some (h, p)
  else
    let newp := alignedPos c alignment p
    if (h.m.inuseAt p).isSome then (h.giveBackLeader c narrow p (newp - p)).map fun h => (h, newp)
    else (h.m.alignLeader c alignment p).map fun r => ({ h with m := r.1 }, r.2)

def trimRest (nb p : Nat) (h : Heap) : Option Heap :=
  match h.m.inuseAt p with
  | some st => if nb + minChunkSize c < st.chunk.size then h.giveBackRest c narrow p nb else some h
  | none => some h

def alignBlock (nb alignment p : Nat) (h : Heap) : Option (Heap × Nat) :=
  (h.alignLeader c narrow alignment p).bind fun r =>
    (r.1.trimRest c narrow nb r.2).map fun h => (h, chunk2mem c r.2)

def internalMemalign (alignment bytes : Nat) (ans : Answers) (h : Heap) : Option (Heap × Nat) :=
  (roundAlignment c alignment).bind fun alignment =>
    if maxRequest c - alignment ≤ bytes then some (h, 0)
    else
      (h.dlmalloc c narrow (alignedRequest c alignment bytes) ans).bind fun r =>
        if r.2 = 0 then some r
        else r.1.alignBlock c narrow (request2size c bytes) alignment (mem2chunk c r.2)

def dlmemalign (alignment bytes : Nat) (ans : Answers) (h : Heap) : Option (Heap × Nat) :=
  if alignment ≤ mallocAlignment c then h.dlmalloc c narrow bytes ans
  else h.internalMemalign c narrow alignment bytes ans

/-- The next chunk is unlinked where it is large enough and is not the designated victim. -/
def resizeInPlace (p nb : Nat) (st : Site) (h : Heap) : Option (Heap × Option Nat) :=
  let oldsize := st.chunk.size
  if nb ≤ oldsize then
    if minChunkSize c ≤ oldsize - nb then (h.giveBackRest c narrow p nb).map fun h => (h, some p)
    else some (h, some p)
  else
    match st.right with
    | [] => (h.m.resizeInPlace c p nb st).map fun r => ({ h with m := r.1 }, r.2)
    | next :: right =>
      if next.isInuse || oldsize + next.size < nb then some (h, none)
      else
        let rsize := oldsize + next.size - nb
        let b := h.bins.unlinkChunk narrow (st.address + oldsize) next.size
        if next.isDv then (h.m.resizeInPlace c p nb st).map fun r => ({ h with m := r.1 }, r.2)
        else if rsize < minChunkSize c then
          some (⟨h.m.write st (st.left ++ ⟨oldsize + next.size, .inuse⟩ :: right), b⟩, some p)
        else
          (Heap.disposeChunk c narrow (p + nb)
            ⟨h.m.write st (st.left ++ ⟨nb, .inuse⟩ :: ⟨rsize, .inuse⟩ :: right), b⟩).map
              fun h => (h, some p)

def tryReallocChunk (p nb : Nat) (ans : Answers) (h : Heap) : Option (Heap × Option Nat) :=
  if p < h.m.leastAddr then none
  else
    match h.m.inuseAt p with
    | some st => h.resizeInPlace c narrow p nb st
    | none => (h.m.tryReallocChunk c p nb ans).map fun r => ({ h with m := r.1 }, r.2)

def dlrealloc (oldmem bytes : Nat) (ans : Answers) (h : Heap) : Option (Heap × Nat) :=
  if oldmem = 0 then h.dlmalloc c narrow bytes ans
  else if maxRequest c ≤ bytes then some (h, 0)
  else
    (h.tryReallocChunk c narrow (mem2chunk c oldmem) (request2size c bytes) ans).bind fun r =>
      match r.2 with
      | some newp => some (r.1, chunk2mem c newp)
      | none =>
        (r.1.dlmalloc c narrow bytes ans).bind fun r =>
          if r.2 = 0 then some r else (r.1.dlfree c narrow oldmem ans).map fun h => (h, r.2)

/-- A call on an `Operator`. -/
def exec (h : Heap) (ans : Answers) : Call → Option (Heap × Nat)
  | .op (.alloc size) => h.dlmalloc c narrow size ans
  | .op (.allocAligned size alignment) => h.dlmemalign c narrow alignment size ans
  | .op (.free ptr) => (h.dlfree c narrow ptr ans).map fun h => (h, 0)
  | .realloc ptr newSize => h.dlrealloc c narrow ptr newSize ans

end Heap

end Turf.HeapDL
