import Turf.HeapDL.Malloc

/-!
# dlfree, trimming and dlmemalign
-/
namespace Turf.HeapDL

open Turf.Lib.Extents

variable (c : Config)

/-- Where a freed chunk ends up: in `top`, as the designated victim, or in a bin with the size
it has there. -/
inductive Landing where
  | top
  | dv
  | bin (psize : Nat)
  deriving DecidableEq, Repr

/-- Consolidation with the chunk before: what is left before, the size and whether the chunk
taken in was the designated victim. -/
def backward (left : List Chunk) (psize : Nat) : List Chunk × Nat × Bool :=
  match left.getLast? with
  | some prev =>
    if prev.isInuse then (left, psize, false) else (left.dropLast, prev.size + psize, prev.isDv)
  | none => (left, psize, false)

def landingOf (psize : Nat) (isDv : Bool) : Landing := if isDv then .dv else .bin psize

/-- The loop of `release_unused_segments` over the segments behind `m->seg`: those that stay,
and the bytes released. A segment goes when its first chunk is free and spans it. -/
def releaseLoop (ans : Answers) : List Segment → List Segment × Nat
  | [] => ([], 0)
  | s :: rest =>
    let r := releaseLoop ans rest
    match s.chunks with
    | [] => (s :: r.1, r.2)
    | p :: more =>
      if !p.isInuse && s.base + s.size - topFootSize c ≤ s.base + p.size then
        if ans.munmap s.base s.size then (r.1, s.size + r.2)
        else ({ s with chunks := { p with state := .binned } :: more } :: r.1, r.2)
      else (s :: r.1, r.2)

namespace MallocState

/-- The consolidation that `dlfree` and `dispose_chunk` share. Behind the last chunk of the
first segment comes `top`, behind that of any other its record, which is in use. -/
def consolidate (m : MallocState) (st : Site) : MallocState × Landing :=
  let (left, psize, isDv) := backward st.left st.chunk.size
  match st.right with
  | [] =>
    if st.index = 0 then ({ m.write st left with topsize := m.topsize + psize }, .top)
    else (m.write st (left ++ [freeChunk psize isDv]), landingOf psize isDv)
  | next :: right =>
    if next.isInuse then
      (m.write st (left ++ freeChunk psize isDv :: next :: right), landingOf psize isDv)
    else
      (m.write st (left ++ freeChunk (psize + next.size) (isDv || next.isDv) :: right),
        landingOf (psize + next.size) (isDv || next.isDv))

/-- `release_unused_segments`, with the bytes it released. -/
def releaseUnusedSegments (ans : Answers) (m : MallocState) : MallocState × Nat :=
  match m.segs with
  | [] => ({ m with releaseChecks := maxReleaseCheckRate }, 0)
  | s :: others =>
    let r := releaseLoop c ans others
    ({ m with
      segs := s :: r.1
      footprint := (m.footprint + modulus c - r.2 % modulus c) % modulus c
      releaseChecks := max others.length maxReleaseCheckRate }, r.2)

/-- Whether a segment contains the record of some segment. -/
def hasSegmentLink (ss : Segment) (m : MallocState) : Bool :=
  m.segs.tail.any fun sp => ss.holds (chunk2mem c sp.trailer)

/-- The part of `sys_trim` that shrinks the top segment, with the bytes it released. -/
def shrinkTop (pad : Nat) (ans : Answers) (m : MallocState) : MallocState × Nat :=
  match m.segs with
  | [] => (m, 0)
  | sp :: others =>
    let unit := granularity c
    let extra := ((m.topsize - pad + (unit - 1)) / unit - 1) * unit
    let newsize := sp.size - extra
    if pad < m.topsize && extra ≤ sp.size && !m.hasSegmentLink c sp
        && (ans.mremap.isSome || ans.munmap (sp.base + newsize) extra) && extra ≠ 0 then
      ({ m.initTop (m.topsize - extra) with
        segs := { sp with size := newsize } :: others
        footprint := (m.footprint + modulus c - extra % modulus c) % modulus c }, extra)
    else (m, 0)

def sysTrim (pad : Nat) (ans : Answers) (m : MallocState) : MallocState :=
  if pad < maxRequest c && m.segs ≠ [] then
    let shrunk := m.shrinkTop c (pad + topFootSize c) ans
    let r := shrunk.1.releaseUnusedSegments c ans
    if shrunk.2 + r.2 = 0 && r.1.trimCheck < r.1.topsize then { r.1 with trimCheck := maxSizeT c }
    else r.1
  else m

/-- What `dlfree` does once the chunk has landed. -/
def afterFree (landing : Landing) (ans : Answers) (m : MallocState) : MallocState :=
  match landing with
  | .top => if m.trimCheck < m.topsize then m.sysTrim c 0 ans else m
  | .dv => m
  | .bin psize =>
    if isSmall psize then m
    else
      let m := { m with releaseChecks := (m.releaseChecks + maxSizeT c) % modulus c }
      if m.releaseChecks = 0 then (m.releaseUnusedSegments c ans).1 else m

def subInUse (psize : Nat) (m : MallocState) : MallocState :=
  if c.fastStats then
    { m with inUseBytes := (m.inUseBytes + modulus c - psize % modulus c) % modulus c }
  else m

def dlfree (mem : Nat) (ans : Answers) (m : MallocState) : Option MallocState :=
  if mem = 0 then some m
  else
    let p := mem2chunk c mem
    if p < m.leastAddr then none
    else
      match m.inuseAt p with
      | some st =>
        let r := (m.subInUse c st.chunk.size).consolidate st
        some (r.1.afterFree c r.2 ans)
      | none =>
        (m.direct.find? fun d => d.address = p).map fun d =>
          let m := m.subInUse c (d.psize c)
          let fp := if ans.munmap d.region d.mmsize then
              (m.footprint + modulus c - d.mmsize % modulus c) % modulus c else m.footprint
          { m with footprint := fp, direct := m.direct.erase d }

/-- `dispose_chunk` of the chunk in use at `p`. -/
def disposeChunk (p : Nat) (m : MallocState) : Option MallocState :=
  (m.inuseAt p).map fun st => (m.consolidate st).1

/-- The chunk in use at `p` becomes two chunks in use, the first one of `n` bytes. -/
def splitInuse (p n : Nat) (m : MallocState) : Option MallocState :=
  (m.inuseAt p).map fun st =>
    m.write st (st.left ++ ⟨n, .inuse⟩ :: ⟨st.chunk.size - n, .inuse⟩ :: st.right)

/-- The first `n` bytes of the chunk in use at `p` are given back. -/
def giveBackLeader (p n : Nat) (m : MallocState) : Option MallocState :=
  (m.splitInuse p n).bind (disposeChunk p)

/-- All but the first `n` bytes of the chunk in use at `p` are given back. -/
def giveBackRest (p n : Nat) (m : MallocState) : Option MallocState :=
  (m.splitInuse p n).bind (disposeChunk (p + n))

end MallocState

end Turf.HeapDL
