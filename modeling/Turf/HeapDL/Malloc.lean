import Turf.HeapDL.Model

/-!
# dlmalloc and dlfree

The functions follow the source branch by branch. A result of `none` is a call that does not
return: it runs into `ABORT` or reads a header where there is no chunk.
-/
namespace Turf.HeapDL

open Turf.Lib.Extents

variable (c : Config)

/-- The padded request; one that is too big becomes one that no branch can serve. -/
def paddedRequest (bytes : Nat) : Nat :=
  if bytes ≤ maxSmallRequest c then request2size c bytes
  else if maxRequest c ≤ bytes then maxSizeT c
  else padRequest c bytes

/-- The size of the mapping that `sys_alloc` asks for. -/
def sysAllocSize (nb : Nat) : Nat := granularityAlign c ((nb + sysAllocPadding c) % modulus c)

/-- The chunks of a segment extended downwards by `tsize` bytes, `nb` of them in use. -/
def prependChunks (nb qsize : Nat) : List Chunk → List Chunk
  | [] => [⟨nb, .inuse⟩, ⟨qsize, .binned⟩]
  | oldfirst :: rest =>
    if oldfirst.isInuse then ⟨nb, .inuse⟩ :: ⟨qsize, .binned⟩ :: oldfirst :: rest
    else ⟨nb, .inuse⟩ :: { oldfirst with size := qsize + oldfirst.size } :: rest

/-- The address the record of the old top segment gets: where `TOP_FOOT_SIZE` begins, or the
old top itself when there is no room for a chunk below that. -/
def recordAddress (s : Segment) : Nat :=
  let oldTop := s.trailer
  let rawsp := s.base + s.size - (segmentRecordSize c + 4 * sizeT c + chunkAlignMask c)
  let asp := rawsp + alignOffset c (chunk2mem c rawsp)
  if asp < oldTop + minChunkSize c then oldTop else asp

/-- The old top segment, its top turned into a free chunk below the record. -/
def closeSegment (s : Segment) : Segment :=
  let csp := recordAddress c s
  if csp ≠ s.trailer then { s with chunks := s.chunks ++ [⟨csp - s.trailer, .binned⟩] } else s

namespace MallocState

/-- The chunk a bin search found, whole or split. The remainder becomes the designated victim
for a small request and goes into a bin for a large one. -/
def takeBinned (small : Bool) (nb : Nat) (m : MallocState) (st : Site) : MallocState :=
  let rsize := st.chunk.size - nb
  if rsize < minChunkSize c then
    m.write st (st.left ++ ⟨st.chunk.size, .inuse⟩ :: st.right)
  else if small then
    m.retireDv.write st (st.left.map Chunk.retireDv ++
      ⟨nb, .inuse⟩ :: ⟨rsize, .dv⟩ :: st.right.map Chunk.retireDv)
  else
    m.write st (st.left ++ ⟨nb, .inuse⟩ :: ⟨rsize, .binned⟩ :: st.right)

/-- The designated victim, split or exhausted. -/
def takeDv (nb : Nat) (m : MallocState) (st : Site) : MallocState :=
  let rsize := st.chunk.size - nb
  if minChunkSize c ≤ rsize then
    m.write st (st.left ++ ⟨nb, .inuse⟩ :: ⟨rsize, .dv⟩ :: st.right)
  else
    m.write st (st.left ++ ⟨st.chunk.size, .inuse⟩ :: st.right)

/-- The low end of `top`. -/
def splitTop (nb : Nat) (m : MallocState) : MallocState :=
  match m.segs with
  | [] => m
  | s :: others =>
    { m with
      topsize := m.topsize - nb
      segs := { s with chunks := s.chunks ++ [⟨nb, .inuse⟩] } :: others }

def addFootprint (size : Nat) (m : MallocState) : MallocState :=
  let fp := (m.footprint + size) % modulus c
  { m with footprint := fp, maxFootprint := max m.maxFootprint fp }

/-- Whether a footprint limit refuses `size` further bytes. -/
def overLimit (size : Nat) (m : MallocState) : Bool :=
  let fp := (m.footprint + size) % modulus c
  m.footprintLimit ≠ 0 && (fp ≤ m.footprint || m.footprintLimit < fp)

def useMmap (m : MallocState) : Bool := m.mflags &&& useMmapBit ≠ 0

/-- The chunk's address, if the chunk is mapped on its own. -/
def mmapAlloc (nb : Nat) (ans : Answers) (m : MallocState) : Option (MallocState × Nat) :=
  let mmsize := mmapAlign c ((nb + 6 * sizeT c + chunkAlignMask c) % modulus c)
  if m.overLimit c mmsize || mmsize ≤ nb then none
  else
    match ans.directMmap with
    | none => none
    | some mm =>
      let offset := alignOffset c (chunk2mem c mm)
      let m := m.addFootprint c mmsize
      let least := if m.leastAddr = 0 then mm else min mm m.leastAddr
      some ({ m with direct := ⟨mm, mmsize, offset⟩ :: m.direct, leastAddr := least }, mm + offset)

/-- What `init_top` records of the top chunk; where it starts is where the chunks end. -/
def initTop (psize : Nat) (m : MallocState) : MallocState :=
  { m with topsize := psize, trimCheck := defaultTrimThreshold }

def prependAlloc (tbase tsize nb i : Nat) (s : Segment) (m : MallocState) : MallocState :=
  let qsize := tsize - nb
  if s.base = m.top then
    { m with
      topsize := m.topsize + qsize
      segs := m.segs.set i ⟨tbase, s.size + tsize, ⟨nb, .inuse⟩ :: s.chunks⟩ }
  else
    { m with segs := m.segs.set i ⟨tbase, s.size + tsize, prependChunks nb qsize s.chunks⟩ }

def addSegment (tbase tsize : Nat) (m : MallocState) : MallocState :=
  match m.segs with
  | [] => m
  | s :: others =>
    { m.initTop (tsize - topFootSize c) with
      segs := ⟨tbase, tsize, []⟩ :: closeSegment c s :: others }

/-- The new or extended top serves the request, if it is large enough. -/
def allocFromTop (nb : Nat) (m : MallocState) : MallocState × Nat :=
  if nb < m.topsize then (m.splitTop nb, chunk2mem c m.top) else (m, 0)

/-- `sys_alloc` with a mapping of `tsize` bytes at `tbase`. -/
def useMapping (nb tbase tsize : Nat) (m : MallocState) : MallocState × Nat :=
  let m := m.addFootprint c tsize
  if m.segs = [] then
    let least := if m.leastAddr = 0 then tbase else min tbase m.leastAddr
    allocFromTop c nb
      { m.initTop (tsize - topFootSize c) with
        leastAddr := least, releaseChecks := maxReleaseCheckRate, segs := [⟨tbase, tsize, []⟩] }
  else
    let after := m.segs.zipIdx.find? fun si => tbase = si.1.base + si.1.size
    match after.filter fun si => si.1.holds m.top with
    | some (s, i) =>
      allocFromTop c nb
        { m.initTop (m.topsize + tsize) with
          segs := m.segs.set i { s with size := s.size + tsize } }
    | none =>
      let m := { m with leastAddr := min tbase m.leastAddr }
      match m.segs.zipIdx.find? fun si => si.1.base = tbase + tsize with
      | some (s, i) => (m.prependAlloc tbase tsize nb i s, chunk2mem c tbase)
      | none => allocFromTop c nb (m.addSegment c tbase tsize)

def sysAlloc (nb : Nat) (ans : Answers) (m : MallocState) : MallocState × Nat :=
  let direct :=
    if m.useMmap && defaultMmapThreshold ≤ nb && m.topsize ≠ 0 then m.mmapAlloc c nb ans else none
  match direct with
  | some (m, p) => (m, chunk2mem c p)
  | none =>
    let asize := sysAllocSize c nb
    if asize ≤ nb || m.overLimit c asize then (m, 0)
    else
      match ans.mmap with
      | none => (m, 0)
      | some tbase => m.useMapping c nb tbase asize

/-- `dlmalloc` up to its `postaction`: the block's address, 0 for a null pointer. -/
def serve (bytes : Nat) (ans : Answers) (m : MallocState) : MallocState × Nat :=
  let nb := paddedRequest c bytes
  match ans.bin.bind m.binnedAt with
  | some st => (m.takeBinned c (bytes ≤ maxSmallRequest c) nb st, chunk2mem c st.address)
  | none =>
    match m.dv.filter fun st => nb ≤ st.chunk.size with
    | some st => (m.takeDv c nb st, chunk2mem c st.address)
    | none =>
      if nb < m.topsize then (m.splitTop nb, chunk2mem c m.top) else m.sysAlloc c nb ans

/-- `dlmalloc`: the fast counter grows by the size in the header below the returned address,
which is read for a null pointer too. -/
def dlmalloc (bytes : Nat) (ans : Answers) (m : MallocState) : Option (MallocState × Nat) :=
  let r := m.serve c bytes ans
  if c.fastStats then
    (r.1.chunksize c (mem2chunk c r.2)).map fun n =>
      ({ r.1 with inUseBytes := (r.1.inUseBytes + n) % modulus c }, r.2)
  else some r

end MallocState

end Turf.HeapDL
