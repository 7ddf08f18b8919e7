import Turf.Lib.Extents
import Mathlib.Algebra.Group.Nat.Defs

/-!
# The state of Heap_DL and its allocator

`Heap_DL` is Doug Lea's allocator over a caller-supplied zeroed `malloc_state`, with
`HAVE_MORECORE` 0 and without footers. A segment is modelled as the list of its chunks in
address order, so that the boundary tags are the neighbours in that list. Which free chunk a
smallbin or treebin search yields and what the system answers are inputs of a call.
-/
namespace Turf.HeapDL

open Turf.Lib.Extents

/-- The build and the platform: whether `TURF_DLMALLOC_FAST_STATS` is set, the width of `size_t`
and the allocation granularity, a power of two. No page is smaller than the padding of a system
request. -/
structure Config where
  fastStats : Bool
  wide : Bool
  granularityShift : Nat
  granularity_large : 7 ≤ granularityShift
  granularity_fits : granularityShift < if wide then 64 else 32

/-- The fast statistics on, 8-byte `size_t` and pages of 4 KiB. -/
def pages4K : Config := ⟨true, true, 12, by decide, by decide⟩

variable (c : Config)

def sizeT : Nat := if c.wide then 8 else 4

/-- One more than `MAX_SIZE_T`. -/
def modulus : Nat := if c.wide then 2 ^ 64 else 2 ^ 32

def granularity : Nat := 2 ^ c.granularityShift

/-- `(x + (a - 1)) & ~(a - 1)` for a power of two `a`. -/
def roundUp (x a : Nat) : Nat := (x + (a - 1)) / a * a

def mallocAlignment : Nat := 2 * sizeT c
def chunkAlignMask : Nat := mallocAlignment c - 1
def chunkOverhead : Nat := sizeT c
def minChunkSize : Nat := roundUp (4 * sizeT c) (mallocAlignment c)
def minRequest : Nat := minChunkSize c - chunkOverhead c - 1
def maxRequest : Nat := (modulus c - minChunkSize c) * 4 % modulus c
def maxSizeT : Nat := modulus c - 1

def alignOffset (a : Nat) : Nat :=
  if a % mallocAlignment c = 0 then 0
  else (mallocAlignment c - a % mallocAlignment c) % mallocAlignment c

def chunk2mem (p : Nat) : Nat := p + 2 * sizeT c
def mem2chunk (mem : Nat) : Nat := (mem + modulus c - 2 * sizeT c) % modulus c

def padRequest (req : Nat) : Nat := roundUp (req + chunkOverhead c) (mallocAlignment c)

def request2size (req : Nat) : Nat :=
  if req < minRequest c then minChunkSize c else padRequest c req

/-- `pad_request(sizeof(struct malloc_segment))`: two pointers, a size and the flags. -/
def segmentRecordSize : Nat := padRequest c (4 * sizeT c)

def topFootSize : Nat :=
  alignOffset c (chunk2mem c 0) + segmentRecordSize c + minChunkSize c

def sysAllocPadding : Nat := topFootSize c + mallocAlignment c

def maxSmallRequest : Nat := 255 - chunkAlignMask c - chunkOverhead c
def isSmall (s : Nat) : Bool := s / 8 < 32

def granularityAlign (s : Nat) : Nat :=
  (s + (granularity c - 1)) % modulus c / granularity c * granularity c

/-- `mmap_align` is `granularity_align` on Windows and `page_align` elsewhere, where the page
size is the granularity. -/
def mmapAlign (s : Nat) : Nat := granularityAlign c s

def defaultMmapThreshold : Nat := 256 * 1024
def defaultTrimThreshold : Nat := 2 * 1024 * 1024
def maxReleaseCheckRate : Nat := 4095
def useMmapBit : Nat := 1

/-- A chunk is in use, or free and either held by a bin or the designated victim. -/
inductive ChunkState where
  | inuse
  | binned
  | dv
  deriving DecidableEq, Repr

structure Chunk where
  size : Nat
  state : ChunkState
  deriving DecidableEq, Repr

def Chunk.isInuse (p : Chunk) : Bool := p.state = .inuse
def Chunk.isDv (p : Chunk) : Bool := p.state = .dv

/-- A free chunk that is the designated victim or not. -/
def freeChunk (size : Nat) (isDv : Bool) : Chunk := ⟨size, if isDv then .dv else .binned⟩

/-- `replace_dv` bins the designated victim there was. -/
def Chunk.retireDv (p : Chunk) : Chunk := if p.isDv then { p with state := .binned } else p

/-- The chunks of a segment from its base up to its trailer: `top` in the segment `m->seg`,
the segment's own record and the fenceposts in any other. Segments come from the system in
whole pages, so the first chunk starts at the base and no alignment offset arises. -/
structure Segment where
  base : Nat
  size : Nat
  chunks : List Chunk
  deriving DecidableEq, Repr

def Segment.total (s : Segment) : Nat := Lib.Extents.total Chunk.size s.chunks

/-- The address behind the chunks: `m->top` in `m->seg`, the record's chunk elsewhere. -/
def Segment.trailer (s : Segment) : Nat := s.base + s.total

def Segment.holds (s : Segment) (a : Nat) : Prop := s.base ≤ a ∧ a < s.base + s.size

instance (s : Segment) (a : Nat) : Decidable (s.holds a) := inferInstanceAs (Decidable (_ ∧ _))

/-- A chunk mapped on its own, `offset` bytes into its region. -/
structure Direct where
  region : Nat
  mmsize : Nat
  offset : Nat
  deriving DecidableEq, Repr

def Direct.address (d : Direct) : Nat := d.region + d.offset
def Direct.psize (d : Direct) : Nat := d.mmsize - d.offset - 4 * sizeT c

/-- `malloc_state`. `segs` is `m->seg` and the segments linked from it, empty as long as
`m->top` is null. -/
structure MallocState where
  segs : List Segment
  direct : List Direct
  topsize : Nat
  trimCheck : Nat
  releaseChecks : Nat
  leastAddr : Nat
  footprint : Nat
  maxFootprint : Nat
  footprintLimit : Nat
  mflags : Nat
  inUseBytes : Nat
  deriving DecidableEq, Repr

/-- `zeroInit` -/
def MallocState.zeroInit : MallocState := ⟨[], [], 0, 0, 0, 0, 0, 0, 0, 0, 0⟩

/-- What the bin search and the system answer during one call: the chunk the search yields,
the base of a direct and of an ordinary mapping, where `mremap` leaves a region, and which
regions `munmap` releases. -/
structure Answers where
  bin : Option Nat
  directMmap : Option Nat
  mmap : Option Nat
  mremap : Option Nat
  munmap : Nat → Nat → Bool

/-- A chunk of a segment between its neighbours. -/
structure Site where
  index : Nat
  seg : Segment
  left : List Chunk
  chunk : Chunk
  right : List Chunk

def Site.address (st : Site) : Nat := st.seg.base + Lib.Extents.total Chunk.size st.left

namespace MallocState

variable (m : MallocState)

def top : Nat :=
  match m.segs with
  | [] => 0
  | s :: _ => s.trailer

/-- The first chunk of the segments that a test of its address and itself selects. -/
def find (sel : Nat → Chunk → Bool) : Option Site :=
  m.segs.zipIdx.findSome? fun si =>
    (split? Chunk.size sel si.1.base si.1.chunks).map fun r => ⟨si.2, si.1, r.1, r.2.1, r.2.2⟩

/-- The chunk in use at an address. -/
def inuseAt (p : Nat) : Option Site := m.find fun q x => q = p && x.isInuse

/-- The chunk at an address that some bin holds. -/
def binnedAt (p : Nat) : Option Site := m.find fun q x => q = p && x.state = .binned

def dv : Option Site := m.find fun _ x => x.isDv

def dvsize : Nat :=
  match m.dv with
  | some st => st.chunk.size
  | none => 0

/-- The segment of the site with other chunks. -/
def write (st : Site) (cs : List Chunk) : MallocState :=
  { m with segs := m.segs.set st.index { st.seg with chunks := cs } }

def retireDv : MallocState :=
  { m with segs := m.segs.map fun s => { s with chunks := s.chunks.map Chunk.retireDv } }

/-- The extents of the chunks in use, chunks mapped on their own apart. -/
def blocks : List (Nat × Nat) :=
  m.segs.flatMap fun s => marked Chunk.size Chunk.isInuse s.base s.chunks

/-- `chunksize` of the chunk in use at an address, as its header has it. -/
def chunksize (p : Nat) : Option Nat :=
  match m.inuseAt p with
  | some st => some st.chunk.size
  | none => (m.direct.find? fun d => d.address = p).map (Direct.psize c)

end MallocState

end Turf.HeapDL
