import Turf.HeapDL.Free

/-!
# dlmemalign, the statistics and runs of an Operator

A run starts from a zeroed heap and takes one `Operator` call after another, each under the
heap's lock, with any answers of the bin search and the system that the call can get. A call
that does not return stops the run.
-/
namespace Turf.HeapDL

open Turf.Lib.Extents

variable (c : Config)

/-- `while (a < alignment) a <<= 1;` for at most as many turns as are given. -/
def doubleTo (alignment : Nat) : Nat → Nat → Option Nat
  | 0, _ => none
  | turns + 1, a =>
    if a < alignment then doubleTo alignment turns (a * 2 % modulus c) else some a

/-- The alignment that `internal_memalign` works with, a power of two. Where the loop has not
ended after as many turns as `size_t` has bits, `a` is 0 and it never ends. -/
def roundAlignment (alignment : Nat) : Option Nat :=
  let alignment := max alignment (minChunkSize c)
  if alignment &&& (alignment - 1) ≠ 0 then
    doubleTo c alignment (8 * sizeT c) (mallocAlignment c * 2)
  else some alignment

/-- The bytes that `internal_memalign` asks `dlmalloc` for. -/
def alignedRequest (alignment bytes : Nat) : Nat :=
  request2size c bytes + alignment + minChunkSize c - chunkOverhead c

/-- The first address in the chunk at `p` from which an aligned block can start with room for
a chunk below it. -/
def alignedPos (alignment p : Nat) : Nat :=
  let br := (chunk2mem c p + alignment - 1) / alignment * alignment - 2 * sizeT c
  if minChunkSize c ≤ br - p then br else br + alignment

namespace MallocState

/-- The part of a misaligned chunk at `p` below the aligned address is given back; a chunk
mapped on its own just moves its offset. -/
def alignLeader (alignment p : Nat) (m : MallocState) : Option (MallocState × Nat) :=
  if chunk2mem c p % alignment = 0 then some (m, p)
  else
    let newp := alignedPos c alignment p
    let leadsize := newp - p
    if (m.inuseAt p).isSome then (m.giveBackLeader p leadsize).map fun m => (m, newp)
    else
      let shift := fun d : Direct =>
        if d.address = p then { d with offset := d.offset + leadsize } else d
      some ({ m with direct := m.direct.map shift }, newp)

/-- Spare room at the end of the chunk at `p` is given back. -/
def trimRest (nb p : Nat) (m : MallocState) : Option MallocState :=
  match m.inuseAt p with
  | some st => if nb + minChunkSize c < st.chunk.size then m.giveBackRest p nb else some m
  | none => some m

def alignBlock (nb alignment p : Nat) (m : MallocState) : Option (MallocState × Nat) :=
  (m.alignLeader c alignment p).bind fun r =>
    (r.1.trimRest c nb r.2).map fun m => (m, chunk2mem c r.2)

def internalMemalign (alignment bytes : Nat) (ans : Answers) (m : MallocState) :
    Option (MallocState × Nat) :=
  (roundAlignment c alignment).bind fun alignment =>
    if maxRequest c - alignment ≤ bytes then some (m, 0)
    else
      (m.dlmalloc c (alignedRequest c alignment bytes) ans).bind fun r =>
        if r.2 = 0 then some r
        else r.1.alignBlock c (request2size c bytes) alignment (mem2chunk c r.2)

def dlmemalign (alignment bytes : Nat) (ans : Answers) (m : MallocState) :
    Option (MallocState × Nat) :=
  if alignment ≤ mallocAlignment c then m.dlmalloc c bytes ans
  else m.internalMemalign c alignment bytes ans

end MallocState

/-- What the traversal finds in a segment, one header after the other. -/
inductive Cell where
  | chunk (p : Chunk)
  | top (psize : Nat)
  | record
  | fencepost
  deriving DecidableEq, Repr

def Cell.size : Cell → Nat
  | .chunk p => p.size
  | .top psize => psize
  | .record => segmentRecordSize c
  | .fencepost => sizeT c

/-- A segment record and a fencepost have the header of a chunk in use. -/
def Cell.isInuse : Cell → Bool
  | .chunk p => p.isInuse
  | .top _ => false
  | .record => true
  | .fencepost => true

/-- `add_segment` puts one fencepost behind the record, and the next one as long as its header
lies below the end of the segment. -/
def fenceposts (s : Segment) : List Cell :=
  let room := s.base + s.size - (s.trailer + segmentRecordSize c) - 2 * sizeT c
  List.replicate (1 + (room + (sizeT c - 1)) / sizeT c) .fencepost

namespace MallocState

def cells (m : MallocState) (s : Segment) (i : Nat) : List Cell :=
  s.chunks.map .chunk ++ if i = 0 then [.top m.topsize] else .record :: fenceposts c s

/-- The inner loop of `internal_malloc_stats`: `sc` is the chunk of the segment's record, if
the record lies in a segment at all. -/
def usedFrom (m : MallocState) (s : Segment) (sc : Option Nat) : Nat → List Cell → Nat
  | _, [] => 0
  | q, x :: xs =>
    if s.holds q ∧ q ≠ m.top ∧ x ≠ .fencepost then
      (if x.isInuse ∧ sc ≠ some q then x.size c else 0) + usedFrom m s sc (q + x.size c) xs
    else 0

def usedIn (m : MallocState) (s : Segment) (i : Nat) : Nat :=
  m.usedFrom c s (if i = 0 then none else some s.trailer) s.base (m.cells c s i)

end MallocState

structure Stats where
  peakSystemBytes : Nat
  systemBytes : Nat
  inUseBytes : Nat
  deriving DecidableEq, Repr

def internalMallocStats (m : MallocState) : Stats :=
  if m.segs = [] then ⟨0, 0, 0⟩
  else
    ⟨m.maxFootprint, m.footprint,
      total (fun si => m.usedIn c si.1 si.2) m.segs.zipIdx % modulus c⟩

/-- A call on an `Operator`. -/
inductive Op where
  | alloc (size : Nat)
  | allocAligned (size alignment : Nat)
  | free (ptr : Nat)
  deriving DecidableEq, Repr

/-- The heap after the call and the pointer it returns, null for `free`. -/
def exec (m : MallocState) (ans : Answers) : Op → Option (MallocState × Nat)
  | .alloc size => m.dlmalloc c size ans
  | .allocAligned size alignment => m.dlmemalign c alignment size ans
  | .free ptr => (m.dlfree c ptr ans).map fun m => (m, 0)

/-- The bytes an operation asks `dlmalloc` for, if it gets as far. -/
def mallocRequest : Op → Option Nat
  | .alloc size => some size
  | .allocAligned size alignment =>
    if alignment ≤ mallocAlignment c then some size
    else
      (roundAlignment c alignment).bind fun al =>
        if maxRequest c - al ≤ size then none else some (alignedRequest c al size)
  | .free _ => none

/-- A mapping that the system can hand out: granular, within the address space and apart from
all segments. -/
def Grant (m : MallocState) (tbase tsize : Nat) : Prop :=
  tbase % granularity c = 0 ∧ 0 < tbase ∧ tbase + tsize ≤ modulus c ∧
    ∀ s ∈ m.segs, Apart (tbase, tsize) (s.base, s.size)

instance (m : MallocState) (tbase tsize : Nat) : Decidable (Grant c m tbase tsize) :=
  inferInstanceAs (Decidable (_ ∧ _))

/-- What `dlmalloc` may be answered: a binned chunk that is large enough, and a mapping of the
size that `sys_alloc` asks for. -/
def Answers.Possible (m : MallocState) (ans : Answers) (bytes : Nat) : Prop :=
  (∀ v ∈ ans.bin, bytes < maxRequest c ∧
    ∃ st ∈ m.binnedAt v, paddedRequest c bytes ≤ st.chunk.size) ∧
  ∀ tbase ∈ ans.mmap, Grant c m tbase (sysAllocSize c (paddedRequest c bytes))

instance (m : MallocState) (ans : Answers) (bytes : Nat) :
    Decidable (ans.Possible c m bytes) := inferInstanceAs (Decidable (_ ∧ _))

/-- Arguments are machine words, and only live blocks are freed. -/
def Op.Lawful (live : List Nat) : Op → Prop
  | .alloc size => size < modulus c
  | .allocAligned size alignment => size < modulus c ∧ alignment < modulus c
  | .free ptr => ptr ∈ live

instance (live : List Nat) (op : Op) : Decidable (op.Lawful c live) := by
  cases op <;> unfold Op.Lawful <;> infer_instance

inductive State where
  | running (m : MallocState) (live : List Nat)
  | stopped
  deriving DecidableEq, Repr

def State.zeroed : State := .running .zeroInit []

/-- The live blocks after a call that returned `mem`. -/
def liveAfter (live : List Nat) (mem : Nat) : Op → List Nat
  | .free ptr => live.erase ptr
  | _ => if mem = 0 then live else mem :: live

def next : State → Op × Answers → Option State
  | .stopped, _ => none
  | .running m live, (op, ans) =>
    if op.Lawful c live ∧ ∀ bytes ∈ mallocRequest c op, ans.Possible c m bytes then
      match exec c m ans op with
      | some (m', mem) => some (.running m' (liveAfter live mem op))
      | none => some .stopped
    else none

end Turf.HeapDL
