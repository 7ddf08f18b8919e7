import Turf.HeapDL.Sessions

/-!
# The debugging checks

What `do_check_malloc_state` asserts, apart from the links and the header bits that the chunks of the model
cannot have wrong. A check is `false` where an assertion fails or a header is read where there is none.
-/
namespace Turf.HeapDL

open Turf.Lib.Extents Turf.Lib.DigitalTree Turf.Lib.Schedule

variable (c : Config) (narrow : Bool)

namespace MallocState

/-- The chunk at an address. -/
def chunkAt (p : Nat) (m : MallocState) : Option Site := m.find fun q _ => q = p

/-- `m->dv`, 0 if there is none. -/
def dvAddress (m : MallocState) : Nat :=
  match m.dv with
  | some st => st.address
  | none => 0

/-- `next_chunk` of a chunk of a segment. -/
def nextCell (m : MallocState) (st : Site) : Cell :=
  match st.right with
  | x :: _ => .chunk x
  | [] => if st.index = 0 then .top m.topsize else .record

/-- `do_check_any_chunk`: `is_aligned` and `ok_address`. -/
def checkAnyChunk (p : Nat) (m : MallocState) : Bool :=
  chunk2mem c p % mallocAlignment c = 0 && m.leastAddr ≤ p

def checkInuseChunk (p : Nat) (x : Cell) (m : MallocState) : Bool := m.checkAnyChunk c p && x.isInuse

/-- `do_check_free_chunk`; the chunk before is none for the first one of a segment. -/
def checkFreeChunk (p : Nat) (prev : Option Cell) (x next : Cell) (m : MallocState) : Bool :=
  m.checkAnyChunk c p && !x.isInuse &&
    (p = m.dvAddress || p = m.top ||
      if minChunkSize c ≤ x.size c then
        x.size c % mallocAlignment c = 0 && prev.all Cell.isInuse && (p + x.size c = m.top || next.isInuse)
      else x.size c = sizeT c)

/-- `do_check_top_chunk`, with `segment_holding`. -/
def checkTopChunk (m : MallocState) : Bool :=
  match m.segs.find? fun s => s.holds m.top with
  | none => false
  | some sp =>
    m.checkAnyChunk c m.top && 0 < m.topsize && m.topsize = sp.base + sp.size - m.top - topFootSize c &&
      (sp.chunks.getLast?).all Chunk.isInuse

end MallocState

namespace Bins

/-- `bin_find` of the chunk at `p`, which is of size `s`. -/
def binFind (p s : Nat) (b : Bins) : Bool :=
  if isSmall s then
    let sidx := smallIndex s
    b.smallmap &&& idx2bit sidx ≠ 0 && p ∈ (b.smallbins sidx).map Prod.fst
  else
    let tidx := computeTreeIndex narrow s
    b.treemap &&& idx2bit tidx ≠ 0 &&
      ((b.treebins tidx).find? (treeDigit c tidx) s 0).any fun r => p ∈ r.1 :: r.2

end Bins

namespace Heap

variable (h : Heap)

/-- A turn of the loop of `do_check_smallbin`: the chunk at `p` and the size of the one before it in
the list, if there is one. -/
def checkSmallChunk (i p : Nat) (bk : Option Nat) : Bool :=
  match h.m.chunkAt p with
  | none => false
  | some st =>
    let next := h.m.nextCell st
    h.m.checkFreeChunk c p (st.left.getLast?.map .chunk) (.chunk st.chunk) next &&
      smallIndex st.chunk.size = i && bk.all (· = st.chunk.size) &&
      (next = .fencepost || h.m.checkInuseChunk c (p + st.chunk.size) next)

/-- The chunks of a smallbin against the direction of the list. -/
def checkSmallChunks (i : Nat) : List (Nat × Nat) → Bool
  | [] => true
  | [e] => h.checkSmallChunk c i e.1 none
  | e :: e' :: rest => h.checkSmallChunk c i e.1 ((h.m.chunkAt e'.1).map fun st => st.chunk.size) &&
      checkSmallChunks i (e' :: rest)

def checkSmallbin (i : Nat) : Bool :=
  let empty := h.bins.smallmap &&& idx2bit i = 0
  (h.bins.smallbins i ≠ [] || empty) && (empty || h.checkSmallChunks c i (h.bins.smallbins i).reverse)

/-- The chunks of one size on a chain of `do_check_tree`. -/
def checkRing (tsize : Nat) (r : Ring) : Bool :=
  (r.1 :: r.2).all fun u =>
    match h.m.chunkAt u with
    | none => false
    | some st => h.m.checkAnyChunk c u && st.chunk.size = tsize && !st.chunk.isInuse

/-- `do_check_tree` of a tree whose nodes have the index `tindex`. -/
def checkTree (tindex : Nat) : Trie Nat Ring → Bool
  | .nil => true
  | .node tsize r left right =>
    let idx := computeTreeIndex narrow tsize
    tindex = idx && minLargeSize ≤ tsize && minsizeForTreeIndex idx ≤ tsize &&
      (idx = 31 || tsize < minsizeForTreeIndex (idx + 1)) && h.checkRing c tsize r &&
      checkTree tindex left && checkTree tindex right &&
      match left, right with
      | .node l _ _ _, .node r _ _ _ => l < r
      | _, _ => true

def checkTreebin (i : Nat) : Bool :=
  let t := h.bins.treebins i
  let empty := h.bins.treemap &&& idx2bit i = 0
  (!t.isNil || empty) && (empty || !t.isNil && h.checkTree c narrow i t)

/-- What `traverse_and_check` asserts of the chunk at `q`. -/
def checkCell (q : Nat) (lastq : Option Cell) (x : Cell) (next : Option Cell) : Bool :=
  if x.isInuse then !h.bins.binFind c narrow q (x.size c) && h.m.checkInuseChunk c q x
  else
    (q = h.m.dvAddress || h.bins.binFind c narrow q (x.size c)) && lastq.all Cell.isInuse &&
      next.any fun next => h.m.checkFreeChunk c q lastq x next

/-- The inner loop of `traverse_and_check`: the sum of the sizes, unless an assertion fails. -/
def traverseFrom (s : Segment) : Nat → Option Cell → List Cell → Option Nat
  | _, _, [] => some 0
  | q, lastq, x :: xs =>
    if s.holds q ∧ q ≠ h.m.top ∧ x ≠ .fencepost then
      if h.checkCell c narrow q lastq x xs.head? then
        (traverseFrom s (q + x.size c) (some x) xs).map fun sum => x.size c + sum
      else none
    else some 0

/-- The loop over the segments. -/
def traverseSegments : List (Segment × Nat) → Option Nat
  | [] => some 0
  | (s, i) :: rest =>
    (h.traverseFrom c narrow s s.base none (h.m.cells c s i)).bind fun sum =>
      (traverseSegments rest).map fun sum' => sum + sum'

def traverseAndCheck : Option Nat :=
  if h.m.segs = [] then some 0
  else
    (h.traverseSegments c narrow h.m.segs.zipIdx).map fun sum =>
      (h.m.topsize + topFootSize c + sum) % modulus c

def checkMallocState : Bool :=
  (List.range 32).all (h.checkSmallbin c) && (List.range 32).all (h.checkTreebin c narrow) &&
    (h.m.dvsize = 0 || h.m.checkAnyChunk c h.m.dvAddress && minChunkSize c ≤ h.m.dvsize &&
      !h.bins.binFind c narrow h.m.dvAddress h.m.dvsize) &&
    (h.m.top = 0 || h.m.checkTopChunk c && !h.bins.binFind c narrow h.m.top h.m.topsize) &&
    (h.traverseAndCheck c narrow).any fun total => total ≤ h.m.footprint && h.m.footprint ≤ h.m.maxFootprint

end Heap

end Turf.HeapDL
