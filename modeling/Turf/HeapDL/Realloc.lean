import Turf.HeapDL.Operator

/-!
# dlrealloc, and the states a heap can reach
-/
namespace Turf.HeapDL

variable (c : Config)

namespace MallocState

/-- `mmap_resize`: the address of the resized chunk, if there is one. -/
def mmapResize (nb : Nat) (ans : Answers) (d : Direct) (m : MallocState) :
    Option (MallocState × Nat) :=
  let oldsize := d.psize c
  let newmmsize := mmapAlign c ((nb + 6 * sizeT c + chunkAlignMask c) % modulus c)
  if isSmall nb then none
  else if nb + sizeT c ≤ oldsize && oldsize - nb ≤ granularity c * 2 then some (m, d.address)
  else
    ans.mremap.map fun cp =>
      let newd : Direct := ⟨cp, newmmsize, d.offset⟩
      let fp := (m.footprint + newmmsize + modulus c - d.mmsize % modulus c) % modulus c
      ({ m with
        direct := newd :: m.direct.erase d, leastAddr := min cp m.leastAddr
        footprint := fp, maxFootprint := max m.maxFootprint fp }, newd.address)

/-- `try_realloc_chunk` on a chunk of a segment: the heap, and the chunk's address unless the
chunk has to move. -/
def resizeInPlace (p nb : Nat) (st : Site) (m : MallocState) : Option (MallocState × Option Nat) :=
  let oldsize := st.chunk.size
  if nb ≤ oldsize then
    if minChunkSize c ≤ oldsize - nb then (m.giveBackRest p nb).map fun m => (m, some p)
    else some (m, some p)
  else
    match st.right with
    | [] =>
      if st.index = 0 && nb < oldsize + m.topsize then
        some ({ m.write st (st.left ++ [⟨nb, .inuse⟩]) with
          topsize := oldsize + m.topsize - nb }, some p)
      else some (m, none)
    | next :: right =>
      if next.isInuse || oldsize + next.size < nb then some (m, none)
      else
        let rsize := oldsize + next.size - nb
        if rsize < minChunkSize c then
          some (m.write st (st.left ++ ⟨oldsize + next.size, .inuse⟩ :: right), some p)
        else if next.isDv then
          some (m.write st (st.left ++ ⟨nb, .inuse⟩ :: ⟨rsize, .dv⟩ :: right), some p)
        else
          ((m.write st (st.left ++ ⟨nb, .inuse⟩ :: ⟨rsize, .inuse⟩ :: right)).disposeChunk
            (p + nb)).map fun m => (m, some p)

def tryReallocChunk (p nb : Nat) (ans : Answers) (m : MallocState) :
    Option (MallocState × Option Nat) :=
  if p < m.leastAddr then none
  else
    match m.inuseAt p with
    | some st => m.resizeInPlace c p nb st
    | none =>
      (m.direct.find? fun d => d.address = p).map fun d =>
        match m.mmapResize c nb ans d with
        | some r => (r.1, some r.2)
        | none => (m, none)

/-- `dlrealloc`, with the assertion against the fast statistics compiled out. -/
def dlrealloc (oldmem bytes : Nat) (ans : Answers) (m : MallocState) :
    Option (MallocState × Nat) :=
  if oldmem = 0 then m.dlmalloc c bytes ans
  else if maxRequest c ≤ bytes then some (m, 0)
  else
    (m.tryReallocChunk c (mem2chunk c oldmem) (request2size c bytes) ans).bind fun r =>
      match r.2 with
      | some newp => some (r.1, chunk2mem c newp)
      | none =>
        (r.1.dlmalloc c bytes ans).bind fun r =>
          if r.2 = 0 then some r else (r.1.dlfree c oldmem ans).map fun m => (m, r.2)

end MallocState

/-- A call on an `Operator`, `realloc` included. -/
inductive Call where
  | op (o : Op)
  | realloc (ptr newSize : Nat)

def execCall (m : MallocState) (ans : Answers) : Call → Option (MallocState × Nat)
  | .op o => exec c m ans o
  | .realloc ptr newSize => m.dlrealloc c ptr newSize ans

/-- The states that any calls lead to, whatever their arguments and the answers they get. -/
inductive Reachable : MallocState → Prop
  | zeroed : Reachable .zeroInit
  | call {m m' : MallocState} {ans : Answers} {k : Call} {mem : Nat} (h : Reachable m)
    (hk : execCall c m ans k = some (m', mem)) : Reachable m'

end Turf.HeapDL
