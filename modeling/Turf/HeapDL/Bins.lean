import Mathlib.Logic.Function.Basic
import Turf.HeapDL.Model
import Turf.Lib.BitMaps
import Turf.Lib.DigitalTree

/-!
# Smallbins and treebins

Free chunks other than `top` and the designated victim are held in bins: up to 255 bytes in lists
of one size each, above in digital trees of rings of one size. A list is in the order of the `fd`
links from its header, a ring in that of the `fd` links from its member in the tree.
-/
namespace Turf.HeapDL

open Turf.Lib.BitMaps Turf.Lib.DigitalTree

/-! ## Indexing bins -/

def sizeTBits (c : Config) : Nat := 8 * sizeT c

def minLargeSize : Nat := 2 ^ 8

def smallIndex (s : Nat) : Nat := s / 8

def smallIndex2size (i : Nat) : Nat := i * 8

/-- `compute_tree_index`, which holds `S >> TREEBIN_SHIFT` in an `unsigned int` if it is narrow and
in a `size_t` otherwise. -/
def computeTreeIndex (narrow : Bool) (s : Nat) : Nat :=
  let x := if narrow then s / 2 ^ 8 % 2 ^ 32 else s / 2 ^ 8
  if x = 0 then 0
  else if 0xFFFF < x then 31
  else 2 * x.log2 + s / 2 ^ (x.log2 + 7) % 2

def leftshiftForTreeIndex (c : Config) (i : Nat) : Nat :=
  if i = 31 then 0 else sizeTBits c - 1 - (i / 2 + 8 - 2)

def minsizeForTreeIndex (i : Nat) : Nat := 2 ^ (i / 2 + 8) ||| i % 2 * 2 ^ (i / 2 + 8 - 1)

def idx2bit (i : Nat) : BitVec 32 := 1#32 <<< i

/-- The sign bit of `S << leftshift_for_tree_index(I)` after `d` more shifts. -/
def treeDigit (c : Config) (i s d : Nat) : Bool :=
  s * 2 ^ (leftshiftForTreeIndex c i + d) % modulus c / 2 ^ (sizeTBits c - 1) % 2 = 1

/-! ## Bins -/

/-- Chunks of one size, the one in the tree first. -/
abbrev Ring := Nat × List Nat

structure Bins where
  smallmap : BitVec 32
  treemap : BitVec 32
  smallbins : Nat → List (Nat × Nat)
  treebins : Nat → Trie Nat Ring

namespace Bins

/-- `init_bins` of a zeroed state. -/
def init : Bins := ⟨0, 0, fun _ => [], fun _ => .nil⟩

def insertSmallChunk (p s : Nat) (b : Bins) : Bins :=
  let i := smallIndex s
  let f := if b.smallmap &&& idx2bit i = 0 then [] else b.smallbins i
  { b with
    smallmap := b.smallmap ||| idx2bit i
    smallbins := Function.update b.smallbins i ((p, s) :: f) }

/-- `unlink_small_chunk` and `unlink_first_small_chunk`. -/
def unlinkSmallChunk (p s : Nat) (b : Bins) : Bins :=
  let i := smallIndex s
  let rest := (b.smallbins i).erase (p, s)
  { b with
    smallmap := if rest = [] then b.smallmap &&& ~~~idx2bit i else b.smallmap
    smallbins := Function.update b.smallbins i rest }

/-- A chunk is linked behind the one of its size in the tree. -/
def joinRing (x : Nat) (r : Ring) : Ring := (r.1, x :: r.2)

/-- `X->bk` takes the place of the chunk in the tree. -/
def leaveRing (x : Nat) (r : Ring) : Option Ring :=
  if x = r.1 then r.2.getLast?.map fun bk => (bk, r.2.dropLast) else some (r.1, r.2.erase x)

variable (c : Config) (narrow : Bool)

def insertLargeChunk (x s : Nat) (b : Bins) : Bins :=
  let i := computeTreeIndex narrow s
  if b.treemap &&& idx2bit i = 0 then
    { b with
      treemap := b.treemap ||| idx2bit i
      treebins := Function.update b.treebins i (.node s (x, []) .nil .nil) }
  else
    { b with
      treebins := Function.update b.treebins i
        ((b.treebins i).insert (treeDigit c i) (x, []) (joinRing x) s 0) }

def unlinkLargeChunk (x s : Nat) (b : Bins) : Bins :=
  let i := computeTreeIndex narrow s
  let t := (b.treebins i).alter s (leaveRing x)
  { b with
    treemap := if t.isNil then b.treemap &&& ~~~idx2bit i else b.treemap
    treebins := Function.update b.treebins i t }

def insertChunk (p s : Nat) (b : Bins) : Bins :=
  if isSmall s then b.insertSmallChunk p s else b.insertLargeChunk c narrow p s

def unlinkChunk (p s : Nat) (b : Bins) : Bins :=
  if isSmall s then b.unlinkSmallChunk p s else b.unlinkLargeChunk narrow p s

/-! ## Searching bins -/

/-- The best chunk so far, with its size, and what it has more than is asked for. -/
abbrev Best := Option (Nat × Nat) × Nat

/-- `chunksize(t) - nb`. -/
def trem (nb s : Nat) : Nat := (s + (modulus c - nb)) % modulus c

def consider (nb : Nat) (best : Best) (s : Nat) (r : Ring) : Best :=
  if trem c nb s < best.2 then (some (r.1, s), trem c nb s) else best

def leftmostChild (l r : Trie Nat Ring) : Trie Nat Ring := if l.isNil then r else l

/-- `while (t != 0)` with `leftmost_child(t)` next. -/
def findSmallest (nb : Nat) (best : Best) : Trie Nat Ring → Best
  | .nil => best
  | .node s r .nil right => findSmallest nb (consider c nb best s r) right
  | .node s r (.node s' r' left' right') _ =>
    findSmallest nb (consider c nb best s r) (.node s' r' left' right')

/-- The traversal of the treebin of the size itself; the tree is where the search goes on, `rst` as
long as no node has that size. -/
def traverse (i nb : Nat) : Nat → Trie Nat Ring → Best → Trie Nat Ring → Best × Trie Nat Ring
  | _, .nil, best, rst => (best, rst)
  | d, .node s r left right, best, rst =>
    if trem c nb s < best.2 ∧ trem c nb s = 0 then (consider c nb best s r, .node s r left right)
    else if treeDigit c i nb d then traverse i nb (d + 1) right (consider c nb best s r) rst
    else traverse i nb (d + 1) left (consider c nb best s r) (if right.isNil then rst else right)

/-- The chunk that `tmalloc_large` takes. -/
def tmallocLarge (nb dvsize : Nat) (b : Bins) : Option (Nat × Nat) :=
  let idx := computeTreeIndex narrow nb
  let found := traverse c idx nb 0 (b.treebins idx) (none, (modulus c - nb) % modulus c) .nil
  let t :=
    if found.2.isNil && found.1.1.isNone then
      let leftbits := leftBits (idx2bit idx) &&& b.treemap
      if leftbits = 0 then .nil else b.treebins (leastBit leftbits).ctz.toNat
    else found.2
  let best := findSmallest c nb found.1 t
  if best.2 < trem c nb dvsize then best.1 else none

/-- The chunk that `tmalloc_small` takes. -/
def tmallocSmall (nb : Nat) (b : Bins) : Option (Nat × Nat) :=
  match b.treebins (leastBit b.treemap).ctz.toNat with
  | .nil => none
  | .node s r left right =>
    (findSmallest c nb (some (r.1, s), trem c nb s) (leftmostChild left right)).1

def searchSmall (nb dvsize : Nat) (b : Bins) : Option (Nat × Nat) :=
  let idx := smallIndex nb
  let smallbits := b.smallmap >>> idx
  if smallbits &&& 3 ≠ 0 then (b.smallbins (idx + (~~~smallbits &&& 1).toNat)).head?
  else if dvsize < nb then
    if smallbits ≠ 0 then
      let leftbits := smallbits <<< idx &&& leftBits (idx2bit idx)
      (b.smallbins (leastBit leftbits).ctz.toNat).head?
    else if b.treemap ≠ 0 then b.tmallocSmall c nb
    else none
  else none

/-- The chunk of a bin that `dlmalloc` takes, if it takes one. -/
def search (bytes dvsize : Nat) (b : Bins) : Option (Nat × Nat) :=
  if bytes ≤ maxSmallRequest c then b.searchSmall c (request2size c bytes) dvsize
  else if bytes < maxRequest c ∧ b.treemap ≠ 0 then
    b.tmallocLarge c narrow (padRequest c bytes) dvsize
  else none

end Bins

end Turf.HeapDL
