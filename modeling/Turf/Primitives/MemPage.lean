import Mathlib.Data.BitVec
import Turf.Lib.Extents

/-!
# Releasing pages

MemPage_Win32.h. `free` releases a range that several allocations may make up: in each round it
asks the system about the pages at `ptr`, has the allocation there released and goes on behind
them. The two calls to the system are parameters with their documented behaviour.
-/
namespace Turf.Primitives.MemPage

open Turf.Lib.Extents (Apart Tiles)

/-! ## The address space -/

/-- What one call committed: adjacent regions, each of pages with the same protection. -/
structure Allocation where
  base : Nat
  regions : List Nat
  nonempty : regions ≠ []
  positive : ∀ r ∈ regions, 0 < r
  deriving DecidableEq

namespace Allocation

def size (a : Allocation) : Nat := a.regions.sum

def Holds (a : Allocation) (x : Nat) : Prop := a.base ≤ x ∧ x < a.base + a.size

instance (a : Allocation) (x : Nat) : Decidable (a.Holds x) := inferInstanceAs (Decidable (_ ∧ _))

/-- All of its pages have the same protection. -/
def Uniform (a : Allocation) : Prop := ∃ n, a.regions = [n]

/-- How far it is from an offset to the end of the region there. -/
def rest : List Nat → Nat → Nat
  | [], _ => 0
  | r :: rs, off => if off < r then r - off else rest rs (off - r)

/-- The size of the region that an address of the allocation is in, from that address on. -/
def regionSize (a : Allocation) (x : Nat) : Nat := rest a.regions (x - a.base)

/-- The size of the first region. -/
def first (a : Allocation) : Nat := a.regionSize a.base

variable (a : Allocation)

theorem first_spec : ∃ rs, a.regions = a.first :: rs ∧ 0 < a.first := by
  obtain ⟨base, regions, nonempty, positive⟩ := a
  cases regions with
  | nil => exact absurd rfl nonempty
  | cons r rs =>
    have hr : 0 < r := positive r List.mem_cons_self
    have hfirst : rest (r :: rs) (base - base) = r := by rw [rest, Nat.sub_self, if_pos hr, Nat.sub_zero]
    exact ⟨rs, by rw [first, regionSize, hfirst], by rw [first, regionSize, hfirst]; exact hr⟩

theorem first_pos : 0 < a.first := by
  obtain ⟨-, -, hpos⟩ := a.first_spec
  exact hpos

theorem first_le : a.first ≤ a.size := by
  obtain ⟨rs, hrs, -⟩ := a.first_spec
  rw [size, hrs, List.sum_cons]
  exact Nat.le_add_right _ _

theorem holds_base : a.Holds a.base := by
  have hpos := a.first_pos
  have hle := a.first_le
  exact ⟨Nat.le_refl _, by omega⟩

theorem uniform_iff : a.Uniform ↔ a.first = a.size := by
  obtain ⟨rs, hrs, hpos⟩ := a.first_spec
  have hin : ∀ r ∈ rs, 0 < r := fun r hr => a.positive r (by rw [hrs]; exact List.mem_cons_of_mem _ hr)
  rw [Uniform, size, hrs, List.sum_cons]
  constructor
  · intro ⟨n, hn⟩
    obtain ⟨-, rfl⟩ := List.cons.inj hn
    simp
  · intro h
    cases rs with
    | nil => exact ⟨_, rfl⟩
    | cons r rs =>
      have hr := hin r List.mem_cons_self
      rw [List.sum_cons] at h
      omega

end Allocation

/-- The allocations of a process, in addresses below `top`. -/
structure AddressSpace (pageSize top : Nat) where
  allocs : List Allocation
  aligned : ∀ a ∈ allocs, pageSize ∣ a.base ∧ ∀ r ∈ a.regions, pageSize ∣ r
  below : ∀ a ∈ allocs, a.base + a.size ≤ top
  apart : allocs.Pairwise fun a b => Apart (a.base, a.size) (b.base, b.size)

section AddressSpace

variable {pageSize top : Nat}

def AddressSpace.without (m : AddressSpace pageSize top) (p : Nat) : AddressSpace pageSize top where
  allocs := m.allocs.filter fun a => a.base ≠ p
  aligned := fun a ha => m.aligned a (List.mem_of_mem_filter ha)
  below := fun a ha => m.below a (List.mem_of_mem_filter ha)
  apart := m.apart.filter _

variable {m : AddressSpace pageSize top} {a b : Allocation} {p x : Nat}

theorem AddressSpace.mem_without : a ∈ (m.without p).allocs ↔ a ∈ m.allocs ∧ a.base ≠ p := by
  rw [AddressSpace.without, List.mem_filter, decide_eq_true_iff]

theorem AddressSpace.length_without (ha : a ∈ m.allocs) :
    (m.without a.base).allocs.length < m.allocs.length := by
  apply List.length_filter_lt_length_iff_exists.mpr
  exact ⟨a, ha, by simp⟩

/-- An address is in at most one allocation. -/
theorem AddressSpace.holds_unique (ha : a ∈ m.allocs) (hb : b ∈ m.allocs) (hax : a.Holds x)
    (hbx : b.Holds x) : a = b := by
  by_contra hne
  have hsymm : Std.Symm fun a b : Allocation => Apart (a.base, a.size) (b.base, b.size) :=
    ⟨fun _ _ h => Or.symm h⟩
  obtain ⟨ha₁, ha₂⟩ := hax
  obtain ⟨hb₁, hb₂⟩ := hbx
  rcases m.apart.forall ha hb hne with h | h
  · exact absurd (Nat.lt_of_lt_of_le ha₂ h) (Nat.not_lt.mpr hb₁)
  · exact absurd (Nat.lt_of_lt_of_le hb₂ h) (Nat.not_lt.mpr ha₁)

end AddressSpace

/-! ## The system -/

inductive PageState where
  | commit | reserve | free
  deriving DecidableEq

/-- `MEMORY_BASIC_INFORMATION`, less the members that `free` does not read. -/
structure MemoryBasicInformation (w : Nat) where
  baseAddress : BitVec w
  allocationBase : BitVec w
  regionSize : BitVec w
  state : PageState

def pageStart (pageSize x : Nat) : Nat := x - x % pageSize

/-- `VirtualQuery` and `VirtualFree` with `MEM_RELEASE`, which fail where there is no result. A
release that fails leaves everything as it was. -/
structure System (w pageSize top : Nat) where
  top_lt : top < 2 ^ w
  virtualQuery : AddressSpace pageSize top → BitVec w → Option (MemoryBasicInformation w)
  virtualFree : AddressSpace pageSize top → BitVec w → Option (AddressSpace pageSize top)
  query_none : ∀ m p, virtualQuery m p = none ↔ top ≤ p.toNat
  query_base : ∀ m p i, virtualQuery m p = some i → i.baseAddress.toNat = pageStart pageSize p.toNat
  query_allocated : ∀ m p i, virtualQuery m p = some i →
    ∀ a ∈ m.allocs, a.Holds (pageStart pageSize p.toNat) → i.state = .commit ∧
      i.allocationBase.toNat = a.base ∧ i.regionSize.toNat = a.regionSize (pageStart pageSize p.toNat)
  query_free : ∀ m p i, virtualQuery m p = some i →
    (∀ a ∈ m.allocs, ¬ a.Holds (pageStart pageSize p.toNat)) → i.state = .free
  free_some : ∀ m p m', virtualFree m p = some m' →
    ∃ a ∈ m.allocs, a.base = p.toNat ∧ m' = m.without p.toNat

variable {w pageSize top : Nat}

/-- One round of the loop of `free`: what is left and the size of the region. -/
def freeRound (k : System w pageSize top) (m : AddressSpace pageSize top) (ptr size : BitVec w) :
    Option (AddressSpace pageSize top × BitVec w) :=
  match k.virtualQuery m ptr with
  | none => none
  | some minfo =>
    if minfo.baseAddress ≠ ptr ∨ minfo.allocationBase ≠ ptr ∨ minfo.state ≠ .commit ∨
        minfo.regionSize > size then none
    else (k.virtualFree m ptr).map fun m => (m, minfo.regionSize)

/-- `free`, with a bound on the rounds. -/
def free (k : System w pageSize top) :
    Nat → AddressSpace pageSize top → BitVec w → BitVec w → Option (Bool × AddressSpace pageSize top)
  | 0, _, _, _ => none
  | fuel + 1, m, ptr, size =>
    if 0 < size.toInt then
      match freeRound k m ptr size with
      | none => some (false, m)
      | some (m, regionSize) => free k fuel m (ptr + regionSize) (size - regionSize)
    else some (true, m)

/-! ## One round -/

variable {k : System w pageSize top} {m m' : AddressSpace pageSize top} {ptr size len : BitVec w}

theorem pageStart_base {a : Allocation} (ha : a ∈ m.allocs) : pageStart pageSize a.base = a.base := by
  rw [pageStart, Nat.mod_eq_zero_of_dvd (m.aligned a ha).1, Nat.sub_zero]

theorem base_lt (k : System w pageSize top) {a : Allocation} (ha : a ∈ m.allocs) :
    a.base + a.size < 2 ^ w :=
  Nat.lt_of_le_of_lt (m.below a ha) k.top_lt

/-- A round that goes on has released the allocation that starts at `ptr`. -/
theorem freeRound_some (h : freeRound k m ptr size = some (m', len)) :
    ∃ a ∈ m.allocs, a.base = ptr.toNat ∧ a.first ≤ size.toNat ∧ len.toNat = a.first ∧
      k.virtualFree m ptr = some m' ∧ m' = m.without a.base := by
  rw [freeRound] at h
  split at h
  · cases h
  · next minfo hq =>
    split at h
    · cases h
    · next hchecks =>
      simp only [ne_eq, not_or, Decidable.not_not] at hchecks
      obtain ⟨hbase, -, hstate, hsize⟩ := hchecks
      obtain ⟨m'', hfree, heq⟩ := Option.map_eq_some_iff.mp h
      cases heq
      obtain ⟨a, ha, hap, hm⟩ := k.free_some _ _ _ hfree
      have hpage : pageStart pageSize ptr.toNat = a.base := by rw [← hap, pageStart_base ha]
      have hq' := k.query_allocated _ _ _ hq a ha (by rw [hpage]; exact a.holds_base)
      obtain ⟨-, -, hregion⟩ := hq'
      rw [hpage] at hregion
      refine ⟨a, ha, hap, ?_, hregion, hfree, by rw [hm, hap]⟩
      rw [Allocation.first, ← hregion]
      exact BitVec.not_lt.mp hsize

/-- It goes on where an allocation with a first region that is not too large is released. -/
theorem freeRound_of_free {a : Allocation} (ha : a ∈ m.allocs) (hap : a.base = ptr.toNat)
    (hsize : a.first ≤ size.toNat) (hfree : k.virtualFree m ptr = some m') :
    freeRound k m ptr size = some (m', BitVec.ofNat w a.first) := by
  have hpage : pageStart pageSize ptr.toNat = a.base := by rw [← hap, pageStart_base ha]
  have hlt : ptr.toNat < top := by
    have hbelow := m.below a ha
    have hpos := a.first_pos
    have hle := a.first_le
    omega
  cases hq : k.virtualQuery m ptr with
  | none => exact absurd ((k.query_none m ptr).mp hq) (Nat.not_le.mpr hlt)
  | some minfo =>
    have hbase := k.query_base _ _ _ hq
    obtain ⟨hstate, halloc, hregion⟩ := k.query_allocated _ _ _ hq a ha (by rw [hpage]; exact a.holds_base)
    rw [hpage] at hbase hregion
    have hb : minfo.baseAddress = ptr := BitVec.eq_of_toNat_eq (by rw [hbase, hap])
    have hab : minfo.allocationBase = ptr := BitVec.eq_of_toNat_eq (by rw [halloc, hap])
    have hr : minfo.regionSize = BitVec.ofNat w a.first := by
      apply BitVec.eq_of_toNat_eq
      rw [hregion, BitVec.toNat_ofNat, Nat.mod_eq_of_lt, Allocation.first]
      exact Nat.lt_of_le_of_lt hsize size.isLt
    have hnot : ¬ minfo.regionSize > size := by
      apply BitVec.not_lt.mpr
      rw [BitVec.le_def, hregion]
      exact hsize
    have hchecks : ¬ (minfo.baseAddress ≠ ptr ∨ minfo.allocationBase ≠ ptr ∨ minfo.state ≠ .commit ∨
        minfo.regionSize > size) := by
      simp only [hb, hab, hstate, hnot, ne_eq, not_true, or_self, not_false_iff]
    rw [freeRound, hq]
    show (if _ then none else _) = _
    rw [if_neg hchecks, hfree, hr]
    rfl

/-- What is left after a round that goes on. -/
theorem sub_region {n : Nat} (h : len.toNat = n) (hn : n ≤ size.toNat) (hs : 0 ≤ size.toInt) :
    (size - len).toNat = size.toNat - n ∧ 0 ≤ (size - len).toInt := by
  have hsub : (size - len).toNat = size.toNat - n := by
    rw [BitVec.toNat_sub_of_le (by rw [BitVec.le_def, h]; exact hn), h]
  refine ⟨hsub, ?_⟩
  rw [BitVec.toInt_pos_iff] at hs ⊢
  omega

theorem add_region {a : Allocation} (k : System w pageSize top) (ha : a ∈ m.allocs)
    (hap : a.base = ptr.toNat) (h : len.toNat = a.first) : (ptr + len).toNat = a.base + a.first := by
  have hlt := base_lt k ha
  have hle := a.first_le
  rw [BitVec.toNat_add, h, ← hap, Nat.mod_eq_of_lt (by omega)]

/-! ## The rounds -/

/-- The call ends: each round that goes on leaves one allocation less. -/
theorem free_total (k : System w pageSize top) (m : AddressSpace pageSize top) (ptr size : BitVec w) :
    ∃ r, ∀ fuel, m.allocs.length < fuel → free k fuel m ptr size = some r := by
  induction hn : m.allocs.length using Nat.strong_induction_on generalizing m ptr size with
  | _ n ih =>
  have hstep : ∃ r, ∀ fuel, n < fuel + 1 → free k (fuel + 1) m ptr size = some r := by
    by_cases hpos : 0 < size.toInt
    · cases hround : freeRound k m ptr size with
      | none => exact ⟨(false, m), fun fuel _ => by rw [free, if_pos hpos, hround]⟩
      | some next =>
        obtain ⟨a, ha, -, -, -, -, hm⟩ := freeRound_some hround
        have hless : next.1.allocs.length < n := by
          rw [hm, ← hn]
          exact AddressSpace.length_without ha
        obtain ⟨r, hr⟩ := ih _ hless next.1 (ptr + next.2) (size - next.2) rfl
        refine ⟨r, fun fuel hfuel => ?_⟩
        rw [free, if_pos hpos, hround]
        exact hr fuel (by omega)
    · exact ⟨(true, m), fun fuel _ => by rw [free, if_neg hpos]⟩
  obtain ⟨r, hr⟩ := hstep
  refine ⟨r, fun fuel hfuel => ?_⟩
  obtain ⟨f, rfl⟩ := Nat.exists_eq_succ_of_ne_zero (Nat.ne_of_gt (Nat.zero_lt_of_lt hfuel))
  exact hr f hfuel

/-- Nothing is allocated. -/
theorem free_subset {fuel : Nat} {r : Bool × AddressSpace pageSize top}
    (h : free k fuel m ptr size = some r) : ∀ a ∈ r.2.allocs, a ∈ m.allocs := by
  induction fuel generalizing m ptr size with
  | zero => cases h
  | succ fuel ih =>
    rw [free] at h
    split at h
    · split at h
      · cases h
        exact fun a ha => ha
      · next m' len hround =>
        obtain ⟨b, -, -, -, -, -, hm⟩ := freeRound_some hround
        intro a ha
        have hin := ih h a ha
        rw [hm] at hin
        exact (AddressSpace.mem_without.mp hin).1
    · cases h
      exact fun a ha => ha

def AddressSpace.withoutAll (m : AddressSpace pageSize top) (tiles : List Allocation) :
    AddressSpace pageSize top :=
  tiles.foldl (fun m a => m.without a.base) m

theorem AddressSpace.mem_withoutAll {tiles : List Allocation} {a : Allocation} :
    a ∈ (m.withoutAll tiles).allocs ↔ a ∈ m.allocs ∧ ∀ b ∈ tiles, a.base ≠ b.base := by
  induction tiles generalizing m with
  | nil => simp [AddressSpace.withoutAll]
  | cons b bs ih =>
    show a ∈ ((m.without b.base).withoutAll bs).allocs ↔ _
    rw [ih, AddressSpace.mem_without, List.forall_mem_cons, and_assoc]

/-- The system releases the allocations one after the other. -/
def System.Agrees (k : System w pageSize top) : AddressSpace pageSize top → List Allocation → Prop
  | _, [] => True
  | m, a :: as => (k.virtualFree m (BitVec.ofNat w a.base)).isSome ∧ k.Agrees (m.without a.base) as

/-- The allocations whose first regions, one behind the other, make up the range. -/
def Chain (m : AddressSpace pageSize top) (ptr size : BitVec w) (tiles : List Allocation) : Prop :=
  (∀ a ∈ tiles, a ∈ m.allocs) ∧
    Tiles Allocation.base Allocation.first ptr.toNat tiles (ptr.toNat + size.toNat)

/-- Where such allocations can be released, `free` releases them and returns true. -/
theorem free_of_chain {tiles : List Allocation} {fuel : Nat} (hs : 0 ≤ size.toInt)
    (hc : Chain m ptr size tiles) (hk : k.Agrees m tiles) (hfuel : tiles.length < fuel) :
    free k fuel m ptr size = some (true, m.withoutAll tiles) := by
  induction tiles generalizing m ptr size fuel with
  | nil =>
    obtain ⟨-, hend⟩ := hc
    have hzero : size.toInt = 0 := by
      have hnat : size.toNat = 0 := by
        have heq : ptr.toNat = ptr.toNat + size.toNat := hend
        omega
      rw [BitVec.toInt_eq_toNat_of_lt (by rw [hnat]; exact Nat.two_pow_pos w), hnat]
      rfl
    obtain ⟨f, rfl⟩ := Nat.exists_eq_succ_of_ne_zero (Nat.ne_of_gt hfuel)
    rw [free, if_neg (by omega)]
    rfl
  | cons a as ih =>
    obtain ⟨hin, hap, htail⟩ := hc
    obtain ⟨hfree, hagrees⟩ := hk
    obtain ⟨ha, has⟩ := List.forall_mem_cons.mp hin
    have hfirst := a.first_pos
    have hle : a.first ≤ size.toNat := by
      have hb := htail.le
      omega
    have hptr : BitVec.ofNat w a.base = ptr := by rw [hap, BitVec.ofNat_toNat, BitVec.setWidth_eq]
    rw [hptr] at hfree
    obtain ⟨m', hm'⟩ := Option.isSome_iff_exists.mp hfree
    have hwithout : m' = m.without a.base := by
      obtain ⟨b, -, -, hm⟩ := k.free_some _ _ _ hm'
      rw [hm, hap]
    have hround := freeRound_of_free ha hap hle hm'
    have hlen : (BitVec.ofNat w a.first).toNat = a.first := by
      rw [BitVec.toNat_ofNat, Nat.mod_eq_of_lt (Nat.lt_of_le_of_lt hle size.isLt)]
    obtain ⟨hsub, hnonneg⟩ := sub_region hlen hle hs
    have hadd := add_region k ha hap hlen
    have hpos : 0 < size.toInt := by
      rw [BitVec.toInt_pos_iff] at hs
      rw [BitVec.toInt_eq_toNat_of_lt hs]
      omega
    have hchain : Chain (m.without a.base) (ptr + BitVec.ofNat w a.first)
        (size - BitVec.ofNat w a.first) as := by
      constructor
      · intro b hb
        have hbound := (htail.bounds hb).1
        exact AddressSpace.mem_without.mpr ⟨has b hb, by omega⟩
      · rw [hadd, hsub, hap]
        convert htail using 1
        omega
    obtain ⟨f, rfl⟩ := Nat.exists_eq_succ_of_ne_zero (Nat.ne_of_gt (Nat.zero_lt_of_lt hfuel))
    rw [free, if_pos hpos, hround, hwithout]
    exact ih hnonneg hchain hagrees (by simpa using hfuel)

/-- Where it returns true, it has released such allocations. -/
theorem chain_of_free {fuel : Nat} (hs : 0 ≤ size.toInt)
    (h : free k fuel m ptr size = some (true, m')) :
    ∃ tiles, Chain m ptr size tiles ∧ k.Agrees m tiles ∧ m' = m.withoutAll tiles := by
  induction fuel generalizing m ptr size with
  | zero => cases h
  | succ fuel ih =>
    rw [free] at h
    split at h
    · split at h
      · cases h
      · next m₁ len hround =>
        obtain ⟨a, ha, hap, hle, hlen, hfree, hm₁⟩ := freeRound_some hround
        obtain ⟨hsub, hnonneg⟩ := sub_region hlen hle hs
        have hadd := add_region k ha hap hlen
        obtain ⟨tiles, ⟨hin, htiles⟩, hagrees, hm'⟩ := ih hnonneg h
        rw [hm₁] at hin hagrees hm'
        refine ⟨a :: tiles, ⟨?_, hap, ?_⟩, ⟨?_, hagrees⟩, hm'⟩
        · apply List.forall_mem_cons.mpr ⟨ha, _⟩
          intro b hb
          exact (AddressSpace.mem_without.mp (hin b hb)).1
        · rw [hadd, hsub, hap] at htiles
          convert htiles using 1
          omega
        · rw [hap, BitVec.ofNat_toNat, BitVec.setWidth_eq, hfree]
          rfl
    · next hpos =>
      cases h
      have hzero : size.toNat = 0 := by
        rw [BitVec.toInt_pos_iff] at hs
        rw [BitVec.toInt_eq_toNat_of_lt hs] at hpos
        omega
      refine ⟨[], ⟨fun a ha => absurd ha List.not_mem_nil, ?_⟩, trivial, rfl⟩
      show ptr.toNat = ptr.toNat + size.toNat
      omega

/-! ## What a call does to the map -/

def Allocation.Within (a : Allocation) (lo n : Nat) : Prop := lo ≤ a.base ∧ a.base + a.size ≤ lo + n

/-- The range was made up of allocations, and these are gone. -/
structure Released (m : AddressSpace pageSize top) (lo n : Nat) (m' : AddressSpace pageSize top) :
    Prop where
  released : ∀ a ∈ m.allocs, a.Within lo n → a ∉ m'.allocs
  covered : ∀ x, (lo ≤ x ∧ x < lo + n) ↔ ∃ a ∈ m.allocs, a.Within lo n ∧ a.Holds x
  outside : ∀ a ∈ m.allocs, ¬ a.Within lo n → a ∈ m'.allocs
  nothing_new : ∀ a ∈ m'.allocs, a ∈ m.allocs

/-- What the result of `free` says about the map it leaves. -/
def Contract (m : AddressSpace pageSize top) (ptr size : BitVec w)
    (r : Bool × AddressSpace pageSize top) : Prop :=
  if r.1 then Released m ptr.toNat size.toNat r.2 else r.2 = m

/-- The first round releases something. -/
def Starts (k : System w pageSize top) (m : AddressSpace pageSize top) (ptr size : BitVec w) : Prop :=
  ∃ a ∈ m.allocs, a.base = ptr.toNat ∧ a.first ≤ size.toNat ∧ (k.virtualFree m ptr).isSome

/-- The range is made up of allocations, each of pages with one protection, that the system
releases one after the other. -/
def Releasable (k : System w pageSize top) (m : AddressSpace pageSize top) (ptr size : BitVec w) :
    Prop :=
  ∃ tiles, Chain m ptr size tiles ∧ (∀ a ∈ tiles, a.Uniform) ∧ k.Agrees m tiles

theorem starts_iff : Starts k m ptr size ↔ (freeRound k m ptr size).isSome := by
  constructor
  · intro ⟨a, ha, hap, hle, hfree⟩
    obtain ⟨m', hm'⟩ := Option.isSome_iff_exists.mp hfree
    rw [freeRound_of_free ha hap hle hm']
    rfl
  · intro h
    obtain ⟨next, hnext⟩ := Option.isSome_iff_exists.mp h
    obtain ⟨a, ha, hap, hle, -, hfree, -⟩ := freeRound_some hnext
    exact ⟨a, ha, hap, hle, by rw [hfree]; rfl⟩

/-- Where allocations tile a range, what lies in the range are these allocations. -/
theorem Tiles.released {lo n : Nat} {tiles : List Allocation} (hin : ∀ a ∈ tiles, a ∈ m.allocs)
    (h : Tiles Allocation.base Allocation.size lo tiles (lo + n)) :
    Released m lo n (m.withoutAll tiles) := by
  have hwithin : ∀ a ∈ tiles, a.Within lo n := fun a ha => h.bounds ha
  have htile : ∀ a ∈ m.allocs, a.Within lo n → a ∈ tiles := by
    intro a ha ⟨hlo, hhi⟩
    have hle := a.first_le
    have hpos := a.first_pos
    obtain ⟨b, hb, hbase⟩ := h.covers hlo (by omega)
    rw [AddressSpace.holds_unique ha (hin b hb) a.holds_base hbase]
    exact hb
  constructor
  · intro a ha hw hleft
    exact (AddressSpace.mem_withoutAll.mp hleft).2 a (htile a ha hw) rfl
  · intro x
    constructor
    · intro ⟨hlo, hhi⟩
      obtain ⟨b, hb, hx⟩ := h.covers hlo hhi
      exact ⟨b, hin b hb, hwithin b hb, hx⟩
    · intro ⟨a, _, ⟨hlo, hhi⟩, hx₁, hx₂⟩
      omega
  · intro a ha hw
    apply AddressSpace.mem_withoutAll.mpr ⟨ha, _⟩
    intro b hb heq
    have hbase : b.Holds a.base := by rw [heq]; exact b.holds_base
    apply hw
    rw [AddressSpace.holds_unique ha (hin b hb) a.holds_base hbase]
    exact hwithin b hb
  · intro a ha
    exact (AddressSpace.mem_withoutAll.mp ha).1

/-- Allocations whose first regions follow one another have no other regions, the last one perhaps
apart. -/
theorem Chain.uniform {tiles : List Allocation} (hin : ∀ a ∈ tiles, a ∈ m.allocs) {lo hi : Nat}
    (h : Tiles Allocation.base Allocation.first lo tiles hi)
    (hend : ∀ a ∈ tiles, a.base + a.size ≤ hi) : ∀ a ∈ tiles, a.Uniform := by
  induction tiles generalizing lo with
  | nil => exact fun a ha => absurd ha List.not_mem_nil
  | cons a as ih =>
    obtain ⟨ha, has⟩ := List.forall_mem_cons.mp hin
    obtain ⟨hea, heas⟩ := List.forall_mem_cons.mp hend
    obtain ⟨hap, htail⟩ := h
    apply List.forall_mem_cons.mpr ⟨_, ih has htail heas⟩
    rw [Allocation.uniform_iff]
    by_contra hne
    have hlt : a.first < a.size := Nat.lt_of_le_of_ne a.first_le hne
    have hpos := a.first_pos
    -- the address behind the first region is in the allocation and in one behind it
    obtain ⟨b, hb, hb₁, hb₂⟩ := htail.covers (Nat.le_refl (lo + a.first)) (by omega)
    have hbfirst := b.first_le
    have hbbase := (htail.bounds hb).1
    have hsame : a = b := AddressSpace.holds_unique (x := lo + a.first) ha (has b hb)
      ⟨by omega, by omega⟩ ⟨hb₁, by omega⟩
    rw [← hsame] at hbbase
    omega

/-- A size that is not positive as a signed value takes no round. -/
theorem free_of_not_pos (hs : ¬ 0 < size.toInt) (fuel : Nat) :
    free k (fuel + 1) m ptr size = some (true, m) := by rw [free, if_neg hs]

/-- Nothing is released from a range that is not empty if the map stays as it was. -/
theorem not_released_same {lo n : Nat} (hn : 0 < n) : ¬ Released m lo n m := by
  intro h
  obtain ⟨a, ha, hw, -⟩ := (h.covered lo).mp ⟨Nat.le_refl lo, by omega⟩
  exact h.released a ha hw ha

theorem contract_of_not_starts (hs : 0 ≤ size.toInt) (h : ¬ Starts k m ptr size) (fuel : Nat) :
    ∃ r, free k (fuel + 1) m ptr size = some r ∧ Contract m ptr size r := by
  by_cases hpos : 0 < size.toInt
  · have hround : freeRound k m ptr size = none := by
      rw [starts_iff] at h
      exact Option.not_isSome_iff_eq_none.mp h
    exact ⟨(false, m), by rw [free, if_pos hpos, hround], rfl⟩
  · have hzero : size.toNat = 0 := by
      rw [BitVec.toInt_pos_iff] at hs
      rw [BitVec.toInt_eq_toNat_of_lt hs] at hpos
      omega
    refine ⟨(true, m), free_of_not_pos hpos fuel, ?_⟩
    show Released m ptr.toNat size.toNat m
    rw [hzero]
    have hempty : ∀ a ∈ ([] : List Allocation), a ∈ m.allocs := fun a ha => absurd ha List.not_mem_nil
    exact Tiles.released hempty rfl

/-- A call that released something and keeps its contract has released all of the range. -/
theorem releasable_of_contract (hs : 0 ≤ size.toInt) (h : Starts k m ptr size) {fuel : Nat}
    {r : Bool × AddressSpace pageSize top} (hr : free k (fuel + 1) m ptr size = some r)
    (hc : Contract m ptr size r) : Releasable k m ptr size := by
  obtain ⟨returned, m'⟩ := r
  cases returned with
  | false =>
    have hsame : m' = m := hc
    subst hsame
    obtain ⟨next, hround⟩ := Option.isSome_iff_exists.mp (starts_iff.mp h)
    obtain ⟨a, ha, -, -, -, -, hm⟩ := freeRound_some hround
    rw [free] at hr
    split at hr
    · rw [hround] at hr
      have hin := free_subset hr a ha
      rw [hm] at hin
      exact absurd rfl (AddressSpace.mem_without.mp hin).2
    · cases hr
  | true =>
    have hreleased : Released m ptr.toNat size.toNat m' := hc
    obtain ⟨tiles, hchain, hagrees, hm'⟩ := chain_of_free hs hr
    have hend : ∀ a ∈ tiles, a.base + a.size ≤ ptr.toNat + size.toNat := by
      intro a ha
      by_contra hout
      have hleft := hreleased.outside a (hchain.1 a ha) fun hw => hout hw.2
      rw [hm'] at hleft
      exact (AddressSpace.mem_withoutAll.mp hleft).2 a ha rfl
    exact ⟨tiles, hchain, Chain.uniform hchain.1 hchain.2 hend, hagrees⟩

/-- `free` ends, and it does what its result says exactly where the size is not negative as a
signed value and either the first round releases nothing or all of the range can be released. -/
theorem free_contract_iff (k : System w pageSize top) (m : AddressSpace pageSize top)
    (ptr size : BitVec w) :
    ∃ r, (∀ fuel, m.allocs.length < fuel → free k fuel m ptr size = some r) ∧
      (Contract m ptr size r ↔
        0 ≤ size.toInt ∧ (¬ Starts k m ptr size ∨ Releasable k m ptr size)) := by
  obtain ⟨r, hr⟩ := free_total k m ptr size
  refine ⟨r, hr, ?_⟩
  have hrun := hr (m.allocs.length + 1) (Nat.lt_succ_self _)
  constructor
  · intro hcontract
    have hs : 0 ≤ size.toInt := by
      by_contra hneg
      have hnot : ¬ 0 < size.toInt := by omega
      have hcall : free k (m.allocs.length + 1) m ptr size = some (true, m) := free_of_not_pos hnot _
      rw [hrun] at hcall
      cases hcall
      have hlarge := BitVec.toInt_neg_iff.mp (Int.not_le.mp hneg)
      exact not_released_same (by omega) hcontract
    refine ⟨hs, ?_⟩
    by_cases hstarts : Starts k m ptr size
    · exact .inr (releasable_of_contract hs hstarts hrun hcontract)
    · exact .inl hstarts
  · intro ⟨hs, h⟩
    rcases h with hnone | ⟨tiles, hchain, huniform, hagrees⟩
    · obtain ⟨r', hr', hcontract⟩ := contract_of_not_starts hs hnone m.allocs.length
      rw [hrun] at hr'
      cases hr'
      exact hcontract
    · have hcall := free_of_chain hs hchain hagrees (Nat.lt_succ_of_le (Nat.le_add_left _ m.allocs.length))
      rw [hr _ (by omega)] at hcall
      cases hcall
      show Released m ptr.toNat size.toNat (m.withoutAll tiles)
      exact Tiles.released hchain.1
        (hchain.2.congr fun a ha => a.uniform_iff.mp (huniform a ha))

/-! ## Two adjacent allocations -/

theorem Allocation.rest_le (rs : List Nat) (off : Nat) : rest rs off ≤ rs.sum := by
  induction rs generalizing off with
  | nil => exact Nat.le_refl 0
  | cons r rs ih =>
    rw [rest, List.sum_cons]
    split
    · omega
    · exact Nat.le_trans (ih _) (Nat.le_add_left _ _)

/-- The region that a page is in. Behind a free one the next allocation or the end follows. -/
def regionAt (m : AddressSpace pageSize top) (x : Nat) : MemoryBasicInformation w :=
  match m.allocs.find? fun a => a.Holds x with
  | some a => ⟨BitVec.ofNat w x, BitVec.ofNat w a.base, BitVec.ofNat w (a.regionSize x), .commit⟩
  | none =>
    let next := ((m.allocs.map Allocation.base).filter fun b => x < b).foldl min top
    ⟨BitVec.ofNat w x, 0, BitVec.ofNat w (next - x), .free⟩

theorem regionAt_allocated (htop : top < 2 ^ w) {a : Allocation} {x : Nat} (ha : a ∈ m.allocs)
    (hx : a.Holds x) :
    (regionAt m x : MemoryBasicInformation w).state = .commit ∧
      (regionAt m x : MemoryBasicInformation w).allocationBase.toNat = a.base ∧
      (regionAt m x : MemoryBasicInformation w).regionSize.toNat = a.regionSize x := by
  have hbelow := m.below a ha
  have hrest : a.regionSize x ≤ a.size := Allocation.rest_le a.regions (x - a.base)
  cases hfind : m.allocs.find? fun a => a.Holds x with
  | none => exact absurd hx (by simpa using List.find?_eq_none.mp hfind a ha)
  | some b =>
    have hb : b.Holds x := by simpa using List.find?_some hfind
    have hsame := AddressSpace.holds_unique (List.mem_of_find?_eq_some hfind) ha hb hx
    rw [hsame] at hfind
    rw [regionAt, hfind]
    refine ⟨rfl, ?_, ?_⟩
    · exact Nat.mod_eq_of_lt (by omega)
    · exact Nat.mod_eq_of_lt (by omega)

theorem regionAt_free {x : Nat} (h : ∀ a ∈ m.allocs, ¬ a.Holds x) :
    (regionAt m x : MemoryBasicInformation w).state = .free := by
  have hfind : (m.allocs.find? fun a => a.Holds x) = none := by
    apply List.find?_eq_none.mpr
    intro a ha
    simpa using h a ha
  rw [regionAt, hfind]

theorem regionAt_base (m : AddressSpace pageSize top) (x : Nat) :
    (regionAt m x : MemoryBasicInformation w).baseAddress = BitVec.ofNat w x := by
  rw [regionAt]
  split <;> rfl

/-- A system that releases whatever is allocated. -/
def System.willing (htop : top < 2 ^ w) : System w pageSize top where
  top_lt := htop
  virtualQuery m p := if p.toNat < top then some (regionAt m (pageStart pageSize p.toNat)) else none
  virtualFree m p := if m.allocs.any fun a => a.base = p.toNat then some (m.without p.toNat) else none
  query_none m p := by simp
  query_base m p i h := by
    obtain ⟨-, hi⟩ := (Option.ite_none_right_eq_some).mp h
    cases hi
    rw [regionAt_base, BitVec.toNat_ofNat]
    exact Nat.mod_eq_of_lt (Nat.lt_of_le_of_lt (Nat.sub_le _ _) p.isLt)
  query_allocated m p i h a ha hx := by
    obtain ⟨-, hi⟩ := (Option.ite_none_right_eq_some).mp h
    cases hi
    exact regionAt_allocated htop ha hx
  query_free m p i h hfree := by
    obtain ⟨-, hi⟩ := (Option.ite_none_right_eq_some).mp h
    cases hi
    exact regionAt_free hfree
  free_some m p m' h := by
    obtain ⟨hany, hm⟩ := (Option.ite_none_right_eq_some).mp h
    obtain ⟨a, ha, hap⟩ := List.any_eq_true.mp hany
    exact ⟨a, ha, by simpa using hap, by simpa using hm.symm⟩

/-- An allocation of 64 KiB with one of 128 KiB behind it. -/
def adjacent : AddressSpace 0x1000 0x7fffffff0000 where
  allocs := [⟨0x10000, [0x10000], by simp, by simp⟩, ⟨0x20000, [0x20000], by simp, by simp⟩]
  aligned := by simp
  below := by simp [Allocation.size]
  apart := by simp [Allocation.size, Apart]

theorem top_lt_word : 0x7fffffff0000 < 2 ^ 64 := by decide

/-- Asked for the first one and half of the second, `free` releases the first and returns false. -/
theorem free_adjacent : ∃ r,
    (∀ fuel, adjacent.allocs.length < fuel →
      free (System.willing top_lt_word) fuel adjacent 0x10000 0x20000 = some r) ∧
    ¬ Contract adjacent (0x10000 : BitVec 64) 0x20000 r := by
  obtain ⟨r, hr⟩ := free_total (w := 64) (System.willing (by decide)) adjacent 0x10000 0x20000
  refine ⟨r, hr, ?_⟩
  have hrun : (free (System.willing top_lt_word) 3 adjacent 0x10000 0x20000).map
      (fun r => (r.1, r.2.allocs.length)) = some (false, 1) := by decide
  rw [hr 3 (by decide)] at hrun
  obtain ⟨hfalse, hlength⟩ := Prod.mk.inj (Option.some.inj hrun)
  intro hcontract
  rw [Contract, hfalse] at hcontract
  have hsame : r.2 = adjacent := hcontract
  rw [hsame] at hlength
  exact absurd hlength (by decide)

end Turf.Primitives.MemPage
