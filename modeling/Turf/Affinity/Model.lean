import Mathlib.Data.BitVec
import Mathlib.Logic.Function.Basic

/-!
# The processors and cores of the machine

The four implementations of `Affinity`: from two counts on Mach, from a table of masks on
Win32, from the text of `/proc/cpuinfo` on Linux and from CPUID on FreeBSD. Each is a
function of what the platform answers to an object with the common interface.
-/
namespace Turf.Affinity

abbrev U32 := BitVec 32

/-- An `s32` or `int` by its bits. -/
abbrev S32 := BitVec 32

/-- The interface. `getNumHWThreadsForCore` has no value where its assertion fails or its index
is out of range. -/
structure Interface where
  isAccurate : Bool
  numPhysicalCores : U32
  numHWThreads : U32
  numHWThreadsForCore : Nat → Option U32

/-! ## Mach -/

namespace Mach

structure State where
  isAccurate : Bool
  numHWThreads : U32
  numPhysicalCores : U32
  hwThreadsPerCore : U32

/-- `Affinity_Mach`. The answers of `sysctlbyname` to `hw.logicalcpu` and `hw.physicalcpu`, if it
succeeds. -/
def init (logicalcpu physicalcpu : Option S32) : State :=
  let s : State := ⟨false, 1, 1, 1⟩
  match logicalcpu with
  | none => s
  | some count =>
    if 0 < count.toInt then
      let s : State := { s with numHWThreads := count }
      match physicalcpu with
      | none => s
      | some count =>
        if 0 < count.toInt then
          let s : State :=
            { s with numPhysicalCores := count, hwThreadsPerCore := s.numHWThreads / count }
          if s.hwThreadsPerCore < 1 then { s with hwThreadsPerCore := 1 }
          else { s with isAccurate := true }
        else s
    else s

def affinity (s : State) : Interface where
  isAccurate := s.isAccurate
  numPhysicalCores := s.numPhysicalCores
  numHWThreads := s.numHWThreads
  numHWThreadsForCore core :=
    if core < s.numPhysicalCores.toNat then some s.hwThreadsPerCore else none

end Mach

/-! ## Win32 -/

/-- `countSetBits`, whose loop ends after at most 64 shifts -/
def countSetBits (mask : BitVec 64) : Nat :=
  loop 64 mask 0
where
  loop : Nat → BitVec 64 → Nat → Nat
  | 0, _, count => count
  | fuel + 1, mask, count =>
    if mask = 0 then count else loop fuel (mask >>> 1) (count + (mask &&& 1).toNat)

namespace Win32

/-- `MaxHWThreads`, for an `AffinityMask` of 64 or 32 bits -/
def maxHWThreads (wide : Bool) : Nat := if wide then 64 else 32

structure ProcessorInfo (wide : Bool) where
  isProcessorCore : Bool
  processorMask : BitVec (maxHWThreads wide)

structure State (wide : Bool) where
  isAccurate : Bool
  numPhysicalCores : Nat
  numHWThreads : Nat
  physicalCoreMasks : Nat → BitVec (maxHWThreads wide)

variable {wide : Bool}

def maskBits (mask : BitVec (maxHWThreads wide)) : Nat := countSetBits (mask.setWidth 64)

/-- The body of the loop over the records. There is no result where the assertion fails. -/
def addRecord (s : State wide) (info : ProcessorInfo wide) : Option (State wide) :=
  if info.isProcessorCore then
    let hwt := maskBits info.processorMask
    if hwt = 0 then some { s with isAccurate := false }
    else if s.numHWThreads + hwt > maxHWThreads wide then some { s with isAccurate := false }
    else if s.numPhysicalCores ≤ s.numHWThreads ∧ s.numHWThreads < maxHWThreads wide then
      some { s with
        physicalCoreMasks :=
          Function.update s.physicalCoreMasks s.numPhysicalCores info.processorMask
        numPhysicalCores := s.numPhysicalCores + 1
        numHWThreads := s.numHWThreads + hwt }
    else none
  else some s

/-- What follows the query. -/
def finish (s : State wide) : Option (State wide) :=
  if s.numPhysicalCores ≤ s.numHWThreads then
    if s.numHWThreads = 0 then
      some ⟨false, 1, 1, Function.update s.physicalCoreMasks 0 1⟩
    else some s
  else none

/-- `Affinity_Win32`. The records, if both calls of `GetLogicalProcessorInformation` answer as
expected. -/
def init (records : Option (List (ProcessorInfo wide))) : Option (State wide) :=
  let s : State wide := ⟨false, 0, 0, fun _ => 0⟩
  match records with
  | none => finish s
  | some infos => (infos.foldlM addRecord { s with isAccurate := true }).bind finish

def affinity (s : State wide) : Interface where
  isAccurate := s.isAccurate
  numPhysicalCores := BitVec.ofNat 32 s.numPhysicalCores
  numHWThreads := BitVec.ofNat 32 s.numHWThreads
  numHWThreadsForCore core :=
    if core < s.numPhysicalCores then some (BitVec.ofNat 32 (maskBits (s.physicalCoreMasks core)))
    else none

/-- The loop of `setAffinity`, for at most `fuel` probes: the mask that it selects. -/
def scan (availableMask : BitVec (maxHWThreads wide)) :
    Nat → BitVec (maxHWThreads wide) → Nat → Option (BitVec (maxHWThreads wide))
  | 0, _, _ => none
  | fuel + 1, checkMask, hwThread =>
    if availableMask &&& checkMask ≠ 0 then
      if hwThread = 0 then some checkMask
      else scan availableMask fuel (checkMask <<< 1) (hwThread - 1)
    else scan availableMask fuel (checkMask <<< 1) hwThread

/-- The mask that `setAffinity` hands to `SetThreadAffinityMask`, where its assertion holds and
the loop ends within `fuel` probes. -/
def setAffinity (s : State wide) (fuel core hwThread : Nat) :
    Option (BitVec (maxHWThreads wide)) :=
  ((affinity s).numHWThreadsForCore core).bind fun threads =>
    if hwThread < threads.toNat then scan (s.physicalCoreMasks core) fuel 1 hwThread else none

end Win32

/-! ## Linux and FreeBSD: grouping by core -/

structure CoreID where
  physical : S32
  core : S32
  deriving DecidableEq

/-- `CoreID()` -/
def CoreID.none : CoreID := ⟨-1, -1⟩

/-- The members of `Affinity_Linux` and `Affinity_FreeBSD`. -/
structure Cores where
  coreIndexToInfo : List (List U32)
  numHWThreads : U32

/-- `CoreInfoCollector`, the same in both. -/
structure Collector where
  logicalProcessor : S32
  coreID : CoreID
  coreIDToIndex : CoreID → Option U32

def Collector.start : Collector := ⟨-1, .none, fun _ => Option.none⟩

/-- `hwThreadIndexToLogicalProcessor.push_back` for the core at an index, if there is one -/
def Cores.push (a : Cores) (coreIndex : U32) (logicalProcessor : S32) : Option Cores :=
  if coreIndex.toNat < a.coreIndexToInfo.length then
    some ⟨a.coreIndexToInfo.modify coreIndex.toNat (· ++ [logicalProcessor]), a.numHWThreads + 1⟩
  else none

/-- `m_coreIndexToInfo.resize` -/
def Cores.resize (a : Cores) (size : Nat) : Cores :=
  { a with
    coreIndexToInfo :=
      a.coreIndexToInfo.take size ++ List.replicate (size - a.coreIndexToInfo.length) [] }

/-- Without identifiers a processor is a core of its own. -/
def coreIDOf (logicalProcessor : S32) (coreID : CoreID) : CoreID :=
  if coreID.physical.toInt < 0 ∧ coreID.core.toInt < 0 then ⟨0, logicalProcessor⟩ else coreID

def flush (c : Collector) (a : Cores) : Option (Collector × Cores) :=
  if 0 ≤ c.logicalProcessor.toInt then
    let coreID := coreIDOf c.logicalProcessor c.coreID
    match c.coreIDToIndex coreID with
    | none =>
      let coreIndex := BitVec.ofNat 32 a.coreIndexToInfo.length
      ((a.resize (coreIndex + 1).toNat).push coreIndex c.logicalProcessor).map fun a =>
        (⟨-1, .none, Function.update c.coreIDToIndex coreID (some coreIndex)⟩, a)
    | some coreIndex =>
      (a.push coreIndex c.logicalProcessor).map fun a => (⟨-1, .none, c.coreIDToIndex⟩, a)
  else some ({ c with logicalProcessor := -1, coreID := .none }, a)

/-- The end of both constructors. -/
def Cores.finish (a : Cores) : Bool × Cores :=
  if a.numHWThreads > 0 then (true, a)
  else
    let a := a.resize 1
    (false, ⟨a.coreIndexToInfo.modify 0 (· ++ [0]), 1⟩)

def Cores.affinity (isAccurate : Bool) (a : Cores) : Interface where
  isAccurate := isAccurate
  numPhysicalCores := BitVec.ofNat 32 a.coreIndexToInfo.length
  numHWThreads := a.numHWThreads
  numHWThreadsForCore core := a.coreIndexToInfo[core]?.map fun info => BitVec.ofNat 32 info.length

namespace Linux

/-- `find_last_not_of(" \t", pos)` -/
def findLastNotBlank (s : List Char) : Nat → Option Nat
  | 0 => if s[0]?.any fun c => c ≠ ' ' ∧ c ≠ '\t' then some 0 else none
  | pos + 1 =>
    if s[pos + 1]?.any fun c => c ≠ ' ' ∧ c ≠ '\t' then some (pos + 1)
    else findLastNotBlank s pos

def label (line : List Char) (colon : Nat) : List Char :=
  match findLastNotBlank line (if colon > 0 then colon - 1 else 0) with
  | some endLabel => line.take (endLabel + 1)
  | none => []

def isSpace (c : Char) : Bool := c = ' ' ∨ (9 ≤ c.toNat ∧ c.toNat ≤ 13)

/-- `sscanf` with `" %d"`: the integer it stores, if any. What it stores for a number that an
`int` cannot hold is up to the library. -/
def scanInt (overflow : Int → S32) (s : List Char) : Option S32 :=
  let s := s.dropWhile isSpace
  let negative := s.head? = some '-'
  let s := if s.head? = some '-' ∨ s.head? = some '+' then s.tail else s
  let digits := s.takeWhile Char.isDigit
  if digits = [] then none
  else
    let magnitude : Nat := digits.foldl (fun (n : Nat) c => 10 * n + (c.toNat - 48)) 0
    let value : Int := if negative then -magnitude else magnitude
    some (if -2 ^ 31 ≤ value ∧ value < 2 ^ 31 then BitVec.ofInt 32 value else overflow value)

inductive Attribute where
  | processor
  | physicalId
  | coreId
  deriving DecidableEq

def attributeOf (label : List Char) : Option Attribute :=
  if label = "processor".toList then some .processor
  else if label = "physical id".toList then some .physicalId
  else if label = "core id".toList then some .coreId
  else none

/-- What a line sets, if it sets anything. -/
def parseLine (overflow : Int → S32) (line : List Char) : Option (Attribute × S32) :=
  line.findIdx? (· = ':') |>.bind fun colon =>
    (scanInt overflow (line.drop (colon + 1))).bind fun value =>
      (attributeOf (label line colon)).map fun a => (a, value)

def readLine (overflow : Int → S32) (s : Collector × Cores) (line : List Char) :
    Option (Collector × Cores) :=
  match parseLine overflow line with
  | some (.processor, value) =>
    (flush s.1 s.2).map fun s => ({ s.1 with logicalProcessor := value }, s.2)
  | some (.physicalId, value) =>
    some ({ s.1 with coreID := { s.1.coreID with physical := value } }, s.2)
  | some (.coreId, value) => some ({ s.1 with coreID := { s.1.coreID with core := value } }, s.2)
  | none => some s

/-- `Affinity_Linux`, from the text of `/proc/cpuinfo` if it can be opened. `getline` also yields
the empty line after a last line that ends in a newline. -/
def init (overflow : Int → S32) (text : Option (List Char)) : Option (Bool × Cores) :=
  match text with
  | none => some (Cores.finish ⟨[], 0⟩)
  | some text =>
    ((text.splitOn '\n').foldlM (readLine overflow) (.start, ⟨[], 0⟩)).bind fun s =>
      (flush s.1 s.2).map fun s => s.2.finish

end Linux

namespace FreeBSD

structure Regs where
  eax : U32
  ebx : U32
  ecx : U32
  edx : U32

structure X2apicLevel where
  mask : U32
  reported : Bool

/-- The static variables of `getTopology`. -/
structure Levels where
  socket : X2apicLevel
  core : X2apicLevel
  thread : X2apicLevel

/-- What CPUID answers on one processor: EAX of leaf 0, EDX of leaf 0xB, and the sub-leaves of
leaf 0xB up to one that reports no level. -/
structure Cpuid where
  maxLeaf : U32
  apicID : U32
  levels : List Regs

def ctz (v : U32) : Nat :=
  if v = 0 then 32 else loop 32 ((v ^^^ (v - 1)) >>> 1)
where
  loop : Nat → U32 → Nat
  | 0, _ => 0
  | fuel + 1, v => if v = 0 then 0 else loop fuel (v >>> 1) + 1

def lowMask (shift : U32) : U32 := ~~~((-1 : U32) <<< (shift &&& 0x1f).toNat)

/-- The loop over the sub-leaves. -/
def scanLevels (t : Levels) : List Regs → Levels
  | [] => t
  | regs :: rest =>
    if regs.eax = 0 ∧ regs.ebx = 0 then t
    else
      let level := (regs.ecx >>> 8) &&& 0xff
      if level = 0 then t
      else if level = 1 then scanLevels { t with thread := ⟨lowMask regs.eax, true⟩ } rest
      else if level = 2 then
        scanLevels
          { t with core := ⟨lowMask regs.eax, true⟩
                   socket := { t.socket with mask := (-1) ^^^ lowMask regs.eax } } rest
      else scanLevels t rest

def identify (t : Levels) (id : U32) : CoreID :=
  ⟨(id &&& t.socket.mask) >>> ctz t.socket.mask, (id &&& t.core.mask) >>> ctz t.core.mask⟩

/-- `getTopology`; no identifiers where it returns false. A mask of no bits is shifted by 32, and
what is shifted then is zero. -/
def getTopology (t : Levels) (cpuid : Option Cpuid) : Levels × Option CoreID :=
  match cpuid with
  | none => (t, none)
  | some answer =>
    if answer.maxLeaf < 0xb then (t, none)
    else if t.socket.reported then (t, some (identify t answer.apicID))
    else
      let t : Levels := scanLevels t answer.levels
      if t.thread.reported ∧ t.core.reported then
        let t : Levels :=
          { t with core := { t.core with mask := t.core.mask ^^^ t.thread.mask }
                   socket := { t.socket with reported := true } }
        (t, some (identify t answer.apicID))
      else if t.thread.reported then
        let t : Levels :=
          { t with core := { t.core with mask := 0 }, socket := ⟨(-1) ^^^ t.thread.mask, true⟩ }
        (t, some (identify t answer.apicID))
      else (t, none)

/-- The loop over the processors to which the thread can be bound. -/
def probeAll (logicalProcessor : U32) (t : Levels) (s : Collector × Cores) :
    List (Option Cpuid) → Option (Collector × Cores)
  | [] => some s
  | cpuid :: rest =>
    let topology := getTopology t cpuid
    (flush { s.1 with logicalProcessor, coreID := topology.2.getD s.1.coreID } s.2).bind fun s =>
      probeAll (logicalProcessor + 1) topology.1 s rest

/-- `Affinity_FreeBSD`, from what `getTopology` remembers and what CPUID answers on each
processor in turn. -/
def init (t : Levels) (probes : List (Option Cpuid)) : Option (Bool × Cores) :=
  (probeAll 0 t (.start, ⟨[], 0⟩) probes).map fun s => s.2.finish

end FreeBSD

end Turf.Affinity
