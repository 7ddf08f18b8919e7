import Turf.Lib.Interleave
import Turf.Lib.Exclusive
import Turf.Lib.Arm
import Turf.Lib.Paged
import Turf.Lib.Mixing
import Turf.Lib.Primality
import Turf.Lib.Gf2
import Turf.Lib.Cells
import Turf.Lib.Slices
import Turf.Lib.Grouping
import Turf.Lib.Serial
import Turf.Lib.Smear
import Turf.Lib.Pattern
import Turf.Primitives.ManualResetEvent
import Turf.Primitives.RaceDetector
import Turf.Primitives.Thread
import Turf.Primitives.Semaphore
import Turf.Primitives.TLSPtr
import Turf.Primitives.MemPage
import Turf.Primitives.ConditionVariable
import Turf.Primitives.CPUTimer
import Turf.Atomics.X86
import Turf.Atomics.Gcc
import Turf.Atomics.Contention
import Turf.Atomics.Arm64
import Turf.Atomics.Weak
import Turf.Atomics.Wrappers
import Turf.Atomics.Native
import Turf.Dispatch.Model
import Turf.Dispatch.Rounds
import Turf.Dispatch.Invariant
import Turf.Dispatch.Statements
import Turf.Dispatch.Calls
import Turf.Dispatch.Kicks
import Turf.Dispatch.Gates
import Turf.MemLog.Model
import Turf.MemLog.Invariant
import Turf.MemLog.Pages
import Turf.MemLog.Reclaim
import Turf.MemLog.Contents
import Turf.MemLog.Views
import Turf.Util.Avalanche
import Turf.Extra.Random
import Turf.Extra.RandomPeriod
import Turf.Extra.UniqueSequence
import Turf.Extra.TimeWaster
import Turf.Extra.Options
import Turf.Extra.OptionsGrammar
import Turf.Extra.OptionsInteger
import Turf.Tidy.Model
import Turf.Tidy.Lines
import Turf.Tidy.Directives
import Turf.Tidy.GuardLines
import Turf.Tidy.Guards
import Turf.Tidy.Headers
import Turf.Tidy.Sweeper
import Turf.Tidy.Statements
import Turf.Trace.Counters
import Turf.LazyInit.Invariant
import Turf.LazyInit.Constructions
import Turf.BitField.Model
import Turf.BitField.Counters
import Turf.Affinity.Model
import Turf.Affinity.Collected
import Turf.Affinity.Lawful
import Turf.Affinity.Blocks
import Turf.Affinity.SetAffinity
import Turf.Util.PowerOf2
import Turf.Affinity.Topology
import Turf.Lib.Extents
import Turf.HeapDL.Model
import Turf.HeapDL.Malloc
import Turf.HeapDL.Free
import Turf.HeapDL.Operator
import Turf.HeapDL.Sizes
import Turf.HeapDL.Wellformed
import Turf.HeapDL.Chunks
import Turf.HeapDL.Serving
import Turf.HeapDL.System
import Turf.HeapDL.Release
import Turf.HeapDL.Aligned
import Turf.HeapDL.Statistics
import Turf.HeapDL.FastStats
import Turf.HeapDL.Realloc
import Turf.HeapDL.DirectMapping
import Turf.Tidy.TraceLines
import Turf.Tidy.Rewrites
import Turf.Tidy.Passes
import Turf.Lib.History
import Turf.Tidy.Numbering
import Turf.Tidy.Errors
import Turf.Tidy.Readings
import Turf.Tidy.Sweeps
import Turf.Tidy.Ids
import Turf.Tidy.Reruns
import Turf.Tidy.Views
import Turf.Tidy.Declarations
import Turf.Tidy.Quoting
import Turf.Tidy.Respacing
import Turf.Tidy.Legible
import Turf.Tidy.WrittenHeaders
import Turf.Tidy.Elections
import Turf.Tidy.Runs
import Turf.HeapDL.BestFit
import Turf.HeapDL.Census
import Turf.HeapDL.Supply
import Turf.HeapDL.Pool
