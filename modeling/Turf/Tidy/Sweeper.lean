import Mathlib.Logic.Function.Basic
import Turf.Tidy.Model

/-!
# The sweeper

The rest of `FileSweeper` in TidySource.py: the quotes of `#error`, the ids of TURF_TRACE statements
and the two passes over all files, in the second of which the files are written.
-/
namespace Turf.Tidy

open Turf.Lib.Pattern

/-! ## Quotes around `#error` messages -/

/-- `\s*#\s*error\s*(.+?)\s*$`. -/
def errorPattern : List Item :=
  [.greedy isSpace, .text ['#'], .greedy isSpace, .text "error".toList, .greedy isSpace,
    .reluctant isDot 1, .greedy isSpace, .atEnd]

/-- `fixedMsg`. -/
def quoted (msg : Text) : Text :=
  let fixedMsg := if msg.head? = some '"' then msg else '"' :: msg
  if fixedMsg.getLast? = some '"' then fixedMsg else fixedMsg ++ ['"']

def fixError (line : Text) : Text :=
  match matchItems errorPattern line with
  | some m =>
    let start := (m.take 5).flatten.length
    line.take start ++ quoted (group m 5) ++ line.drop (start + (group m 5).length)
  | none => line

/-! ## Lines about traces -/

/-- `\s*…\s*\(\s*(\w+?)\s*,` with the name of a macro. -/
def categoryPattern (keyword : Text) : List Item :=
  [.greedy isSpace, .text keyword, .greedy isSpace, .text ['('], .greedy isSpace,
    .reluctant isWord 1, .greedy isSpace, .text [',']]

/-- `\s*TURF_TRACE_DEFINE_END`. -/
def endPattern : List Item := [.greedy isSpace, .text "TURF_TRACE_DEFINE_END".toList]

/-- `TURF_TRACE\s*\(.*?"(.*?)"`. -/
def tracePattern : List Item :=
  [.text "TURF_TRACE".toList, .greedy isSpace, .text ['('], .reluctant isDot 0, .text ['"'],
    .reluctant isDot 0, .text ['"']]

def declareLine (line : Text) : Option Text :=
  (matchItems (categoryPattern "TURF_TRACE_DECLARE".toList) line).map fun m => group m 5

def beginLine (line : Text) : Option Text :=
  (matchItems (categoryPattern "TURF_TRACE_DEFINE_BEGIN".toList) line).map fun m => group m 5

def isEnd (line : Text) : Bool := (matchItems endPattern line).isSome

/-- `endl - l`: how many lines behind the first one are of a definition block. -/
def blockLength (lines : List Text) : Nat :=
  match lines.findIdx? isEnd with
  | some i => i + 1
  | none => 0

def decimal (n : Nat) : Text := Nat.toDigits 10 n

/-- What a numbered statement has before its message. -/
def argsText (name : Text) (index : Nat) : Text := name ++ ", ".toList ++ decimal index ++ ", ".toList

def declareText (expected : Ending) (name : Text) (count : Nat) : Text :=
  "TURF_TRACE_DECLARE(".toList ++ name ++ ", ".toList ++ decimal count ++ ")".toList ++ expected.text

def beginText (expected : Ending) (name : Text) (count : Nat) : Text :=
  "TURF_TRACE_DEFINE_BEGIN(".toList ++ name ++ ", ".toList ++ decimal count ++
    ") // autogenerated by TidySource.py".toList ++ expected.text

def entryText (expected : Ending) (desc : Text) : Text :=
  "TURF_TRACE_DEFINE(\"".toList ++ desc ++ "\")".toList ++ expected.text

def endText (expected : Ending) (name : Text) (count : Nat) : Text :=
  "TURF_TRACE_DEFINE_END(".toList ++ name ++ ", ".toList ++ decimal count ++ ")".toList ++
    expected.text

/-! ## Ids -/

/-- `logCategories`: the messages of the categories that were declared so far. -/
abbrev Log := Text → Option (List Text)

namespace Log

def start : Log := fun _ => none

def messages (log : Log) (name : Text) : List Text := (log name).getD []

/-- A declaration makes the entry of a category, and a statement adds its message to it. -/
def add (log : Log) (name : Text) (new : List Text) : Log :=
  Function.update log name (some (log.messages name ++ new))

end Log

/-- The second pass has the line ending that is expected and `origLogCategories` of the first. -/
inductive Pass where
  | first
  | second (expected : Ending) (orig : Log)

namespace Pass

/-- What a pass makes of a TURF_TRACE_DECLARE. A category that is not in the log is a KeyError. -/
def declare : Pass → Text → Text → Option (List Text)
  | first, _, line => some [line]
  | second expected orig, name, _ =>
    (orig name).map fun origLogList => [declareText expected name origLogList.length]

/-- What a pass makes of a definition block. -/
def block : Pass → Text → List Text → Option (List Text)
  | first, _, lines => some lines
  | second expected orig, name, _ =>
    (orig name).map fun origLogList => beginText expected name origLogList.length ::
      origLogList.map (entryText expected) ++ [endText expected name origLogList.length]

/-- What a pass makes of a line that the pattern of the statements is found in. -/
def statement : Pass → Text → Nat → Text → Text × Match → Text
  | first, _, _, line, _ => line
  | second _ _, name, logIndex, line, (before, m) =>
    before ++ "TURF_TRACE(".toList ++ argsText name logIndex ++ ['"'] ++ group m 5 ++ ['"'] ++
      line.drop (before ++ m.flatten).length

end Pass

/-- `while l < len(lines)`. The lines of a definition block behind its first one are skipped. Without
a category a statement is only reported, and with one a further declaration is. -/
def tidyTraces (pass : Pass) : Nat → Option Text → Log → List Text → Option (List Text × Log)
  | _, _, log, [] => some ([], log)
  | skip + 1, logCategory, log, _ :: lines => tidyTraces pass skip logCategory log lines
  | 0, none, log, line :: lines =>
    match declareLine line with
    | some name => (pass.declare name line).bind fun new =>
      (tidyTraces pass 0 (some name) (log.add name []) lines).map fun r => (new ++ r.1, r.2)
    | none =>
      match beginLine line with
      | some name => (pass.block name (line :: lines.take (blockLength lines))).bind fun new =>
        (tidyTraces pass (blockLength lines) (some name) (log.add name []) lines).map
          fun r => (new ++ r.1, r.2)
      | none => (tidyTraces pass 0 none log lines).map fun r => (line :: r.1, r.2)
  | 0, some name, log, line :: lines =>
    if (declareLine line).isSome ∨ (beginLine line).isSome then
      (tidyTraces pass 0 (some name) log lines).map fun r => (line :: r.1, r.2)
    else
      match search tracePattern line with
      | some (before, m) =>
        (tidyTraces pass 0 (some name) (log.add name [group m 5]) lines).map fun r =>
          (pass.statement name (log.messages name).length line (before, m) :: r.1, r.2)
      | none => (tidyTraces pass 0 (some name) log lines).map fun r => (line :: r.1, r.2)

/-! ## Passes over files -/

/-- A file that is swept, with the name of the guard if it is a header. -/
structure SourceFile where
  guard : Option GuardName
  text : Text

/-- `tidyFile` in the first pass, where the check of the guard can raise an exception as well. -/
def firstPass (log : Log) (file : SourceFile) : Option Log :=
  let lines := readlines file.text
  if file.guard.isSome ∧ findGuards (lines.drop (preamble lines)) = none then none
  else (tidyTraces .first 0 none log lines).map fun r => r.2

/-- The lines of a file in the second pass before the ids are assigned. -/
def prepare (expected : Ending) (file : SourceFile) : Option (List Text) :=
  match file.guard with
  | none => some ((fixLineEndings expected file.text).map fixError)
  | some guard => (fixGuards expected guard.text (fixLineEndings expected file.text)).map
    (List.map fixError)

/-- `tidyFile` in the second pass. -/
def secondPass (expected : Ending) (orig log : Log) (file : SourceFile) :
    Option (SourceFile × Log) :=
  (prepare expected file).bind fun lines =>
    (tidyTraces (.second expected orig) 0 none log lines).map fun r =>
      ({ file with text := r.1.flatten }, r.2)

def scanSecond (expected : Ending) (orig : Log) : Log → List SourceFile → Option (List SourceFile)
  | _, [] => some []
  | log, file :: files => (secondPass expected orig log file).bind fun r =>
    (scanSecond expected orig r.2 files).map (r.1 :: ·)

/-! ## The expected ending -/

/-- `m.group(0)` of `RE_LINEENDING`. -/
def endingOf (line : Text) : Text :=
  match search lineEndingPattern line with
  | some (_, m) => group m 0
  | none => []

/-- The groups that a file is added to: one for each ending that a line of it has. -/
def lineEndings (file : SourceFile) : List Text :=
  ((readlines file.text).map endingOf).filter (· ≠ [])

/-- `len(pair[1])`, for the group of an ending. -/
def groupSize (ending : Text) (files : List SourceFile) : Nat :=
  files.countP fun file => (lineEndings file).contains ending

/-- `options.lineEndings`. -/
inductive EndingOption where
  | autodetect
  | unix
  | windows
  deriving DecidableEq, Repr

/-- What `self.expectedLineEnding` can be after the first pass: what the option says, or the ending of
a largest group. Between groups of one size the order in a dictionary decides. -/
inductive Expects (files : List SourceFile) : EndingOption → Option Ending → Prop
  | unix : Expects files .unix (some LineEnding.unix)
  | windows : Expects files .windows (some LineEnding.windows)
  | largest {ending : Ending} (hmem : ∃ file ∈ files, ending.text ∈ lineEndings file)
    (hlargest : ∀ other, groupSize other files ≤ groupSize ending.text files) :
    Expects files .autodetect (some ending)
  | nothing (h : ∀ file ∈ files, lineEndings file = []) : Expects files .autodetect none

/-- Both passes over the files, in the order of the directory walk. If no ending is expected, the second
one stops at a line. -/
def sweep (expected : Option Ending) (files : List SourceFile) : Option (List SourceFile) :=
  (files.foldlM firstPass .start).bind fun orig =>
    match expected with
    | some expected => scanSecond expected orig .start files
    | none => if ∀ file ∈ files, readlines file.text = [] then some files else none

end Turf.Tidy
