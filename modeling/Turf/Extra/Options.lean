import Mathlib.Data.List.Basic
import Mathlib.Logic.Function.Basic

/-!
# Command-line options

Options.cpp. `parse` enters the options into a table by long name and one by short name and
scans the arguments with an index that a separate parameter advances once more. Reads of
`argv` are checked against `argc`, and C strings are their characters before the terminator.
-/
namespace Turf.Extra.Options

def nul : Char := Char.ofNat 0

/-- The characters of a C string before its terminator. -/
structure CString where
  chars : List Char
  terminated : nul ∉ chars
  deriving DecidableEq

namespace CString

theorem ext {s t : CString} (h : s.chars = t.chars) : s = t := by
  obtain ⟨a, ha⟩ := s
  obtain ⟨b, hb⟩ := t
  cases h
  rfl

/-- The character at an index, which is the terminator at the end. -/
def charAt (s : CString) (i : Nat) : Char := s.chars.getD i nul

/-- The string from an index on. -/
def drop (s : CString) (i : Nat) : CString :=
  ⟨s.chars.drop i, fun h => s.terminated (List.mem_of_mem_drop h)⟩

end CString

/-- A literal. -/
def lit (s : String) (h : nul ∉ s.toList := by decide) : CString := ⟨s.toList, h⟩

/-- `Option`, less the description that only the usage text shows. -/
structure Opt where
  longName : CString
  shortName : Char
  takesParam : Bool
  deriving DecidableEq

def helpOption : Opt := ⟨lit "help", 'h', false⟩

/-- The members of `Options` that `parse` changes. A parameter is NULL if the option takes none. -/
structure State where
  programName : CString
  positionalArgs : List CString
  keywordArgs : CString → Option (Option CString)

def State.fresh : State := ⟨lit "???", [], fun _ => none⟩

def State.hasKeywordArg (s : State) (longName : CString) : Bool := (s.keywordArgs longName).isSome

/-- What `printErrorAndExit` is called for. -/
inductive ParseError where
  | unrecognized (arg : CString)
  | specifiedTwice (arg : CString)
  | requiresParameter (arg : CString)
  | unrecognizedShort (c : Char)
  | specifiedTwiceShort (c : Char)
  | takesNoParameter (c : Char) (param : CString)
  | requiresParameterShort (c : Char)

/-- How `parse` ends. The last two are a failed assertion and a read of `argv` past its end. -/
inductive Outcome where
  | returned (s : State)
  | usage
  | error (e : ParseError)
  | assertionFailed
  | outOfBounds

/-- The code that the process exits with. -/
def Outcome.exitCode : Outcome → Option Nat
  | .usage => some 0
  | .error _ => some 1
  | _ => none

/-! ## The tables -/

structure Tables where
  longDict : CString → Option Opt
  shortDict : Char → Option Opt

def Tables.start : Tables where
  longDict := Function.update (fun _ => none) helpOption.longName (some helpOption)
  shortDict := Function.update (fun _ => none) helpOption.shortName (some helpOption)

/-- The body of the loop over the options. There is no result where an assertion fails. -/
def Tables.add (d : Tables) (opt : Opt) : Option Tables :=
  if (d.longDict opt.longName).isSome then none
  else
    let d := { d with longDict := Function.update d.longDict opt.longName (some opt) }
    if opt.shortName ≠ nul then
      if (d.shortDict opt.shortName).isSome then none
      else some { d with shortDict := Function.update d.shortDict opt.shortName (some opt) }
    else some d

def makeTables (options : List Opt) : Option Tables := options.foldlM Tables.add .start

/-! ## The scan -/

/-- `m_keywordArgs[opt->longName] = param` -/
def State.use (s : State) (opt : Opt) (param : Option CString) : State :=
  { s with keywordArgs := Function.update s.keywordArgs opt.longName (some param) }

def State.push (s : State) (arg : CString) : State :=
  { s with positionalArgs := s.positionalArgs ++ [arg] }

/-- `if (++a >= argc) printErrorAndExit(..); param = argv[a];` -/
def nextParam (argv : List CString) (a : Nat) (e : ParseError) : Except Outcome (Nat × CString) :=
  if a + 1 ≥ argv.length then .error (.error e)
  else
    match argv[a + 1]? with
    | none => .error .outOfBounds
    | some param => .ok (a + 1, param)

/-- An argument that starts with two dashes. -/
def scanLong (d : Tables) (argv : List CString) (a : Nat) (arg : CString) (s : State) :
    Except Outcome (Nat × State) :=
  match d.longDict (arg.drop 2) with
  | none => .error (.error (.unrecognized arg))
  | some opt =>
    if s.hasKeywordArg opt.longName then .error (.error (.specifiedTwice arg))
    else if opt.takesParam then
      (nextParam argv a (.requiresParameter arg)).map fun r => (r.1, s.use opt (some r.2))
    else .ok (a, s.use opt none)

/-- An argument that starts with one dash. -/
def scanShort (d : Tables) (argv : List CString) (a : Nat) (arg : CString) (s : State) :
    Except Outcome (Nat × State) :=
  match d.shortDict (arg.charAt 1) with
  | none => .error (.error (.unrecognizedShort (arg.charAt 1)))
  | some opt =>
    if s.hasKeywordArg opt.longName then .error (.error (.specifiedTwiceShort (arg.charAt 1)))
    else if arg.charAt 2 ≠ nul then
      if opt.takesParam then .ok (a, s.use opt (some (arg.drop 2)))
      else .error (.error (.takesNoParameter (arg.charAt 1) (arg.drop 2)))
    else if opt.takesParam then
      (nextParam argv a (.requiresParameterShort (arg.charAt 1))).map fun r =>
        (r.1, s.use opt (some r.2))
    else .ok (a, s.use opt none)

/-- The body of the loop over the arguments: the index before it is advanced once more. -/
def scanArg (d : Tables) (argv : List CString) (a : Nat) (s : State) :
    Except Outcome (Nat × State) :=
  match argv[a]? with
  | none => .error .outOfBounds
  | some arg =>
    if arg.charAt 0 = '-' then
      if arg.charAt 1 = '-' then scanLong d argv a arg s else scanShort d argv a arg s
    else .ok (a, s.push arg)

/-- The loop, with at least as much fuel as there are arguments left. -/
def scan (d : Tables) (argv : List CString) : Nat → Nat → State → Except Outcome State
  | 0, _, s => .ok s
  | fuel + 1, a, s =>
    if a < argv.length then
      match scanArg d argv a s with
      | .error o => .error o
      | .ok (a, s) => scan d argv fuel (a + 1) s
    else .ok s

/-- What follows the last slash or backslash, if there is one. -/
def programName (s : State) (path : CString) : CString :=
  let isSlash := fun c => c = '/' ∨ c = '\\'
  if path.chars.any isSlash then
    path.drop (path.chars.length - (path.chars.reverse.takeWhile fun c => ¬ isSlash c).length)
  else s.programName

/-- The check for the help option. -/
def finish (s : State) : Outcome :=
  if s.hasKeywordArg helpOption.longName then .usage else .returned s

def parse (s : State) (options : List Opt) (argv : List CString) : Outcome :=
  match argv with
  | [] => .assertionFailed
  | path :: _ =>
    let s := { s with programName := programName s path }
    match makeTables options with
    | none => .assertionFailed
    | some d =>
      match scan d argv argv.length 1 s with
      | .error o => o
      | .ok s => finish s

end Turf.Extra.Options
