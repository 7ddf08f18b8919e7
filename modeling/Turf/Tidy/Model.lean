import Turf.Lib.Pattern

/-!
# Tidying source files

The include guards of TidySource.py. A file is its text, a line has its ending, and the second
pass works on lines that all end alike. Where Python stops with an exception, because the variable
of a loop that was never entered is read, the result is `none`.
-/
namespace Turf.Tidy

open Turf.Lib.Pattern

/-! ## Characters and lines -/

/-- `\s`. -/
def isSpace (c : Char) : Bool :=
  c == ' ' || c == '\t' || c == '\n' || c == '\r' || c == Char.ofNat 11 || c == Char.ofNat 12

/-- `\w`. -/
def isWord (c : Char) : Bool := c.isAlphanum || c == '_'

/-- `.`. -/
def isDot (c : Char) : Bool := c != '\n'

/-- `[\n\r]`. -/
def isReturn (c : Char) : Bool := c == '\n' || c == '\r'

/-- `f.readlines()` of a file opened in binary mode. -/
def readlines : Text → List Text
  | [] => []
  | c :: file =>
    if c = '\n' then [c] :: readlines file
    else match readlines file with
      | [] => [[c]]
      | line :: lines => (c :: line) :: lines

/-- `lines[i].strip() == ''`. -/
def isBlank (line : Text) : Bool := line.all isSpace

/-- What `RE_LINEENDING` finds at the end of a line. -/
structure Ending where
  text : Text
  all_return : ∀ c ∈ text, isReturn c

/-- An ending that `readlines` stops at: carriage returns, then the line feed. -/
structure LineEnding extends Ending where
  returns : Nat
  text_eq : text = List.replicate returns '\r' ++ ['\n']

instance : Coe LineEnding Ending := ⟨LineEnding.toEnding⟩

/-- What the option `--unix` expects. -/
def LineEnding.unix : LineEnding :=
  ⟨⟨['\n'], List.all_eq_true.mp (by decide : ['\n'].all isReturn)⟩, 0, rfl⟩

/-- What the option `--windows` expects. -/
def LineEnding.windows : LineEnding :=
  ⟨⟨['\r', '\n'], List.all_eq_true.mp (by decide : ['\r', '\n'].all isReturn)⟩, 1, rfl⟩

/-- `RE_LINEENDING`. -/
def lineEndingPattern : List Item := [.greedy isReturn, .atEnd]

/-- `lines[i][:m.start(0)] + self.expectedLineEnding`. -/
def fixLineEnding (expected : Ending) (line : Text) : Text :=
  match search lineEndingPattern line with
  | some (before, _) => before ++ expected.text
  | none => line

/-- The lines of the second pass. -/
def fixLineEndings (expected : Ending) (file : Text) : List Text :=
  (readlines file).map (fixLineEnding expected)

/-- `m.group`, for the item that the group is about. -/
def group (m : Match) (item : Nat) : Text := m.getD item []

/-! ## The preamble -/

def preambleEnd : Text := "-----*/".toList

def endsPreamble (line : Text) : Bool := decide (preambleEnd <:+: line)

/-- `preamble`, past the line below the one that ends it. -/
def preamble (lines : List Text) : Nat :=
  match (lines.take 25).findIdx? endsPreamble with
  | some i => i + 2
  | none => 0

/-! ## Include guards -/

def defineText : Text := "define".toList
def ifndefText : Text := "ifndef".toList

/-- `\s*#\s*(define|ifndef)\s*(.+?)[\r\n]*$`. -/
def guardPattern : List Item :=
  [.greedy isSpace, .text ['#'], .greedy isSpace, .oneOf [defineText, ifndefText], .greedy isSpace,
    .reluctant isDot 1, .greedy isReturn, .atEnd]

/-- `\s*#\s*endif\s*(.+?)[\r\n]*$`. -/
def endifPattern : List Item :=
  [.greedy isSpace, .text ['#'], .greedy isSpace, .text "endif".toList, .greedy isSpace,
    .reluctant isDot 1, .greedy isReturn, .atEnd]

/-- The directive and the text behind it. -/
def guardLine (line : Text) : Option (Text × Text) :=
  (matchItems guardPattern line).map fun m => (group m 3, group m 5)

/-- The text behind `#endif`. -/
def endifLine (line : Text) : Option Text :=
  (matchItems endifPattern line).map fun m => group m 5

/-- `gotIfNDef`, `gotDefine` and `gotEndIf`. -/
structure Guards where
  ifndef : Option Text
  define : Option Text
  endif : Option Text

namespace Guards

def start : Guards := ⟨none, none, none⟩

/-- The body of the first loop at a line that is not blank. `none` where it breaks. -/
def top (got : Guards) (line : Text) : Option Guards :=
  if got.ifndef.isSome ∧ got.endif.isSome then none
  else match guardLine line with
    | none => none
    | some (directive, text) =>
      if directive = defineText ∧ got.define = none then some { got with define := some text }
      else if directive = ifndefText ∧ got.ifndef = none then some { got with ifndef := some text }
      else none

/-- The same for the second loop. -/
def bottom (got : Guards) (line : Text) : Option Guards :=
  if got.endif = none then (endifLine line).map fun text => { got with endif := some text }
  else none

/-- Not `guard != gotIfNDef or guard != gotDefine or ('// ' + guard != gotEndIf)`. -/
def areOf (got : Guards) (guard : Text) : Prop :=
  got.ifndef = some guard ∧ got.define = some guard ∧ got.endif = some ("// ".toList ++ guard)

/-- Guards that start with a `#define` are not fixed. -/
def startWithDefine (got : Guards) : Prop := got.define ≠ none ∧ got.ifndef = none

instance (got : Guards) (guard : Text) : Decidable (got.areOf guard) :=
  inferInstanceAs (Decidable (_ ∧ _))

instance (got : Guards) : Decidable got.startWithDefine := inferInstanceAs (Decidable (_ ∧ _))

end Guards

/-- A loop over lines that passes the blank ones, with the lines from the one where it breaks on. -/
def scan (body : Guards → Text → Option Guards) (got : Guards) : List Text → Guards × List Text
  | [] => (got, [])
  | line :: lines =>
    if isBlank line then scan body got lines
    else match body got line with
      | some got => scan body got lines
      | none => (got, line :: lines)

/-- The second loop, from the last line up to the one below that where the first loop ended, with
`lines[s:e + 1]`. There is no `e` if no line is below. -/
def scanBack (got : Guards) : List Text → Guards × Option (List Text)
  | first :: second :: more =>
    let (got, above) := scan Guards.bottom got (second :: more).reverse
    (got, some (first :: if above = [] then [second] else above.reverse))
  | _ => (got, none)

/-- Both loops over the lines behind the preamble. There is no `s` without a line. -/
def findGuards (lines : List Text) : Option (Guards × Option (List Text)) :=
  if lines = [] then none
  else
    let (got, rest) := scan Guards.top .start lines
    some (scanBack got rest)

def ifndefLine (expected : Ending) (guard : Text) : Text :=
  "#ifndef ".toList ++ guard ++ expected.text

def defineLine (expected : Ending) (guard : Text) : Text :=
  "#define ".toList ++ guard ++ expected.text

def endifGuardLine (expected : Ending) (guard : Text) : Text :=
  "#endif // ".toList ++ guard ++ expected.text

/-- The lines in the new guard. -/
def guarded (expected : Ending) (guard : Text) (body : List Text) : List Text :=
  [ifndefLine expected guard, defineLine expected guard, expected.text] ++ body ++
    [expected.text, endifGuardLine expected guard]

/-- `Check include guards` in the second pass. -/
def fixGuards (expected : Ending) (guard : Text) (lines : List Text) : Option (List Text) :=
  (findGuards (lines.drop (preamble lines))).bind fun (got, body) =>
    if got.areOf guard ∨ got.startWithDefine then some lines
    else body.map fun body => lines.take (preamble lines) ++ guarded expected guard body

/-- `re.findall('\\w+', text)`. -/
def words : Text → List Text
  | [] => []
  | c :: text =>
    if isWord c then
      match text.head?.any isWord, words text with
      | true, w :: ws => (c :: w) :: ws
      | _, ws => [c] :: ws
    else words text

/-- `getIncludeGuard`, with the part of the path behind the root. -/
def getIncludeGuard (projectName path : Text) : Text :=
  (['_'].intercalate (words (projectName ++ path))).map Char.toUpper

/-- What a guard can be called. -/
structure GuardName where
  text : Text
  ne_nil : text ≠ []
  word : ∀ c ∈ text, isWord c

/-- A header is read, its line endings and its guard are fixed, and it is written back. Where no file has
a line ending, none is expected, and Python stops. -/
def tidyGuards (expected : Option Ending) (guard : GuardName) (file : Text) : Option Text :=
  expected.bind fun expected => (fixGuards expected guard.text (fixLineEndings expected file)).map List.flatten

/-! ## Names of guards -/

theorem words_word {text : Text} : ∀ w ∈ words text, w ≠ [] ∧ ∀ c ∈ w, isWord c := by
  induction text with
  | nil => exact fun w hw => by cases hw
  | cons c text ih =>
    intro w hw
    rw [words] at hw
    grind

theorem words_ne_nil {c : Char} {text : Text} (hc : c ∈ text) (hword : isWord c) :
    words text ≠ [] := by
  induction text with
  | nil => cases hc
  | cons d text ih =>
    rw [words]
    grind

theorem isWord_toUpper {c : Char} (h : isWord c) : isWord c.toUpper := by
  have hascii : ∀ n : Fin 128, isWord (Char.ofNat n) → isWord (Char.ofNat n).toUpper := by decide
  have hc : c.toNat < 128 := by
    rcases (Bool.or_eq_true _ _).mp h with h | h
    · rcases (Bool.or_eq_true _ _).mp h with h | h
      · rcases (Bool.or_eq_true _ _).mp h with h | h
        · exact Nat.lt_of_le_of_lt (of_decide_eq_true h).2 (by decide)
        · exact Nat.lt_of_le_of_lt (of_decide_eq_true ((Bool.and_eq_true _ _).mp h).2) (by decide)
      · exact Nat.lt_of_le_of_lt (of_decide_eq_true ((Bool.and_eq_true _ _).mp h).2) (by decide)
    · rw [eq_of_beq h]
      decide
  have hupper := hascii ⟨c.toNat, hc⟩
  rw [Char.ofNat_toNat] at hupper
  exact hupper h

theorem mem_intercalate {c : Char} {separator : Text} {ws : List Text}
    (hc : c ∈ separator.intercalate ws) : c ∈ separator ∨ ∃ w ∈ ws, c ∈ w := by
  induction ws with
  | nil => cases hc
  | cons w ws ih =>
    cases ws with
    | nil =>
      rw [List.intercalate_singleton] at hc
      exact .inr ⟨w, List.mem_singleton_self w, hc⟩
    | cons v ws =>
      rw [List.intercalate_cons_cons, List.mem_append, List.mem_append] at hc
      rcases hc with (hc | hc) | hc
      · exact .inr ⟨w, List.mem_cons_self .., hc⟩
      · exact .inl hc
      · rcases ih hc with hc | ⟨u, hu, hc⟩
        · exact .inl hc
        · exact .inr ⟨u, List.mem_cons_of_mem _ hu, hc⟩

theorem intercalate_ne_nil {separator : Text} {ws : List Text} (hne : ∀ w ∈ ws, w ≠ [])
    (h : ws ≠ []) : separator.intercalate ws ≠ [] := by
  match ws with
  | [] => exact absurd rfl h
  | [w] =>
    rw [List.intercalate_singleton]
    exact hne w (List.mem_singleton_self w)
  | w :: v :: ws =>
    rw [List.intercalate_cons_cons]
    simp [hne w (List.mem_cons_self ..)]

/-- The path of a header ends in `.h` or `.H`. -/
def GuardName.ofHeader (projectName path : Text) (h : 'h' ∈ path ∨ 'H' ∈ path) : GuardName where
  text := getIncludeGuard projectName path
  ne_nil := by
    have hwords : words (projectName ++ path) ≠ [] := by
      rcases h with h | h
      · exact words_ne_nil (List.mem_append_right _ h) (by decide)
      · exact words_ne_nil (List.mem_append_right _ h) (by decide)
    rw [getIncludeGuard, ne_eq, List.map_eq_nil_iff]
    exact intercalate_ne_nil (fun w hw => (words_word w hw).1) hwords
  word := by
    intro c hc
    obtain ⟨d, hd, rfl⟩ := List.mem_map.mp hc
    apply isWord_toUpper
    rcases mem_intercalate hd with hd | ⟨w, hw, hd⟩
    · rw [List.mem_singleton.mp hd]
      decide
    · exact (words_word w hw).2 d hd

end Turf.Tidy
