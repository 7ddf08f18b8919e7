import Turf.Tidy.Sweeps
import Turf.Tidy.Views

/-!
# Code of declarations

How the declarations and the definition blocks that the second pass writes read without comments.
-/
namespace Turf.Tidy

open Turf.Lib.Pattern
open Turf.Lib.Lexing

variable {name desc text content line word : Text} {found decl lines : List Text} {expected : Ending}
  {count : Nat}

/-! ## Lines -/

/-- The line is one logical line, with the code. -/
def Reads (line text : Text) : Prop := readLine .code (withoutEnding line) = ⟨.code, text, true⟩

theorem Reads.codeAt_eq (h : Reads line text) : codeAt (.code, line) = text := by rw [codeAt, h]; rfl

theorem Reads.modeAt_eq (h : Reads line text) : modeAt (.code, line) = .code := by rw [modeAt, h]

theorem reads_append (hcontent : IsContent content) (h : readLine .code content = ⟨.code, text, true⟩) :
    Reads (content ++ expected.text) text := by
  rw [Reads, withoutEnding_append hcontent ending_return, h]

theorem last_paren (front : Text) : (front ++ [')']).getLast? = some ')' := List.getLast?_concat

theorem plain_decimal (n : Nat) : ∀ c ∈ decimal n, Mode.Plain c := by
  intro c hc
  have hdigit := Nat.isDigit_of_mem_toDigits (by omega) (by omega) hc
  exact plain_of_word (by rw [isWord, Char.isAlphanum, hdigit]; simp)

theorem countText_concat (word name : Text) (n : Nat) :
    countText word name n = (word ++ '(' :: (name ++ ',' :: ' ' :: decimal n)) ++ [')'] := by
  simp only [countText, List.append_assoc, List.cons_append]

theorem plain_countText (hword : ∀ c ∈ word, Mode.Plain c) (hname : IsName name) (n : Nat) :
    ∀ c ∈ countText word name n, Mode.Plain c := by
  intro c hc
  simp only [countText, List.mem_append, List.mem_cons, List.not_mem_nil, or_false] at hc
  rcases hc with hc | rfl | hc | rfl | rfl | hc | rfl
  · exact hword c hc
  · decide
  · exact plain_of_word (hname.word c hc)
  · decide
  · decide
  · exact plain_decimal n c hc
  · decide

theorem isContent_countText (hword : '\n' ∉ word) (hname : IsName name) (n : Nat) :
    IsContent (countText word name n) := by
  refine ⟨?_, fun c hc => ?_⟩
  · simp only [countText, List.mem_append, List.mem_cons, List.not_mem_nil, or_false, not_or]
    exact ⟨hword, by decide, feed_not_mem_name hname, by decide, by decide, feed_not_mem_decimal n, by decide⟩
  · rw [countText_concat, last_paren] at hc
    cases hc
    rfl

/-- A line with a name and a count is code as it stands. -/
theorem countText_reads (hword : ∀ c ∈ word, Mode.Plain c) (hfeed : '\n' ∉ word) (hname : IsName name) (n : Nat) :
    Reads (countText word name n ++ expected.text) (countText word name n) := by
  refine reads_append (isContent_countText hfeed hname n) (readLine_plain (plain_countText hword hname n) ?_)
  rw [countText_concat, last_paren]
  decide

theorem written_eq_countText (word name ending : Text) (n : Nat) : word ++ '(' :: (name ++ ',' ::
    (' ' :: (decimal n ++ ([')'] ++ ending)))) = countText word name n ++ ending := by
  simp only [countText, List.append_assoc, List.cons_append]

theorem declareText_reads (hname : IsName name) (count : Nat) : Reads (declareText expected name count)
    (countText "TURF_TRACE_DECLARE".toList name count) := by
  have hplain := plain_of_all (by decide : "TURF_TRACE_DECLARE".toList.all fun c => decide (Mode.Plain c))
  have hline := @declareText_eq name expected count
  rw [show ")".toList = [')'] by decide, written_eq_countText] at hline
  rw [hline]
  exact countText_reads hplain (by decide) hname count

theorem endText_reads (hname : IsName name) (count : Nat) : Reads (endText expected name count)
    (countText "TURF_TRACE_DEFINE_END".toList name count) := by
  have hplain := plain_of_all (by decide : "TURF_TRACE_DEFINE_END".toList.all fun c => decide (Mode.Plain c))
  have hline := @endText_eq name expected count
  rw [show ")".toList = [')'] by decide, written_eq_countText] at hline
  rw [hline]
  exact countText_reads hplain (by decide) hname count

/-- The comment behind the first line of a block is no code. -/
theorem beginText_reads (hname : IsName name) (count : Nat) : Reads (beginText expected name count)
    (countText "TURF_TRACE_DEFINE_BEGIN".toList name count ++ [' ', ' ']) := by
  have hplain := plain_of_all (by decide : "TURF_TRACE_DEFINE_BEGIN".toList.all fun c => decide (Mode.Plain c))
  obtain ⟨note, hclose, hrun, hlast, hfeed⟩ : ∃ note : Text,
      ") // autogenerated by TidySource.py".toList = [')'] ++ note ∧
      Mode.code.run note = (.line, [' ', ' ']) ∧ note.getLast? = some 'y' ∧ '\n' ∉ note :=
    ⟨" // autogenerated by TidySource.py".toList, by decide, by decide, by decide, by decide⟩
  have hline := @beginText_eq name expected count
  rw [hclose, List.append_assoc, written_eq_countText, ← List.append_assoc] at hline
  have hend : (countText "TURF_TRACE_DEFINE_BEGIN".toList name count ++ note).getLast? = some 'y' := by
    rw [List.getLast?_append, hlast]
    rfl
  rw [hline]
  refine reads_append ⟨?_, fun c hc => ?_⟩ ?_
  · rw [List.mem_append, not_or]
    exact ⟨(isContent_countText (by decide) hname count).no_feed, hfeed⟩
  · rw [hend] at hc
    cases hc
    rfl
  · rw [readLine_of_not (by rw [hend]; decide), Mode.run_append, Mode.run_plain (plain_countText hplain hname count)]
    simp only [hrun, Mode.newline, List.append_nil, decide_true]

theorem entryText_messageText (expected : Ending) (desc : Text) :
    entryText expected desc = messageText desc ++ expected.text := by
  obtain ⟨front, hfront⟩ : ∃ front : Text, "TURF_TRACE_DEFINE(\"".toList = front := ⟨_, rfl⟩
  have hclose : "\")".toList = ['"', ')'] := by decide
  have hmessage : messageText desc = front ++ (desc ++ ['"', ')']) :=
    congrArg (· ++ (desc ++ ['"', ')'])) hfront
  have hline := @entryText_eq expected desc
  rwa [hfront, hclose, ← List.append_assoc desc, ← List.append_assoc, ← hmessage] at hline

/-- A message without a quote is code as it stands, also where a backslash at its end hides its own. -/
theorem entryText_reads (hdot : ∀ c ∈ desc, isDot c) (hquote : '"' ∉ desc) :
    Reads (entryText expected desc) (messageText desc) := by
  obtain ⟨front, hfront, hrun, hfeed⟩ : ∃ front : Text, "TURF_TRACE_DEFINE(\"".toList = front ∧
      Mode.code.run front = (.literal '"', front) ∧ '\n' ∉ front :=
    ⟨"TURF_TRACE_DEFINE(\"".toList, rfl, by decide, by decide⟩
  have hmessage : messageText desc = front ++ (desc ++ ['"', ')']) :=
    congrArg (· ++ (desc ++ ['"', ')'])) hfront
  have hlast : (front ++ (desc ++ ['"', ')'])).getLast? = some ')' := by simp
  have hback : ∀ m : Mode, m = .literal '"' ∨ m = .escape '"' →
      (m.run ['"', ')']).1.newline = (.code, []) ∧ (m.run ['"', ')']).2 = ['"', ')'] := by
    rintro m (rfl | rfl)
    · decide
    · decide
  rw [entryText_messageText, hmessage]
  refine reads_append ⟨?_, fun c hc => ?_⟩ ?_
  · simp only [List.mem_append, List.mem_cons, List.not_mem_nil, or_false, not_or]
    exact ⟨hfeed, fun hmem => absurd (hdot _ hmem) (by decide), by decide, by decide⟩
  · rw [hlast] at hc
    cases hc
    rfl
  · obtain ⟨hcode, -, hmode, -⟩ := Mode.run_quoted hquote
    obtain ⟨hnewline, hsame⟩ := hback _ hmode
    rw [readLine_of_not (by rw [hlast]; decide), Mode.run_append, Mode.run_append, hrun]
    simp only [hcode, hnewline, hsame, List.append_nil, decide_true]

/-! ## Declarations and blocks -/

theorem view_of_reads {codes : List Text} (h : List.Forall₂ Reads lines codes) :
    view lines = codes ∧ modeBehind .code lines = .code := by
  rw [view_eq]
  induction h with
  | nil => exact ⟨rfl, rfl⟩
  | @cons line code lines codes hline _ ih =>
    have hmode : (readLine .code (withoutEnding line)).mode = .code := hline.modeAt_eq
    rw [staged, List.map_cons, hline.codeAt_eq, modeBehind_cons, hline.modeAt_eq, hmode]
    exact ⟨congrArg (code :: ·) ih.1, ih.2⟩

/-- The code of the declaration that the second pass writes. -/
def declared (name : Text) (found decl : List Text) : List Text :=
  if Reading.IsBlock decl then
    (countText "TURF_TRACE_DEFINE_BEGIN".toList name found.length ++ [' ', ' ']) ::
      (found.map messageText ++ [countText "TURF_TRACE_DEFINE_END".toList name found.length])
  else [countText "TURF_TRACE_DECLARE".toList name found.length]

theorem redeclared_reads (hname : IsName name) (hfound : ∀ desc ∈ found, (∀ c ∈ desc, isDot c) ∧ '"' ∉ desc)
    (decl : List Text) :
    List.Forall₂ Reads (redeclared expected name found decl) (declared name found decl) := by
  rw [redeclared, declared]
  split
  · rw [List.cons_append]
    refine .cons (beginText_reads hname _) (List.rel_append ?_ (.cons (endText_reads hname _) .nil))
    rw [List.forall₂_map_left_iff, List.forall₂_map_right_iff, List.forall₂_same]
    exact fun desc hdesc => entryText_reads (hfound desc hdesc).1 (hfound desc hdesc).2
  · exact .cons (declareText_reads hname _) .nil

theorem isEnd_messageText (desc : Text) : isEnd (messageText desc) = false := by
  have hentry : isEnd (entryText .none desc) = false := isEnd_entryText
  rw [entryText_messageText] at hentry
  simpa [Ending.none] using hentry

/-- Without comments the declaration is read as with them. -/
theorem reading_declared (hname : IsName name) (found decl after : List Text) :
    reading (declared name found decl ++ after) = ⟨[], some (name, declared name found decl), after⟩ := by
  have hentries : ∀ line ∈ found.map messageText, isEnd line = false := by
    intro line hline
    obtain ⟨desc, -, rfl⟩ := List.mem_map.mp hline
    exact isEnd_messageText desc
  have hend : isEnd (countText "TURF_TRACE_DEFINE_END".toList name found.length) := isEnd_of_prefix _
  rw [declared]
  split
  · have hbegin : beginLine (countText "TURF_TRACE_DEFINE_BEGIN".toList name found.length ++ [' ', ' ']) =
        some name := by
      simp only [countText, List.append_assoc, List.cons_append]
      exact beginLine_begin hname _
    have hnone : declareLine (countText "TURF_TRACE_DEFINE_BEGIN".toList name found.length ++ [' ', ' ']) =
        none := by
      rw [countText, List.append_assoc]
      exact declareLine_begin _
    rw [List.cons_append, List.append_assoc, reading_block hnone hbegin hentries hend]
  · have hdeclare : declareLine (countText "TURF_TRACE_DECLARE".toList name found.length) = some name :=
      category_of_eq (show "TURF_TRACE_DECLARE".toList = 'T' :: "URF_TRACE_DECLARE".toList by decide)
        rfl hname _ rfl
    exact reading_declare hdeclare after

end Turf.Tidy
