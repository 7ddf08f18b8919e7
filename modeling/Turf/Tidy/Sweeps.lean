import Turf.Tidy.Headers
import Turf.Tidy.Numbering

/-!
# Sweeps over all files

What both passes write, in terms of the readings of the prepared files.
-/
namespace Turf.Tidy

open Turf.Lib.Pattern
open Turf.Lib.History

/-! ## Files and their lines -/

def SourceFile.lines (file : SourceFile) : List Text := readlines file.text

variable {line name : Text} {lines decl : List Text} {file : SourceFile} {files front out : List SourceFile}
  {expected : LineEnding} {orig log : Log}

/-- The lines of the second pass, if the guard of the file lets it go on. -/
def SourceFile.prepared (expected : LineEnding) (file : SourceFile) : List Text :=
  (prepare expected file).getD []

/-- No header stops the tool. -/
def Prepared (expected : LineEnding) (files : List SourceFile) : Prop :=
  ∀ file ∈ files, prepare expected file ≠ none

theorem prepare_eq (h : prepare expected file ≠ none) :
    prepare expected file = some (file.prepared expected) := by
  obtain ⟨lines, hlines⟩ := Option.ne_none_iff_exists'.mp h
  rw [SourceFile.prepared, hlines]
  rfl

theorem same_prepared (h : prepare expected file ≠ none) :
    (reading file.lines).Same (reading (file.prepared expected)) := same_prepare (prepare_eq h)

/-- Files for both passes, with nothing but statements that is taken for one. -/
structure Quiet (expected : LineEnding) (files : List SourceFile) : Prop where
  closed : ∀ file ∈ files, (reading file.lines).Closed
  prepared : Prepared expected files
  raw : ∀ file ∈ files, Silent (reading file.lines).after
  silent : ∀ file ∈ files, Silent (reading (file.prepared expected)).after

theorem Quiet.left {back : List SourceFile} (h : Quiet expected (front ++ back)) : Quiet expected front :=
  ⟨fun file hfile => h.closed file (List.mem_append_left _ hfile),
    fun file hfile => h.prepared file (List.mem_append_left _ hfile),
    fun file hfile => h.raw file (List.mem_append_left _ hfile),
    fun file hfile => h.silent file (List.mem_append_left _ hfile)⟩

theorem Quiet.tail (h : Quiet expected (file :: files)) : Quiet expected files :=
  ⟨fun file hfile => h.closed file (List.mem_cons_of_mem _ hfile),
    fun file hfile => h.prepared file (List.mem_cons_of_mem _ hfile),
    fun file hfile => h.raw file (List.mem_cons_of_mem _ hfile),
    fun file hfile => h.silent file (List.mem_cons_of_mem _ hfile)⟩

/-! ## Line feeds -/

theorem feedLine_prepared (h : prepare expected file ≠ none) :
    ∀ line ∈ file.prepared expected, FeedLine line := by
  have hendings : ∀ line ∈ fixLineEndings expected file.text, IsLine expected line :=
    fun line => isLine_of_mem_fixLineEndings
  have hfix : ∀ {lines : List Text}, (∀ line ∈ lines, IsLine expected line) →
      ∀ line ∈ lines.map fixError, FeedLine line := by
    intro lines hlines line hline
    obtain ⟨line', hline', rfl⟩ := List.mem_map.mp hline
    exact (hlines line' hline').feedLine.fixError
  have hprepare := prepare_eq h
  rw [prepare] at hprepare
  split at hprepare
  · rw [← Option.some.inj hprepare]
    exact hfix hendings
  · obtain ⟨fixed, hfixed, heq⟩ := Option.map_eq_some_iff.mp hprepare
    rw [← heq]
    exact hfix (isLine_fixGuards hendings hfixed)

theorem oneLine_lines (file : SourceFile) : ∀ line ∈ file.lines, OneLine line :=
  fun _ => oneLine_of_mem_readlines

theorem oneLine_behind {files : List (List Text)} (h : ∀ lines ∈ files, ∀ line ∈ lines, OneLine line)
    (name : Text) : ∀ line ∈ behind name files, OneLine line := by
  intro line hline
  obtain ⟨lines, hlines, hmem⟩ := List.mem_flatMap.mp hline
  split at hmem
  · exact h lines hlines line (mem_lines_of_reading.2.2 line hmem)
  · cases hmem

theorem messages_spec {desc : Text} (h : desc ∈ messages lines) : (∀ c ∈ desc, isDot c) ∧ '"' ∉ desc := by
  obtain ⟨line, -, hfound⟩ := List.mem_filterMap.mp h
  obtain ⟨⟨before, m⟩, hsearch, rfl⟩ := Option.map_eq_some_iff.mp hfound
  obtain ⟨ws, args, msg, tail, hline, rfl⟩ := found_of_search hsearch
  exact ⟨hline.dots, hline.msg⟩

theorem isLine_of_close {expected : Ending} {front close : Text} (hfeed : '\n' ∉ front) (hclose : '\n' ∉ close)
    (hlast : ∀ c, close.getLast? = some c → isReturn c = false) (hne : close ≠ []) :
    IsLine expected (front ++ (close ++ expected.text)) := by
  refine ⟨front ++ close, ⟨?_, ?_⟩, (List.append_assoc ..).symm⟩
  · rw [List.mem_append, not_or]
    exact ⟨hfeed, hclose⟩
  · intro c hc
    rw [List.getLast?_append_of_ne_nil _ hne] at hc
    exact hlast c hc

theorem feed_not_mem_name (hname : IsName name) : '\n' ∉ name :=
  fun hmem => absurd (hname.word _ hmem) (by decide)

theorem feed_not_mem_decimal (n : Nat) : '\n' ∉ decimal n :=
  fun hmem => absurd (Nat.isDigit_of_mem_toDigits (by omega) (by omega) hmem) (by decide)

/-- A line that starts with the name and the count of a category. -/
theorem isLine_of_written {expected : Ending} {word close : Text} (hword : '\n' ∉ word) (hname : IsName name)
    (hclose : '\n' ∉ close) (hlast : ∀ c, close.getLast? = some c → isReturn c = false) (hne : close ≠ [])
    (n : Nat) : IsLine expected
      (word ++ '(' :: (name ++ ',' :: (' ' :: (decimal n ++ (close ++ expected.text))))) := by
  have hfeed : '\n' ∉ word ++ '(' :: (name ++ ',' :: (' ' :: decimal n)) := by
    simp only [List.mem_append, List.mem_cons, not_or]
    exact ⟨hword, by decide, feed_not_mem_name hname, by decide, by decide, feed_not_mem_decimal n⟩
  have hline : IsLine expected (_ ++ (close ++ expected.text)) := isLine_of_close hfeed hclose hlast hne
  simpa only [List.append_assoc, List.cons_append] using hline

theorem last_of_concat {close : Text} (front : Text) (d : Char) (heq : close = front ++ [d])
    (hd : isReturn d = false) : ∀ c, close.getLast? = some c → isReturn c = false := by
  intro c hc
  rw [heq, List.getLast?_concat] at hc
  cases hc
  exact hd

theorem isLine_redeclared {expected : Ending} (hname : IsName name) {found : List Text}
    (hfound : ∀ desc ∈ found, ∀ c ∈ desc, isDot c) (decl : List Text) :
    ∀ line ∈ redeclared expected name found decl, IsLine expected line := by
  have hparen : ∀ c, ")".toList.getLast? = some c → isReturn c = false :=
    last_of_concat [] ')' (by decide) rfl
  rw [redeclared]
  split
  · intro line hline
    rw [List.mem_append, List.mem_cons, List.mem_map, List.mem_singleton] at hline
    rcases hline with (rfl | ⟨desc, hdesc, rfl⟩) | rfl
    · rw [beginText_eq]
      exact isLine_of_written (by decide) hname (by decide)
        (last_of_concat ") // autogenerated by TidySource.p".toList 'y' (by decide) rfl) (by decide) _
    · have hfeed : '\n' ∉ "TURF_TRACE_DEFINE(\"".toList ++ desc := by
        rw [List.mem_append, not_or]
        exact ⟨by decide, fun hmem => absurd (hfound desc hdesc _ hmem) (by decide)⟩
      rw [entryText_eq, ← List.append_assoc]
      exact isLine_of_close hfeed (by decide) (last_of_concat ['"'] ')' (by decide) rfl) (by decide)
    · rw [endText_eq]
      exact isLine_of_written (by decide) hname (by decide) hparen (by decide) _
  · intro line hline
    rw [List.mem_singleton.mp hline, declareText_eq]
    exact isLine_of_written (by decide) hname (by decide) hparen (by decide) _

theorem messages_logOf_spec (files : List (List Text)) (name : Text) :
    ∀ desc ∈ (logOf files).messages name, (∀ c ∈ desc, isDot c) ∧ '"' ∉ desc := by
  rw [messages_behind]
  exact fun _ => messages_spec

/-- The written lines end as the lines that they come from. -/
theorem forall_renewed {P : Text → Prop} {raw : List (List Text)}
    (hdecl : ∀ line, IsLine expected line → P line)
    (hwritten : ∀ name line line', IsName name → Written name line line' → P line → P line')
    (hbefore : ∀ line ∈ (reading lines).before, P line) (hafter : ∀ line ∈ (reading lines).after, P line) :
    ∀ line ∈ renewed expected (logOf raw) log lines, P line := by
  cases h : (reading lines).declaration with
  | none =>
    rw [renewed_none h]
    obtain ⟨-, ⟨-, heq, -⟩ | ⟨name, first, more, hsome, -⟩⟩ := reading_spec lines
    · rw [heq]
      exact hbefore
    · rw [hsome] at h
      cases h
  | some d =>
    obtain ⟨name, decl⟩ := d
    have hname := isName_of_reading h
    rw [renewed_some h]
    intro line hline
    rw [List.mem_append, List.mem_append] at hline
    rcases hline with hline | hline | hline
    · exact hbefore line hline
    · exact hdecl line (isLine_redeclared hname (fun desc hdesc => (messages_logOf_spec raw name desc hdesc).1) decl line hline)
    · obtain ⟨line', hline', hw⟩ := exists_of_mem_assign hline
      exact hwritten name line' line hname hw (hafter line' hline')

theorem feedLine_renewed (raw : List (List Text)) (log : Log) (h : ∀ line ∈ lines, FeedLine line) :
    ∀ line ∈ renewed expected (logOf raw) log lines, FeedLine line :=
  forall_renewed (fun _ => IsLine.feedLine) (fun _ _ _ hname hw => hw.feedLine hname)
    (fun line hline => h line (mem_lines_of_reading.1 line hline))
    fun line hline => h line (mem_lines_of_reading.2.2 line hline)

/-! ## Both passes -/

theorem findIdx?_congr {p q : Text → Bool} (h : ∀ line ∈ lines, p line = q line) :
    lines.findIdx? p = lines.findIdx? q := by
  induction lines with
  | nil => rfl
  | cons line lines ih =>
    obtain ⟨hline, hlines⟩ := List.forall_mem_cons.mp h
    rw [List.findIdx?_cons, List.findIdx?_cons, hline, ih hlines]

theorem preamble_fixLineEndings (file : Text) :
    preamble (fixLineEndings expected file) = preamble (readlines file) := by
  have hends : ∀ line ∈ readlines file, endsPreamble (fixLineEnding expected line) = endsPreamble line := by
    intro line hline
    obtain ⟨content, r, hcontent, hr, rfl⟩ := content_of_mem_readlines hline
    have hclosed : ∀ c ∈ preambleEnd, isReturn c = false := not_return (by decide)
    rw [fixLineEnding_append hcontent hr, endsPreamble, endsPreamble, decide_eq_decide,
      infix_append_iff (by decide) hclosed ending_return, infix_append_iff (by decide) hclosed hr]
  have hfind : ((fixLineEndings expected file).take 25).findIdx? endsPreamble =
      ((readlines file).take 25).findIdx? endsPreamble := by
    rw [fixLineEndings, ← List.map_take, List.findIdx?_map]
    exact findIdx?_congr fun line hline => hends line (List.mem_of_mem_take hline)
  rw [preamble, preamble, hfind]

theorem findGuards_eq_none : findGuards lines = none ↔ lines = [] := by
  rw [findGuards]
  split
  · next h => exact iff_of_true rfl h
  · next h => exact iff_of_false (by simp) h

/-- A header that the second pass can prepare does not stop the first. -/
theorem firstPass_eq (h : Quiet expected files) (hfile : file ∈ files) (front : List (List Text)) :
    firstPass (logOf front) file = some (logOf (front ++ [file.lines])) := by
  have hgo : ¬ (file.guard.isSome ∧ findGuards (file.lines.drop (preamble file.lines)) = none) := by
    intro hstop
    obtain ⟨guard, hguard⟩ := Option.isSome_iff_exists.mp hstop.1
    have hempty := findGuards_eq_none.mp hstop.2
    have hfixed : (fixLineEndings expected file.text).drop
        (preamble (fixLineEndings expected file.text)) = [] := by
      rw [preamble_fixLineEndings, List.drop_eq_nil_iff, fixLineEndings, List.length_map]
      exact List.drop_eq_nil_iff.mp hempty
    apply h.prepared file hfile
    rw [prepare, hguard]
    show Option.map _ (fixGuards expected guard.text _) = none
    rw [fixGuards, findGuards_eq_none.mpr hfixed]
    rfl
  show (if file.guard.isSome ∧ findGuards (file.lines.drop (preamble file.lines)) = none then none
    else (tidyTraces .first 0 none (logOf front) file.lines).map fun r => r.2) = _
  rw [if_neg hgo, tidyTraces_first (h.closed file hfile) (h.raw file hfile)]

theorem foldlM_firstPass (h : Quiet expected files) (front : List (List Text)) :
    files.foldlM firstPass (logOf front) = some (logOf (front ++ files.map SourceFile.lines)) := by
  induction files generalizing front with
  | nil => rw [List.map_nil, List.append_nil]; rfl
  | cons file files ih =>
    rw [List.foldlM_cons, firstPass_eq h (List.mem_cons_self ..)]
    show files.foldlM firstPass (logOf (front ++ [file.lines])) = _
    rw [ih h.tail, List.map_cons, List.append_assoc, List.singleton_append]

/-- What the second pass makes of a file behind others. -/
def sweptFile (expected : LineEnding) (orig : Log) (front : List SourceFile) (file : SourceFile) :
    SourceFile :=
  { file with text := (renewed expected orig (logOf (front.map (SourceFile.prepared expected)))
      (file.prepared expected)).flatten }

theorem scanSecond_eq (h : Quiet expected files)
    (horig : ∀ file ∈ files, ∀ name, (reading file.lines).name = some name → orig name ≠ none)
    (front : List SourceFile) :
    scanSecond expected orig (logOf (front.map (SourceFile.prepared expected))) files =
      some (mapFrom (sweptFile expected orig) front files) := by
  induction files generalizing front with
  | nil => rfl
  | cons file files ih =>
    obtain ⟨hname, hnames⟩ := List.forall_mem_cons.mp horig
    have hmem : file ∈ file :: files := List.mem_cons_self ..
    have hprepare := h.prepared file hmem
    have hsame := same_prepared hprepare
    rw [scanSecond, secondPass, prepare_eq hprepare, Option.bind_some,
      tidyTraces_second (hsame.closed.mpr (h.closed file hmem)) (h.silent file hmem)
        fun name hn => hname name (hsame.name ▸ hn), Option.map_some, Option.bind_some]
    have hnext : (front ++ [file]).map (SourceFile.prepared expected) =
        front.map (SourceFile.prepared expected) ++ [file.prepared expected] := by
      rw [List.map_append, List.map_singleton]
    rw [← hnext, ih h.tail hnames (front ++ [file])]
    rfl

/-- What the second pass makes of files where the first one has read the lines `raw`. -/
def sweptWith (expected : LineEnding) (raw : List (List Text)) (files : List SourceFile) :
    List SourceFile := mapFrom (sweptFile expected (logOf raw)) [] files

/-- What both passes make of the files. -/
def swept (expected : LineEnding) (files : List SourceFile) : List SourceFile :=
  sweptWith expected (files.map SourceFile.lines) files

theorem sweep_eq (h : Quiet expected files) :
    sweep (some ↑expected) files = some (swept expected files) := by
  have hfirst := foldlM_firstPass h []
  rw [List.nil_append] at hfirst
  have horig : ∀ file ∈ files, ∀ name, (reading file.lines).name = some name →
      logOf (files.map SourceFile.lines) name ≠ none := by
    intro file hfile name hname
    rw [logOf, if_pos ⟨file.lines, List.mem_map_of_mem hfile, hname⟩]
    exact Option.some_ne_none _
  rw [sweep, ← logOf_nil, hfirst, Option.bind_some]
  exact scanSecond_eq h horig []

/-- The lines of the written files. -/
theorem lines_sweptWith (h : Prepared expected files) (raw : List (List Text)) :
    (sweptWith expected raw files).map SourceFile.lines =
      renewedFiles expected (logOf raw) [] (files.map (SourceFile.prepared expected)) := by
  have hmap := mapFrom_map (fun front lines => renewed expected (logOf raw) (logOf front) lines)
    (SourceFile.prepared expected) [] files
  rw [List.map_nil] at hmap
  rw [sweptWith, map_mapFrom, renewedFiles, hmap]
  apply mapFrom_congr.mpr
  intro before file after hsplit
  have hfile : prepare expected file ≠ none := h file (by rw [hsplit]; simp)
  exact readlines_of_feedLines (feedLine_renewed _ _ (feedLine_prepared hfile))

end Turf.Tidy
