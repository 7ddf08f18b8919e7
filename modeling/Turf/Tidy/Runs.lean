import Turf.Tidy.Elections
import Turf.Tidy.WrittenHeaders

/-!
# Runs in step

Which files both passes leave with their ids in step, for good.
-/
namespace Turf.Tidy

open Turf.Lib.Pattern
open Turf.Lib.Lexing
open Turf.Lib.History

variable {line name desc : Text} {lines decl : List Text} {file file' : SourceFile}
  {files front back : List SourceFile} {expected : LineEnding} {option : EndingOption}

/-- What a compiler makes of the lines of a file. -/
def SourceFile.code (file : SourceFile) : List Text := view file.lines

/-- With whatever ending can be expected, both passes write files whose ids, counts and entries are in
step, and the next run changes nothing. -/
def InStep (option : EndingOption) (files : List SourceFile) : Prop :=
  ∀ expected, Expects files option expected → ∃ out, sweep expected files = some out ∧
    (∀ name, Numbered (out.map SourceFile.code) name) ∧
    ∀ again, Expects out option again → sweep again out = some out

/-! ## Files in order -/

/-- The messages of the category of a file. -/
def messagesOf (files : List SourceFile) (file : SourceFile) : List Text :=
  match (reading file.code).name with
  | some name => (statements name (files.map SourceFile.code)).map Statement.literal
  | none => []

/-- No comment hides what the tool reads, the messages of `#error` lines are in quotes or can get them, and
the guards of headers can be fixed. -/
structure Readable (expected : LineEnding) (files : List SourceFile) : Prop where
  legible : ∀ file ∈ files, Legible file.lines
  quotable : ∀ file ∈ files, ∀ x ∈ staged .code (fixLineEndings expected file.text), Quotable expected x
  headed : ∀ file ∈ files, ∀ guard, file.guard = some guard →
    Headed guard.text (messagesOf files file) (fixLineEndings expected file.text)

/-- The ending that is expected has a line feed, or no file has a line. -/
def Ready (option : EndingOption) (files : List SourceFile) : Prop :=
  ∀ expected, Expects files option expected →
    (∃ ending : LineEnding, expected = some ↑ending ∧ Readable ending files) ∨
      expected = none ∧ ∀ file ∈ files, file.guard = none ∧ file.text = []

/-- A category with a definition block has no quote in a message. -/
def Unescaped (files : List SourceFile) : Prop :=
  ∀ file ∈ files, ∀ name, (reading file.code).name = some name → (reading file.code).isBlock →
    ∀ s ∈ statements name (files.map SourceFile.code), '"' ∉ s.literal

structure Orderly (option : EndingOption) (files : List SourceFile) : Prop where
  ready : Ready option files
  unescaped : Unescaped files

/-! ## Prepared files -/

theorem Readable.fixed (h : Readable expected files) (hfile : file ∈ files) : ∃ fixed,
    reguard expected file.guard (fixLineEndings expected file.text) = some fixed ∧
      Respaced .code (fixLineEndings expected file.text) fixed := by
  cases hguard : file.guard with
  | none => exact ⟨_, rfl, .refl _ _⟩
  | some guard =>
    obtain ⟨fixed, hfixed, hlines, -⟩ := (h.headed file hfile guard hguard).fixed expected
    exact ⟨fixed, hfixed, hlines⟩

theorem silent_of_proper (hlines : ∀ x ∈ staged .code lines, Proper x) : Silent lines := by
  intro line hline hfound
  obtain ⟨m, hx⟩ := exists_staged_of_mem .code hline
  exact (hlines _ hx (.inl hfound)).2.raw

/-- The messages of a category are the same with and without comments. -/
theorem Readable.literals (h : Readable expected files) (name : Text) :
    (statements name (files.map SourceFile.code)).map Statement.literal =
      (statements name (files.map SourceFile.lines)).map Statement.literal := by
  rw [statements, statements, List.flatMap_map, List.flatMap_map, List.map_flatMap, List.map_flatMap]
  apply List.flatMap_congr
  intro file hfile
  have hlegible := h.legible file hfile
  rw [SourceFile.code, hlegible.name_eq]
  split
  · exact hlegible.literals_eq (oneLine_lines file)
  · rfl

section Files

variable (hdeclared : ∀ file ∈ files, (reading file.code).Declared) (h : Readable expected files)

include hdeclared h

theorem Readable.closed (hfile : file ∈ files) : (reading file.lines).Closed :=
  (h.legible file hfile).closed (hdeclared file hfile).closed

theorem Readable.prepared {fixed : List Text} (hfile : file ∈ files)
    (hfixed : reguard expected file.guard (fixLineEndings expected file.text) = some fixed) :
    prepare expected file = some (file.prepared expected) ∧ file.prepared expected = fixed.map fixError ∧
      Parted (file.prepared expected) ∧ ∀ line ∈ file.prepared expected, IsLine expected line := by
  obtain ⟨fixed', hfixed', hlines⟩ := h.fixed hfile
  obtain rfl : fixed' = fixed := Option.some.inj (hfixed'.symm.trans hfixed)
  obtain ⟨hprepare, hparted, hisLine⟩ := (h.legible file hfile).parted.prepared (h.closed hdeclared hfile)
    (h.quotable file hfile) hfixed hlines
  have heq : file.prepared expected = fixed'.map fixError := by
    rw [SourceFile.prepared, hprepare]
    rfl
  rw [heq]
  exact ⟨hprepare, rfl, hparted, hisLine⟩

theorem Readable.parted (hfile : file ∈ files) :
    Parted (file.prepared expected) ∧ ∀ line ∈ file.prepared expected, IsLine expected line := by
  obtain ⟨fixed, hfixed, -⟩ := h.fixed hfile
  exact (h.prepared hdeclared hfile hfixed).2.2

theorem Readable.quiet : Quiet expected files := by
  refine ⟨fun file hfile => h.closed hdeclared hfile, fun file hfile => ?_,
    fun file hfile => silent_of_proper (h.legible file hfile).statements,
    fun file hfile => silent_of_proper (h.parted hdeclared hfile).1.statements⟩
  obtain ⟨fixed, hfixed, -⟩ := h.fixed hfile
  rw [(h.prepared hdeclared hfile hfixed).1]
  exact Option.some_ne_none _

/-! ## Written files -/

/-- A written file reads the same with and without comments, and its declaration is the one that was written. -/
theorem Readable.written (hfile' : file' ∈ swept expected files) :
    (reading file'.code).name = (reading file'.lines).name ∧
      (reading file'.code).statements = (reading file'.lines).statements ∧
      ∀ name decl, (reading file'.code).declaration = some (name, decl) → ∃ file ∈ files, ∃ decl',
        (reading (file.prepared expected)).declaration = some (name, decl') ∧
          decl = declared name ((logOf (files.map SourceFile.lines)).messages name) decl' := by
  have hquiet := h.quiet hdeclared
  obtain ⟨front, file, back, hsplit, rfl⟩ := mem_swept.mp hfile'
  have hfile : file ∈ files := by rw [hsplit]; simp
  have hprepare := hquiet.prepared file hfile
  have hparted := (h.parted hdeclared hfile).1
  rw [SourceFile.code, lines_sweptFile hprepare]
  cases hdecl : (reading (file.prepared expected)).declaration with
  | none =>
    rw [renewed_none hdecl, hparted.view_none hdecl]
    refine ⟨by rw [Reading.name, Reading.name, hdecl], ?_, fun name decl hsome => by cases hsome⟩
    rw [Reading.statements, Reading.statements, (reading_of_none hdecl).2]
  | some d =>
    obtain ⟨name, decl⟩ := d
    obtain ⟨before, after, hview, hafter⟩ := hparted.view_renewed hdecl (messages_logOf_spec _ name)
    have hone : ∀ line ∈ (reading (file.prepared expected)).after, OneLine line := fun line hline =>
      (feedLine_prepared hprepare line (mem_lines_of_reading.2.2 line hline)).oneLine
    rw [hview, reading_renewed hdecl]
    refine ⟨rfl, hafter hone, fun name' decl' hsome => ?_⟩
    cases hsome
    exact ⟨file, hfile, decl, hdecl, rfl⟩

theorem Readable.statements_code (name : Text) : statements name ((swept expected files).map SourceFile.code) =
    statements name ((swept expected files).map SourceFile.lines) := by
  rw [statements, statements, List.flatMap_map, List.flatMap_map]
  apply List.flatMap_congr
  intro file' hfile'
  obtain ⟨hname, hstatements, -⟩ := h.written hdeclared hfile'
  rw [hname, hstatements]

end Files

/-! ## Declarations in step -/

theorem trimmed_concat {c : Char} (text : Text) (hc : isSpace c = false) : trimmed (text ++ [c]) = text ++ [c] :=
  List.rdropWhile_concat_neg _ _ _ (by simp [hc])

theorem trimmed_countText (word name : Text) (n : Nat) : trimmed (countText word name n) = countText word name n := by
  rw [countText_concat]
  exact trimmed_concat _ rfl

theorem exists_messageText (desc : Text) : ∃ front : Text, messageText desc = front ++ (desc ++ ['"', ')']) :=
  ⟨_, rfl⟩

theorem trimmed_messageText (desc : Text) : trimmed (messageText desc) = messageText desc := by
  obtain ⟨front, hfront⟩ := exists_messageText desc
  have hsplit : front ++ (desc ++ ['"', ')']) = (front ++ (desc ++ ['"'])) ++ [')'] := by simp
  rw [hfront, hsplit]
  exact trimmed_concat _ rfl

theorem messageText_injective : Function.Injective messageText := by
  intro desc desc' heq
  exact List.append_cancel_right (List.append_cancel_left heq)

theorem trimmed_declared (name : Text) (found decl : List Text) : (declared name found decl).map trimmed =
    if Reading.IsBlock decl then countText "TURF_TRACE_DEFINE_BEGIN".toList name found.length ::
      found.map messageText ++ [countText "TURF_TRACE_DEFINE_END".toList name found.length]
    else [countText "TURF_TRACE_DECLARE".toList name found.length] := by
  rw [declared]
  generalize "TURF_TRACE_DEFINE_BEGIN".toList = begins
  generalize "TURF_TRACE_DEFINE_END".toList = ends
  split
  · have hbegin : trimmed (countText begins name found.length ++ [' ', ' ']) = countText begins name found.length := by
      have hsplit : countText begins name found.length ++ [' ', ' '] =
          (countText begins name found.length ++ [' ']) ++ [' '] := by simp
      rw [trimmed, hsplit, List.rdropWhile_concat_pos _ _ _ rfl, List.rdropWhile_concat_pos _ _ _ rfl]
      exact trimmed_countText begins name found.length
    have hmessages : (found.map messageText).map trimmed = found.map messageText := by
      rw [List.map_map]
      exact List.map_congr_left fun desc _ => trimmed_messageText desc
    rw [List.map_cons, List.map_append, hbegin, hmessages, List.map_singleton, trimmed_countText]
    rfl
  · rw [List.map_singleton, trimmed_countText]

section Files

variable (hdeclared : ∀ file ∈ files, (reading file.code).Declared) (h : Readable expected files)

include hdeclared h

/-- The ids and the messages of the written statements. -/
theorem Readable.statements_written (name : Text) :
    (statements name ((swept expected files).map SourceFile.code)).map Statement.args =
        (List.range (statements name ((swept expected files).map SourceFile.code)).length).map (argsText name) ∧
      (statements name ((swept expected files).map SourceFile.code)).map Statement.literal =
        (statements name (files.map SourceFile.code)).map Statement.literal ∧
      (logOf (files.map SourceFile.lines)).messages name =
        (statements name ((swept expected files).map SourceFile.code)).map fun s => taken s.literal := by
  have hquiet := h.quiet hdeclared
  obtain ⟨hargs, hliterals⟩ := statements_sweptWith hquiet (files.map SourceFile.lines) name
  rw [h.statements_code hdeclared name, h.literals name]
  have hlength := congrArg List.length hargs
  rw [List.length_map, List.length_map, List.length_range] at hlength
  refine ⟨?_, hliterals, ?_⟩
  · show (statements name ((sweptWith expected (files.map SourceFile.lines) files).map SourceFile.lines)).map _ = _
    rw [hargs]
    show _ = (List.range (statements name ((sweptWith expected (files.map SourceFile.lines) files).map
      SourceFile.lines)).length).map _
    rw [hlength]
  · have hcomp : ∀ xs : List Statement, xs.map (fun s => taken s.literal) = (xs.map Statement.literal).map taken :=
      fun xs => (List.map_map ..).symm
    rw [messages_files files hquiet.raw, hcomp, hcomp, ← hliterals]
    rfl

/-- Where no message of a category with a block has a quote, all declarations are in step. -/
theorem Readable.numbered (hunescaped : Unescaped files) (name : Text) :
    Numbered ((swept expected files).map SourceFile.code) name := by
  obtain ⟨hargs, hliterals, hmessages⟩ := h.statements_written hdeclared name
  refine ⟨_, .refl _, hargs, fun lines hlines decl hdecl => ?_⟩
  obtain ⟨file', hfile', rfl⟩ := List.mem_map.mp hlines
  obtain ⟨-, -, hwritten⟩ := h.written hdeclared hfile'
  obtain ⟨file, hfile, decl', hdecl', rfl⟩ := hwritten name decl hdecl
  generalize statements name ((swept expected files).map SourceFile.code) = found at hargs hliterals hmessages ⊢
  have hlength : ((List.range found.length).zip found).length = found.length := by
    rw [List.length_zip, List.length_range, Nat.min_self]
  have hcount : ((logOf (files.map SourceFile.lines)).messages name).length = found.length := by
    rw [hmessages, List.length_map]
  rw [Carries, trimmed_declared, hlength, hcount]
  split
  · next hblock =>
    refine .inr ⟨_, rfl, by rw [List.length_map, hcount], fun id s hmem => ?_⟩
    have hid := get_of_mem_zip_range hmem
    have hsame := same_prepared ((h.quiet hdeclared).prepared file hfile)
    have hlegible := h.legible file hfile
    have hquote : '"' ∉ s.literal := by
      have hliteral : s.literal ∈ (statements name (files.map SourceFile.code)).map Statement.literal := by
        rw [← hliterals]
        exact List.mem_map_of_mem (List.mem_of_getElem? hid)
      obtain ⟨s', hs', heq⟩ := List.mem_map.mp hliteral
      rw [← heq]
      refine hunescaped file hfile name ?_ ?_ s' hs'
      · rw [SourceFile.code, hlegible.name_eq, ← hsame.name, Reading.name, hdecl']
        rfl
      · rw [SourceFile.code, hlegible.isBlock_eq, ← hsame.isBlock]
        exact (isBlock_iff hdecl').mpr hblock
    rw [hmessages, List.getElem?_map, List.getElem?_map, hid, Option.map_some, Option.map_some, taken_eq_self.mpr hquote]
  · exact .inl rfl

/-- A file among those that were written. -/
theorem Readable.exists_written (hfile : file ∈ files) : ∃ file' ∈ swept expected files, file'.guard = file.guard ∧
    ∀ name decl, (reading (file.prepared expected)).declaration = some (name, decl) →
      (reading file'.code).declaration = some (name, declared name ((logOf (files.map SourceFile.lines)).messages name) decl) := by
  obtain ⟨front, back, hsplit⟩ := List.append_of_mem hfile
  refine ⟨_, mem_swept_of_split expected hsplit, rfl, fun name decl hdecl => ?_⟩
  have hparted := (h.parted hdeclared hfile).1
  obtain ⟨before, after, hview, -⟩ := hparted.view_renewed hdecl (messages_logOf_spec _ name)
  rw [SourceFile.code, lines_sweptFile ((h.quiet hdeclared).prepared file hfile), hview]

/-- An entry is a whole message only if that has no quote. -/
theorem Readable.unescaped (hnumbered : ∀ name, Numbered ((swept expected files).map SourceFile.code) name) :
    Unescaped files := by
  intro file hfile name hname hblock s hs
  have hlegible := h.legible file hfile
  have hsame := same_prepared ((h.quiet hdeclared).prepared file hfile)
  obtain ⟨⟨name', decl⟩, hdecl, rfl⟩ : ∃ d, (reading (file.prepared expected)).declaration = some d ∧ d.1 = name := by
    rw [SourceFile.code, hlegible.name_eq, ← hsame.name, Reading.name] at hname
    exact Option.map_eq_some_iff.mp hname
  rw [SourceFile.code, hlegible.isBlock_eq, ← hsame.isBlock, isBlock_iff hdecl] at hblock
  obtain ⟨file', hfile', -, hdeclaration⟩ := h.exists_written hdeclared hfile
  obtain ⟨hargs, hliterals, hmessages⟩ := h.statements_written hdeclared name'
  obtain ⟨ids, hperm, hids, hcarries⟩ := hnumbered name'
  have hcarry := hcarries _ (List.mem_map_of_mem hfile') _ (hdeclaration name' decl hdecl)
  generalize statements name' ((swept expected files).map SourceFile.code) = found at *
  obtain rfl : List.range found.length = ids := List.map_injective_iff.mpr (argsText_injective name') (hargs.symm.trans hids)
  obtain ⟨k, hk, hget⟩ := List.getElem_of_mem (List.mem_map_of_mem (f := Statement.literal) hs)
  have hliteral : (found.map Statement.literal)[k]? = some s.literal := by
    rw [hliterals]
    exact List.getElem?_eq_some_iff.mpr ⟨hk, hget⟩
  rw [List.getElem?_map] at hliteral
  obtain ⟨t, ht, hts⟩ := Option.map_eq_some_iff.mp hliteral
  rw [Carries, trimmed_declared, if_pos hblock] at hcarry
  rcases hcarry with hone | ⟨entries, hentries, -, hentry⟩
  · have hlength := congrArg List.length hone
    simp at hlength
  · have hlast := List.append_inj' hentries rfl
    rw [← (List.cons.inj hlast.1).2] at hentry
    have hk' : k < found.length := (List.getElem?_eq_some_iff.mp ht).1
    have hmessage := hentry k t (mem_zip_range hk' ht)
    rw [hmessages, List.getElem?_map, List.getElem?_map, ht, Option.map_some, Option.map_some, Option.some.injEq] at hmessage
    rw [← hts]
    exact taken_eq_self.mp (messageText_injective hmessage)

/-! ## The next run -/

theorem Readable.isLine (hfile' : file' ∈ swept expected files) : ∀ line ∈ file'.lines, IsLine expected line := by
  obtain ⟨front, file, back, hsplit, rfl⟩ := mem_swept.mp hfile'
  have hfile : file ∈ files := by rw [hsplit]; simp
  have hisLine := (h.parted hdeclared hfile).2
  rw [lines_sweptFile ((h.quiet hdeclared).prepared file hfile)]
  exact forall_renewed (fun _ hline => hline) (fun _ _ _ hname hwritten => hwritten.isLine hname)
    (fun line hline => hisLine line (mem_lines_of_reading.1 line hline))
    fun line hline => hisLine line (mem_lines_of_reading.2.2 line hline)

/-- The messages end no preamble that the entries do not. -/
theorem Readable.endsLess (hfile : file ∈ files) (hname : (reading file.lines).name = some name) :
    List.Forall₂ EndsLess (messagesOf files file) ((logOf (files.map SourceFile.lines)).messages name) := by
  have hmessages := messages_files files (h.quiet hdeclared).raw name
  have hcomp : ∀ xs : List Statement, xs.map (fun s => taken s.literal) = (xs.map Statement.literal).map taken :=
    fun xs => (List.map_map ..).symm
  have hcode : messagesOf files file = (statements name (files.map SourceFile.code)).map Statement.literal := by
    rw [messagesOf, SourceFile.code, (h.legible file hfile).name_eq, hname]
  rw [hcode, hmessages, hcomp, ← h.literals name, List.forall₂_map_right_iff, List.forall₂_same]
  intro literal _ hends
  rw [endsPreamble_iff] at hends ⊢
  exact hends.trans (List.takeWhile_prefix _).isInfix

/-- Every written file is prepared as it is. -/
theorem Readable.again (hfile' : file' ∈ swept expected files) : prepare expected file' = some file'.lines := by
  have hquiet := h.quiet hdeclared
  have hisLine := h.isLine hdeclared hfile'
  obtain ⟨front, file, back, hsplit, rfl⟩ := mem_swept.mp hfile'
  have hfile : file ∈ files := by rw [hsplit]; simp
  have hprepare := hquiet.prepared file hfile
  have hlines := lines_sweptFile hprepare (files.map SourceFile.lines) front
  have hfixed : ∀ line ∈ (sweptFile expected (logOf (files.map SourceFile.lines)) front file).lines, fixError line = line := by
    rw [hlines]
    exact fixError_renewed hprepare (hquiet.silent file hfile) _ _
  rw [prepare_of_isLine hfixed hisLine, hlines]
  show reguard expected file.guard _ = _
  cases hguard : file.guard with
  | none => rfl
  | some guard =>
    obtain ⟨fixed, hreguard, -⟩ := h.fixed hfile
    obtain ⟨-, heq, -⟩ := h.prepared hdeclared hfile hreguard
    have hclosed := (same_prepared hprepare).closed.mpr (h.closed hdeclared hfile)
    have hsilent := hquiet.silent file hfile
    have hone : ∀ line ∈ file.prepared expected, OneLine line :=
      fun line hline => (feedLine_prepared hprepare line hline).oneLine
    rw [hguard] at hreguard
    rw [heq] at hclosed hsilent hone ⊢
    refine (h.headed file hfile guard hguard).again hreguard hclosed hsilent hone (fun line hline => ?_) fun d hd => ?_
    · obtain ⟨m, hx⟩ := exists_staged_of_mem .code hline
      exact (h.quotable file hfile _ hx).endsPreamble_eq (isLine_of_mem_fixLineEndings hline)
    · apply h.endsLess hdeclared hfile
      have hread := reading_map fun line (_ : line ∈ fixed) => alike_fixError line
      rw [← (same_prepared hprepare).name, heq, hread, Reading.name, hd]
      rfl

theorem Readable.ne_nil (hfile : file ∈ files) (hne : file.lines ≠ []) : ∃ file' ∈ swept expected files, file'.lines ≠ [] := by
  obtain ⟨front, back, hsplit⟩ := List.append_of_mem hfile
  refine ⟨_, mem_swept_of_split expected hsplit, ?_⟩
  have hprepare := (h.quiet hdeclared).prepared file hfile
  obtain ⟨fixed, hfixed, -⟩ := h.fixed hfile
  have hendings : fixLineEndings expected file.text ≠ [] := by
    rw [fixLineEndings, ne_eq, List.map_eq_nil_iff]
    exact hne
  have hne' : fixed ≠ [] := by
    cases hguard : file.guard with
    | none =>
      rw [hguard] at hfixed
      cases hfixed
      exact hendings
    | some guard =>
      obtain ⟨fixed', hfixed', -, -, -, haccepts, -⟩ := (h.headed file hfile guard hguard).fixed expected
      rw [hguard] at hfixed
      obtain rfl : fixed' = fixed := Option.some.inj (hfixed'.symm.trans hfixed)
      rintro rfl
      rw [List.drop_nil] at haccepts
      rcases haccepts with ⟨line, line', first, inner, last, heq, -⟩ | ⟨line, more, heq, -⟩
      · cases heq
      · cases heq
  have heq := (h.prepared hdeclared hfile hfixed).2.1
  rw [lines_sweptFile hprepare]
  cases hdecl : (reading (file.prepared expected)).declaration with
  | none =>
    rw [renewed_none hdecl, heq, ne_eq, List.map_eq_nil_iff]
    exact hne'
  | some d =>
    obtain ⟨name, decl⟩ := d
    rw [renewed_some hdecl, redeclared]
    split
    · simp
    · simp

/-- Both passes write the files, and the next run leaves them. -/
theorem Readable.sweeps (hexpects : Expects files option (some ↑expected)) :
    sweep (some ↑expected) files = some (swept expected files) ∧
      ∀ again, Expects (swept expected files) option again → sweep again (swept expected files) = some (swept expected files) := by
  have hquiet := h.quiet hdeclared
  refine ⟨sweep_eq hquiet, fun again hagain => ?_⟩
  have hsame := expects_again hexpects (fun file' hfile' => h.isLine hdeclared hfile')
    (fun ⟨file, hfile, hne⟩ => h.ne_nil hdeclared hfile hne) hagain
  rw [hsame]
  exact sweep_swept hquiet fun file' hfile' => h.again hdeclared hfile'

end Files

/-! ## Files without a line -/

theorem lines_empty (h : file.guard = none ∧ file.text = []) : file.lines = [] := by
  rw [SourceFile.lines, h.2]
  rfl

theorem code_empty (h : file.guard = none ∧ file.text = []) : file.code = [] := by
  rw [SourceFile.code, lines_empty h]
  rfl

theorem foldlM_empty (hempty : ∀ file ∈ files, file.guard = none ∧ file.text = []) (log : Log) :
    files.foldlM firstPass log = some log := by
  induction files with
  | nil => rfl
  | cons file files ih =>
    obtain ⟨hfile, hfiles⟩ := List.forall_mem_cons.mp hempty
    have hfirst : firstPass log file = some log := by
      rw [firstPass, hfile.1, hfile.2]
      rfl
    rw [List.foldlM_cons, hfirst, Option.bind_eq_bind, Option.bind_some, ih hfiles]

theorem sweep_empty (hempty : ∀ file ∈ files, file.guard = none ∧ file.text = []) : sweep none files = some files := by
  rw [sweep, foldlM_empty hempty, Option.bind_some]
  exact if_pos fun file hfile => lines_empty (hempty file hfile)

theorem statements_empty (hempty : ∀ file ∈ files, file.guard = none ∧ file.text = []) (name : Text) :
    statements name (files.map SourceFile.code) = [] := by
  rw [statements, List.flatMap_map, List.flatMap_eq_nil_iff]
  intro file hfile
  rw [code_empty (hempty file hfile)]
  rfl

theorem numbered_empty (hempty : ∀ file ∈ files, file.guard = none ∧ file.text = []) (name : Text) :
    Numbered (files.map SourceFile.code) name := by
  refine ⟨[], ?_, ?_, fun lines hlines decl hdecl => ?_⟩
  · rw [statements_empty hempty]
    exact .refl _
  · rw [statements_empty hempty]
    rfl
  · obtain ⟨file, hfile, rfl⟩ := List.mem_map.mp hlines
    rw [code_empty (hempty file hfile)] at hdecl
    cases hdecl

theorem expects_empty {again : Option Ending} (hempty : ∀ file ∈ files, file.guard = none ∧ file.text = [])
    (h : Expects files option none) (hagain : Expects files option again) : again = none := by
  cases h
  cases hagain with
  | @largest ending hmem _ =>
    obtain ⟨file, hfile, hin⟩ := hmem
    rw [lineEndings, show readlines file.text = [] from lines_empty (hempty file hfile)] at hin
    cases hin
  | nothing => rfl

/-! ## Files in step -/

theorem Orderly.inStep (hdeclared : ∀ file ∈ files, (reading file.code).Declared) (h : Orderly option files) :
    InStep option files := by
  intro expected hexpects
  rcases h.ready expected hexpects with ⟨ending, rfl, hreadable⟩ | ⟨rfl, hempty⟩
  · obtain ⟨hsweep, hagain⟩ := hreadable.sweeps hdeclared hexpects
    exact ⟨_, hsweep, hreadable.numbered hdeclared h.unescaped, hagain⟩
  · refine ⟨files, sweep_empty hempty, numbered_empty hempty, fun again hagain => ?_⟩
    rw [expects_empty hempty hexpects hagain]
    exact sweep_empty hempty

theorem InStep.unescaped (hdeclared : ∀ file ∈ files, (reading file.code).Declared) (hready : Ready option files)
    (h : InStep option files) : Unescaped files := by
  obtain ⟨expected, hexpects⟩ := exists_expects files option
  obtain ⟨out, hsweep, hnumbered, -⟩ := h expected hexpects
  rcases hready expected hexpects with ⟨ending, rfl, hreadable⟩ | ⟨rfl, hempty⟩
  · rw [(hreadable.sweeps hdeclared hexpects).1] at hsweep
    cases hsweep
    exact hreadable.unescaped hdeclared hnumbered
  · intro file hfile name hname
    rw [code_empty (hempty file hfile)] at hname
    cases hname

/-- A header with the category, and a source file with its definition block and a statement in a comment
above it. -/
def heapHeader : SourceFile :=
  ⟨some turfGuard, ("#ifndef TURF_HEAP_H\n#define TURF_HEAP_H\n/* Traces */\nTURF_TRACE_DECLARE(Heap, 7)\n" ++
    "  TURF_TRACE(Heap, 3, \"alloc\", 0, 0); // here\n#endif // TURF_HEAP_H\n").toList⟩

def heapDefinition : SourceFile :=
  ⟨none, ("/*\nTURF_TRACE(Heap, 0, \"none\", 0, 0)\n*/\nTURF_TRACE_DEFINE_BEGIN(Heap, 7)\nTURF_TRACE_DEFINE(\"old\")\n" ++
    "TURF_TRACE_DEFINE_END(Heap, 7)\n#error No heap\nTURF_TRACE(Heap, 3, \"free\", 0, 0)\n").toList⟩

theorem heap_readable : Readable LineEnding.unix [heapHeader, heapDefinition] := by
  obtain ⟨hplace, hdeclaration, hproper, hquotable⟩ : (∀ file ∈ [heapHeader, heapDefinition],
        (reading (view file.lines)).place = (reading file.lines).place) ∧
      (∀ file ∈ [heapHeader, heapDefinition], modeBehind .code (reading file.lines).before = .code ∧
        ∀ d ∈ (reading file.lines).declaration, modeBehind .code d.2 = .code) ∧
      (∀ file ∈ [heapHeader, heapDefinition], ∀ x ∈ staged .code (reading file.lines).after, Proper x) ∧
      ∀ file ∈ [heapHeader, heapDefinition], ∀ x ∈ staged .code (fixLineEndings LineEnding.unix file.text),
        Quotable LineEnding.unix x := by decide +kernel
  obtain ⟨hkept, hfront, hfits⟩ : fixGuards LineEnding.unix turfGuard.text
        (fixLineEndings LineEnding.unix heapHeader.text) = some (fixLineEndings LineEnding.unix heapHeader.text) ∧
      preamble (fixLineEndings LineEnding.unix heapHeader.text) ≤
        (reading (fixLineEndings LineEnding.unix heapHeader.text)).before.length ∧
      Fits 25 (messagesOf [heapHeader, heapDefinition] heapHeader) (fixLineEndings LineEnding.unix heapHeader.text) := by
    decide +kernel
  refine ⟨fun file hfile => ⟨hplace file hfile, fun name decl hdecl => ?_, hproper file hfile⟩, hquotable,
    fun file hfile guard hguard => ?_⟩
  · exact ⟨(hdeclaration file hfile).1, (hdeclaration file hfile).2 _ hdecl⟩
  · rcases List.mem_cons.mp hfile with rfl | hfile
    · cases hguard
      exact ⟨hfront, fun _ _ => hfits, fun hnot => absurd (fixGuards_self_iff.mp hkept) hnot⟩
    · rw [List.mem_singleton.mp hfile] at hguard
      cases hguard

/-- A statement whose message has an escaped quote. -/
def sayHi : SourceFile :=
  ⟨none, ("TURF_TRACE_DEFINE_BEGIN(A, 0)\nTURF_TRACE_DEFINE_END(A, 0)\n" ++
    "TURF_TRACE(A, 0, \"say \\\"hi\\\"\", 0, 0)\n").toList⟩

end Turf.Tidy
