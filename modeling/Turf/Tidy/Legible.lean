import Turf.Tidy.Declarations
import Turf.Tidy.Quoting
import Turf.Tidy.Reruns
import Turf.Tidy.Respacing

/-!
# Files that read the same without comments

The tool knows no comments. Where none hides what it reads, and it does nothing to a line that a compiler
reads otherwise, this is so of the lines before the ids are assigned as well.
-/
namespace Turf.Tidy

open Turf.Lib.Pattern
open Turf.Lib.Lexing

variable {line line' name : Text} {lines lines' fixed decl part : List Text} {expected : LineEnding}
  {x : Mode × Text} {m : Mode} {g : Text → Text} {file : SourceFile}

/-! ## What comments can hide -/

/-- What the tool or a compiler takes for a statement is one, and its line begins outside of comments. -/
def Proper (x : Mode × Text) : Prop :=
  (search tracePattern x.2).isSome ∨ (statementOf (codeAt x)).isSome → x.1 = .code ∧ Stated x.2

instance (x : Mode × Text) : Decidable (Proper x) := inferInstanceAs (Decidable (_ → _))

namespace Reading

/-- Where a declaration is, and which of its lines begin a block. -/
def place (r : Reading) : Nat × Option (Text × List Bool) :=
  (r.before.length, r.declaration.map fun d => (d.1, d.2.map fun line => (beginLine line).isSome))

end Reading

/-- The lines have their declaration at one place with and without comments, no comment is open where it
begins or ends, and behind it only statements are taken for statements. -/
structure Legible (lines : List Text) : Prop where
  place : (reading (view lines)).place = (reading lines).place
  declaration : ∀ name decl, (reading lines).declaration = some (name, decl) →
    modeBehind .code (reading lines).before = .code ∧ modeBehind .code decl = .code
  statements : ∀ x ∈ staged .code (reading lines).after, Proper x

/-- What stays true of the lines until they get their ids. -/
structure Parted (lines : List Text) : Prop where
  before : ∀ x ∈ staged .code (reading lines).before, declareLine (codeAt x) = none ∧ beginLine (codeAt x) = none
  declaration : ∀ name decl, (reading lines).declaration = some (name, decl) →
    modeBehind .code (reading lines).before = .code ∧ modeBehind .code decl = .code
  statements : ∀ x ∈ staged .code (reading lines).after, Proper x

theorem exists_behind (lines : List Text) : ∃ rest, lines = (reading lines).before ++ rest := by
  obtain ⟨-, ⟨-, heq, -⟩ | ⟨name, first, more, -, heq, -⟩⟩ := reading_spec lines
  · exact ⟨[], by rw [List.append_nil]; exact heq⟩
  · exact ⟨_, heq⟩

theorem take_before (lines : List Text) : lines.take (reading lines).before.length = (reading lines).before := by
  obtain ⟨rest, hrest⟩ := exists_behind lines
  generalize (reading lines).before = before at *
  rw [hrest, List.take_left]

theorem view_before (lines : List Text) : (view lines).take (reading lines).before.length =
    (staged .code (reading lines).before).map codeAt := by
  obtain ⟨rest, hrest⟩ := exists_behind lines
  generalize (reading lines).before = before at *
  rw [hrest, view_eq, staged_append, List.map_append, ← length_staged .code before,
    ← List.length_map (f := codeAt), List.take_left]

theorem Legible.parted (h : Legible lines) : Parted lines := by
  refine ⟨fun x hx => ?_, h.declaration, h.statements⟩
  have hlength : (reading (view lines)).before.length = (reading lines).before.length := congrArg Prod.fst h.place
  have hview : (reading (view lines)).before = (staged .code (reading lines).before).map codeAt := by
    rw [← take_before (view lines), hlength, view_before]
  apply (reading_spec (view lines)).1
  rw [hview]
  exact List.mem_map_of_mem hx

/-- A block without an end in the lines has none without comments. -/
theorem Legible.closed (h : Legible lines) (hdeclared : (reading (view lines)).Closed) : (reading lines).Closed := by
  intro name first hsome
  have hplace : (reading (view lines)).declaration.map _ = (reading lines).declaration.map _ := congrArg Prod.snd h.place
  rw [hsome, Option.map_some] at hplace
  obtain ⟨⟨name', decl'⟩, hdecl', hpair⟩ := Option.map_eq_some_iff.mp hplace
  obtain ⟨first', rfl, hfirst⟩ := List.map_eq_singleton_iff.mp (Prod.mk.inj hpair).2
  rw [hdeclared name' first' hdecl'] at hfirst
  exact Option.isSome_eq_false_iff.mp hfirst.symm |> Option.isNone_iff_eq_none.mp

/-- The lines of a reading are staged as in the file. -/
theorem staged_reading (hdecl : (reading lines).declaration = some (name, decl)) : staged .code lines =
    staged .code (reading lines).before ++ (staged (modeBehind .code (reading lines).before) decl ++
      staged (modeBehind .code ((reading lines).before ++ decl)) (reading lines).after) := by
  obtain ⟨-, ⟨hnone, -, -⟩ | ⟨name', first, more, hsome, heq, -⟩⟩ := reading_spec lines
  · rw [hnone] at hdecl
    cases hdecl
  · rw [hsome] at hdecl
    cases hdecl
    conv_lhs => rw [heq, staged_append, staged_append, ← modeBehind_append]

theorem reading_of_none (hdecl : (reading lines).declaration = none) :
    (reading lines).before = lines ∧ (reading lines).after = [] := by
  obtain ⟨-, ⟨-, heq, hafter⟩ | ⟨name, first, more, hsome, -⟩⟩ := reading_spec lines
  · exact ⟨heq.symm, hafter⟩
  · rw [hsome] at hdecl
    cases hdecl

namespace Legible

theorem name_eq (h : Legible lines) : (reading (view lines)).name = (reading lines).name := by
  have hplace := congrArg (fun p => p.2.map Prod.fst) h.place
  simp only [Reading.place, Option.map_map] at hplace
  exact hplace

theorem isBlock_eq (h : Legible lines) : (reading (view lines)).isBlock = (reading lines).isBlock := by
  have hplace : (reading (view lines)).declaration.map _ = (reading lines).declaration.map _ := congrArg Prod.snd h.place
  rw [Reading.isBlock, Reading.isBlock]
  cases hcode : (reading (view lines)).declaration with
  | none =>
    rw [hcode] at hplace
    rw [Option.map_eq_none_iff.mp hplace.symm]
  | some d =>
    rw [hcode] at hplace
    obtain ⟨d', hd', hpair⟩ := Option.map_eq_some_iff.mp hplace.symm
    have hlength := congrArg (fun p => p.2.length) hpair
    simp only [List.length_map] at hlength
    rw [hd', Option.any_some, Option.any_some, hlength]

/-- The lines behind the declaration are the same with and without comments. -/
theorem view_after (h : Legible lines) : (reading (view lines)).after = view (reading lines).after := by
  have hplace : (reading (view lines)).declaration.map _ = (reading lines).declaration.map _ := congrArg Prod.snd h.place
  cases hdecl : (reading lines).declaration with
  | none =>
    rw [hdecl] at hplace
    rw [(reading_of_none (Option.map_eq_none_iff.mp hplace)).2, (reading_of_none hdecl).2]
    rfl
  | some d =>
    obtain ⟨name, decl⟩ := d
    rw [hdecl] at hplace
    obtain ⟨⟨name', decl'⟩, hcode, hpair⟩ := Option.map_eq_some_iff.mp hplace
    have hlength := congrArg (fun p => p.2.length) hpair
    have hbefore : (reading (view lines)).before.length = (reading lines).before.length := congrArg Prod.fst h.place
    obtain ⟨hmode, hmode'⟩ := h.declaration name decl hdecl
    have hlines := staged_reading hdecl
    rw [modeBehind_append, hmode, hmode'] at hlines
    have hview := congrArg (List.map codeAt) hlines
    rw [← view_eq, List.map_append, List.map_append, ← view_eq, ← view_eq, ← view_eq] at hview
    obtain ⟨-, ⟨hnone, -, -⟩ | ⟨name'', first, more, hsome, heq, -⟩⟩ := reading_spec (view lines)
    · rw [hnone] at hcode
      cases hcode
    rw [hsome] at hcode
    cases hcode
    have hview_length : ∀ lines : List Text, (view lines).length = lines.length := fun lines => by
      rw [view_eq, List.length_map, length_staged]
    have hsame : (reading (view lines)).before ++ (first :: more ++ (reading (view lines)).after) =
        view (reading lines).before ++ (view decl ++ view (reading lines).after) := heq.symm.trans hview
    have hrest := (List.append_inj hsame (by rw [hbefore, hview_length])).2
    exact (List.append_inj hrest (by simpa [hview_length] using hlength)).2

/-- Statements have the same messages with and without comments. -/
theorem literals_eq (h : Legible lines) (hlines : ∀ line ∈ lines, OneLine line) :
    (reading (view lines)).statements.map Statement.literal = (reading lines).statements.map Statement.literal := by
  have hone : ∀ line ∈ (reading lines).after, OneLine line := fun line hline => hlines line (mem_lines_of_reading.2.2 line hline)
  have hstatements := h.statements
  rw [Reading.statements, h.view_after, view_eq, Reading.statements]
  generalize (reading lines).after = after at hone hstatements
  generalize Mode.code = m at hstatements ⊢
  induction after generalizing m with
  | nil => rfl
  | cons line after ih =>
    obtain ⟨hline, hafter⟩ := List.forall_mem_cons.mp hone
    rw [staged] at hstatements ⊢
    obtain ⟨hproper, hpropers⟩ := List.forall_mem_cons.mp hstatements
    have hrest := ih hafter _ hpropers
    cases hcode : statementOf (codeAt (m, line)) with
    | some s =>
      obtain ⟨hmode, hstated⟩ := hproper (.inr (by rw [hcode]; rfl))
      obtain rfl : m = .code := hmode
      obtain ⟨s', hs'⟩ := Option.isSome_iff_exists.mp hstated.raw
      obtain ⟨s'', hs'', hliteral⟩ := hstated.same_literal hs'
      rw [hcode] at hs''
      cases hs''
      rw [List.map_cons, List.filterMap_cons_some hcode, List.filterMap_cons_some hs', List.map_cons, List.map_cons,
        hliteral, hrest]
    | none =>
      have hraw : statementOf line = none := by
        by_contra hsome
        have hstated := (hproper (.inl (search_isSome_of_statement hline (Option.isSome_iff_ne_none.mpr hsome)))).2
        obtain ⟨hmode, -⟩ := hproper (.inl (search_isSome_of_statement hline (Option.isSome_iff_ne_none.mpr hsome)))
        obtain rfl : m = .code := hmode
        have hsome' := hstated.code
        rw [hcode] at hsome'
        cases hsome'
      rw [List.map_cons, List.filterMap_cons_none hcode, List.filterMap_cons_none hraw, hrest]

end Legible

/-! ## Other lines in their places -/

/-- A line in the place of another that reads the same with and without comments. -/
structure Recoded (x : Mode × Text) (line' : Text) : Prop where
  alike : Alike x.2 line'
  mode : modeAt (x.1, line') = modeAt x
  code : codeAt (x.1, line') = codeAt x ∨ Untraced (codeAt x) ∧ Untraced (codeAt (x.1, line'))
  found : (search tracePattern line').isSome → (search tracePattern x.2).isSome
  opens : Stated x.2 → Opens line'

theorem Recoded.proper (h : Recoded x line') (hx : Proper x) : Proper (x.1, line') := by
  intro hfound
  have hfound' : (search tracePattern x.2).isSome ∨ (statementOf (codeAt x)).isSome := by
    rcases hfound with hfound | hfound
    · exact .inl (h.found hfound)
    · rcases h.code with hsame | ⟨-, huntraced⟩
      · rw [hsame] at hfound
        exact .inr hfound
      · rw [huntraced.statement] at hfound
        cases hfound
  obtain ⟨hmode, hstated⟩ := hx hfound'
  obtain ⟨m, line⟩ := x
  obtain rfl : m = .code := hmode
  refine ⟨rfl, h.opens hstated, ?_, ?_⟩
  · rw [h.alike.statement]
    exact hstated.raw
  · rcases h.code with hsame | ⟨huntraced, -⟩
    · rw [hsame]
      exact hstated.code
    · have hcode := hstated.code
      rw [huntraced.statement] at hcode
      cases hcode

theorem staged_map (h : ∀ x ∈ staged m lines, Recoded x (g x.2)) : staged m (lines.map g) =
    (staged m lines).map fun x => (x.1, g x.2) := by
  induction lines generalizing m with
  | nil => rfl
  | cons line lines ih =>
    rw [staged] at h
    obtain ⟨hline, hlines⟩ := List.forall_mem_cons.mp h
    have hmode : (readLine m (withoutEnding (g line))).mode = (readLine m (withoutEnding line)).mode := hline.mode
    rw [List.map_cons, staged, hmode, ih hlines, staged, List.map_cons]

theorem modeBehind_map (h : ∀ x ∈ staged m lines, Recoded x (g x.2)) : modeBehind m (lines.map g) = modeBehind m lines := by
  induction lines generalizing m with
  | nil => rfl
  | cons line lines ih =>
    rw [staged] at h
    obtain ⟨hline, hlines⟩ := List.forall_mem_cons.mp h
    rw [List.map_cons, modeBehind_cons, hline.mode, modeBehind_cons]
    exact ih hlines

theorem reading_map (h : ∀ line ∈ lines, Alike line (g line)) : reading (lines.map g) = ⟨(reading lines).before.map g,
    (reading lines).declaration.map fun d => (d.1, d.2.map g), (reading lines).after.map g⟩ := by
  have hfilter : reading (lines.filterMap (some ∘ g)) = _ :=
    reading_filterMap fun line hline => .inr ⟨g line, rfl, h line hline⟩
  rw [Reading.filterMap] at hfilter
  simpa only [List.filterMap_eq_map] using hfilter

theorem Parted.map (h : Parted lines) (hg : ∀ x ∈ staged .code lines, Recoded x (g x.2)) : Parted (lines.map g) := by
  have hread := reading_map fun line hline =>
    let ⟨_, hx⟩ := exists_staged_of_mem .code hline
    (hg _ hx).alike
  have hbefore : ∀ x ∈ staged .code (reading lines).before, Recoded x (g x.2) := by
    intro x hx
    apply hg
    cases hdecl : (reading lines).declaration with
    | none => rwa [(reading_of_none hdecl).1] at hx
    | some d =>
      obtain ⟨name, decl⟩ := d
      rw [staged_reading hdecl]
      exact List.mem_append_left _ hx
  have hdeclaration : ∀ name decl, (reading lines).declaration = some (name, decl) →
      (∀ x ∈ staged .code decl, Recoded x (g x.2)) ∧ ∀ x ∈ staged .code (reading lines).after, Recoded x (g x.2) := by
    intro name decl hdecl
    have hstaged := staged_reading hdecl
    rw [modeBehind_append, (h.declaration name decl hdecl).1, (h.declaration name decl hdecl).2] at hstaged
    rw [hstaged] at hg
    exact ⟨fun x hx => hg x (List.mem_append_right _ (List.mem_append_left _ hx)),
      fun x hx => hg x (List.mem_append_right _ (List.mem_append_right _ hx))⟩
  refine ⟨?_, ?_, ?_⟩
  · rw [hread, staged_map hbefore]
    intro x' hx'
    obtain ⟨x, hx, rfl⟩ := List.mem_map.mp hx'
    rcases (hbefore x hx).code with hsame | ⟨-, huntraced⟩
    · rw [hsame]
      exact h.before x hx
    · exact ⟨huntraced.declare, huntraced.begins⟩
  · intro name decl' hdecl'
    rw [hread] at hdecl' ⊢
    obtain ⟨⟨name', decl⟩, hdecl, hpair⟩ := Option.map_eq_some_iff.mp hdecl'
    cases hpair
    rw [modeBehind_map hbefore, modeBehind_map (hdeclaration name' decl hdecl).1]
    exact h.declaration name' decl hdecl
  · rw [hread]
    cases hdecl : (reading lines).declaration with
    | none =>
      rw [(reading_of_none hdecl).2]
      exact List.forall_mem_nil _
    | some d =>
      have hafter := (hdeclaration d.1 d.2 hdecl).2
      rw [staged_map hafter]
      intro x' hx'
      obtain ⟨x, hx, rfl⟩ := List.mem_map.mp hx'
      exact (hafter x hx).proper (h.statements x hx)

/-! ## Line endings and quotes -/

theorem takeWhile_quote_append {content r : Text} (h : '"' ∈ content) :
    (content ++ r).takeWhile (· != '"') = content.takeWhile (· != '"') := by
  rw [List.takeWhile_append, if_neg]
  intro hlength
  have hsame := (List.takeWhile_prefix (l := content) (· != '"')).eq_of_length hlength
  rw [← hsame] at h
  simpa using List.mem_takeWhile_imp h

theorem quote_mem_of_statement {content r : Text} (hr : ∀ c ∈ r, isReturn c)
    (h : (statementOf (content ++ r)).isSome) : '"' ∈ content := by
  obtain ⟨s, hs⟩ := Option.isSome_iff_exists.mp h
  obtain ⟨indent, ws, rest, hs⟩ := isStatement_of_statementOf hs
  have hmem : '"' ∈ content ++ r := by
    rw [hs.eq]
    simp
  rcases List.mem_append.mp hmem with hmem | hmem
  · exact hmem
  · exact absurd (hr _ hmem) (by decide)

theorem closed_tracePattern : Closed isReturn tracePattern :=
  ⟨not_return (by decide), not_return (by decide), not_return (by decide), List.cons_ne_nil _ _,
    not_return (by decide)⟩

theorem recoded_fixLineEnding {file : Text} (m : Mode) (h : line ∈ readlines file) :
    Recoded (m, line) (fixLineEnding expected line) := by
  have halike : Alike line (fixLineEnding expected line) := alike_fixLineEnding h
  have hwithout : withoutEnding (fixLineEnding expected line) = withoutEnding line := withoutEnding_fixLineEnding h
  obtain ⟨content, r, hcontent, hr, rfl⟩ := content_of_mem_readlines h
  refine ⟨halike, by rw [modeAt, modeAt, hwithout], .inl (by rw [codeAt, codeAt, hwithout]), ?_, fun hstated => ?_⟩
  · rw [fixLineEnding_append hcontent hr, search_closed closed_tracePattern ending_return hr]
    exact id
  · have hquote := quote_mem_of_statement hr hstated.raw
    have hopens := hstated.opens
    rw [fixLineEnding_append hcontent hr, Opens, takeWhile_quote_append hquote]
    rwa [Opens, takeWhile_quote_append hquote] at hopens

theorem Quotable.recoded (h : Quotable expected x) (hline : IsLine expected x.2) : Recoded x (fixError x.2) := by
  refine ⟨alike_fixError x.2, h.mode_eq hline, ?_, fun hfound => ?_, fun hstated => ?_⟩
  · rcases h.code hline with heq | huntraced
    · rw [heq]
      exact .inl rfl
    · exact .inr huntraced
  · by_contra hnone
    rw [h.search_none hline (Option.not_isSome_iff_eq_none.mp hnone)] at hfound
    cases hfound
  · rcases fixError_cases x.2 with heq | ⟨hinert, -⟩
    · rw [heq]
      exact hstated.opens
    · have hraw := hstated.raw
      rw [hinert.no_statement] at hraw
      cases hraw

/-! ## Guards -/

theorem Added.proper (h : Added line) : Proper (.code, line) := by
  intro hfound
  exfalso
  rcases hfound with hfound | hfound
  · obtain ⟨⟨before, m⟩, hsearch⟩ := Option.isSome_iff_exists.mp hfound
    obtain ⟨ws, args, msg, tail, hline, -⟩ := found_of_search hsearch
    have heq : line = _ := hline.eq
    apply h.quote
    rw [heq]
    simp
  · rw [(inert_codeAt h.inert).untraced.statement] at hfound
    cases hfound

/-- Lines that come and go without an effect hide nothing. -/
theorem Parted.respaced (h : Parted lines) (hclosed : (reading lines).Closed) (hlines : Respaced .code lines lines') :
    Parted lines' := by
  have hundeclared : ∀ {before before' : List Text}, Respaced .code before before' →
      (∀ x ∈ staged .code before, declareLine (codeAt x) = none ∧ beginLine (codeAt x) = none) →
      ∀ x ∈ staged .code before', declareLine (codeAt x) = none ∧ beginLine (codeAt x) = none := by
    intro before before' hbefore hnone x hx
    rcases hbefore.mem hx with hmem | ⟨hmode, hadded⟩
    · exact hnone x hmem
    · obtain ⟨m, line⟩ := x
      obtain rfl : m = .code := hmode
      have huntraced := (inert_codeAt hadded.inert).untraced
      exact ⟨huntraced.declare, huntraced.begins⟩
  rcases hlines.reading_spec hclosed with ⟨hnone, hread⟩ | ⟨name, decl, before', decl', after', hsome, hread, hbefore, hdecl, hafter⟩
  · obtain ⟨hbefore, -⟩ := reading_of_none hnone
    have hstaged := h.before
    rw [hbefore] at hstaged
    rw [← hbefore] at hlines
    refine ⟨?_, fun name decl hdecl => ?_, ?_⟩
    · rw [hread]
      exact hundeclared (hbefore ▸ hlines) hstaged
    · rw [hread] at hdecl
      cases hdecl
    · rw [hread]
      exact List.forall_mem_nil _
  · obtain ⟨hmode, hmode'⟩ := h.declaration name decl hsome
    rw [hmode] at hdecl
    rw [modeBehind_append, hmode, hmode'] at hafter
    refine ⟨?_, fun name' decl'' hdecl'' => ?_, ?_⟩
    · rw [hread]
      exact hundeclared hbefore h.before
    · rw [hread] at hdecl'' ⊢
      cases hdecl''
      exact ⟨by rw [← hbefore.mode_eq, hmode], by rw [← hdecl.mode_eq, hmode']⟩
    · rw [hread]
      intro x hx
      rcases hafter.mem hx with hmem | ⟨hmode, hadded⟩
      · exact h.statements x hmem
      · obtain ⟨m, line⟩ := x
        obtain rfl : m = .code := hmode
        exact hadded.proper

/-! ## Prepared lines -/

theorem isLine_reguard {guard : Option GuardName} (hlines : ∀ line ∈ lines, IsLine expected line)
    (h : reguard expected guard lines = some fixed) : ∀ line ∈ fixed, IsLine expected line := by
  cases guard with
  | none =>
    cases h
    exact hlines
  | some guard => exact isLine_fixGuards hlines h

theorem quotable_respaced (h : ∀ x ∈ staged .code lines, Quotable expected x) (hlines : Respaced .code lines fixed) :
    ∀ x ∈ staged .code fixed, Quotable expected x := by
  intro x hx
  rcases hlines.mem hx with hmem | ⟨-, hadded⟩
  · exact h x hmem
  · intro msg hmsg
    rw [hadded.message] at hmsg
    cases hmsg

/-- The lines before the ids are assigned hide nothing, and all have the expected ending. -/
theorem Parted.prepared (h : Parted file.lines) (hclosed : (reading file.lines).Closed)
    (hquotable : ∀ x ∈ staged .code (fixLineEndings expected file.text), Quotable expected x)
    (hguard : reguard expected file.guard (fixLineEndings expected file.text) = some fixed)
    (hlines : Respaced .code (fixLineEndings expected file.text) fixed) :
    prepare expected file = some (fixed.map fixError) ∧ Parted (fixed.map fixError) ∧
      ∀ line ∈ fixed.map fixError, IsLine expected line := by
  have hendings : Parted (fixLineEndings expected file.text) :=
    h.map fun x hx => recoded_fixLineEnding x.1 (snd_of_mem_staged hx)
  have hsame : (reading (fixLineEndings expected file.text)).Closed :=
    (same_fixLineEndings (expected : Ending) file.text).closed.mpr hclosed
  have hisLine := isLine_reguard (fun _ => isLine_of_mem_fixLineEndings) hguard
  have hfixed := quotable_respaced hquotable hlines
  refine ⟨by rw [prepare_eq_reguard, hguard, Option.map_some], ?_, fun line hline => ?_⟩
  · exact (hendings.respaced hsame hlines).map fun x hx => (hfixed x hx).recoded (hisLine _ (snd_of_mem_staged hx))
  · obtain ⟨line', hline', rfl⟩ := List.mem_map.mp hline
    obtain ⟨m, hx⟩ := exists_staged_of_mem .code hline'
    exact (hfixed _ hx).isLine (hisLine line' hline')

/-! ## Written lines -/

/-- A written line is a statement without comments if it is one with them, and it ends in the mode it did. -/
theorem Proper.written (h : Proper (m, line)) (hline : OneLine line) (hname : IsName name)
    (hwritten : Written name line line') :
    statementOf (codeAt (m, line')) = statementOf line' ∧ modeAt (m, line') = modeAt (m, line) := by
  cases hfound : search tracePattern line with
  | none =>
    rw [hwritten.eq_of_none hfound]
    have hraw : statementOf line = none := by
      by_contra hsome
      have hsearch := search_isSome_of_statement hline (Option.isSome_iff_ne_none.mpr hsome)
      rw [hfound] at hsearch
      cases hsearch
    refine ⟨?_, rfl⟩
    rw [hraw]
    by_contra hsome
    have hstated := (h (.inr (Option.isSome_iff_ne_none.mpr hsome))).2.raw
    rw [hraw] at hstated
    cases hstated
  | some found =>
    obtain ⟨hmode, hstated⟩ := h (.inl (by rw [hfound]; rfl))
    obtain rfl : m = .code := hmode
    obtain ⟨s, hs⟩ := Option.isSome_iff_exists.mp hstated.raw
    obtain ⟨id, rfl⟩ := hwritten.restate_eq hline hs
    obtain ⟨hcode, hsame⟩ := hstated.restated hs hname.word id
    exact ⟨by rw [hcode, statementOf_restate hs hname.word], hsame⟩

theorem statements_written (h : ∀ x ∈ staged m lines, Proper x) (hlines : ∀ line ∈ lines, OneLine line)
    (hname : IsName name) (hwritten : List.Forall₂ (Written name) lines lines') :
    ((staged m lines').map codeAt).filterMap statementOf = lines'.filterMap statementOf := by
  induction hwritten generalizing m with
  | nil => rfl
  | @cons line line' lines lines' hline _ ih =>
    rw [staged] at h
    obtain ⟨hproper, hpropers⟩ := List.forall_mem_cons.mp h
    obtain ⟨hone, hlines⟩ := List.forall_mem_cons.mp hlines
    obtain ⟨hcode, hmode⟩ := hproper.written hone hname hline
    have hmode : (readLine m (withoutEnding line')).mode = (readLine m (withoutEnding line)).mode := hmode
    rw [staged, hmode, List.map_cons, List.filterMap_cons, hcode, List.filterMap_cons, ih hpropers hlines]

variable {orig log : Log}

/-- How the written lines read without comments. -/
theorem Parted.view_renewed (h : Parted lines) (hdecl : (reading lines).declaration = some (name, decl))
    (hmessages : ∀ desc ∈ orig.messages name, (∀ c ∈ desc, isDot c) ∧ '"' ∉ desc) :
    ∃ before after, reading (view (renewed expected orig log lines)) =
        ⟨before, some (name, declared name (orig.messages name) decl), after⟩ ∧
      ((∀ line ∈ (reading lines).after, OneLine line) → after.filterMap statementOf =
        ((Pass.second expected orig).assign name (log.messages name).length
          (reading lines).after).filterMap statementOf) := by
  have hname := isName_of_reading hdecl
  have hreads : List.Forall₂ Reads (redeclared expected name (orig.messages name) decl) _ :=
    redeclared_reads hname hmessages decl
  obtain ⟨hview, hmode⟩ := view_of_reads hreads
  have hbefore : ∀ line ∈ view (reading lines).before, declareLine line = none ∧ beginLine line = none := by
    intro line hline
    rw [view_eq] at hline
    obtain ⟨x, hx, rfl⟩ := List.mem_map.mp hline
    exact h.before x hx
  refine ⟨view (reading lines).before, view ((Pass.second expected orig).assign name (log.messages name).length
    (reading lines).after), ?_, fun hlines => ?_⟩
  · rw [renewed_some hdecl, view_append (h.declaration name decl hdecl).1, view_append hmode, hview,
      reading_append hbefore, reading_declared hname, List.append_nil]
  · rw [view_eq]
    exact statements_written h.statements hlines hname (assign_forall₂ expected orig name _ _)

/-- Without a declaration there is none without comments. -/
theorem Parted.view_none (h : Parted lines) (hdecl : (reading lines).declaration = none) :
    reading (view lines) = ⟨view lines, none, []⟩ := by
  apply reading_none
  intro line hline
  rw [view_eq] at hline
  obtain ⟨x, hx, rfl⟩ := List.mem_map.mp hline
  rw [← (reading_of_none hdecl).1] at hx
  exact h.before x hx

end Turf.Tidy
