import Turf.Tidy.Headers
import Turf.Tidy.Views

/-!
# Lines around a guard

Lines that come and go without an effect on the others, as those of a guard do: outside comments, and
neither declarations nor statements.
-/
namespace Turf.Tidy

open Turf.Lib.Pattern
open Turf.Lib.Lexing

variable {line name last : Text} {lines lines' fixed before after inner : List Text} {m : Mode}
  {x : Mode × Text} {expected : Ending} {guard : GuardName}

/-- A directive or a blank line that begins in code and leaves the lexer there. -/
structure Idle (line : Text) : Prop where
  inert : Inert line
  mode : modeAt (.code, line) = .code

/-- Such a line without a quote and without a message. -/
structure Added (line : Text) : Prop extends Idle line where
  quote : '"' ∉ line
  message : errorMessage line = none

/-- The same lines with others added and dropped. -/
inductive Respaced : Mode → List Text → List Text → Prop
  | nil (m : Mode) : Respaced m [] []
  | same {m : Mode} {line : Text} {lines lines' : List Text} (h : Respaced (modeAt (m, line)) lines lines') :
    Respaced m (line :: lines) (line :: lines')
  | drop {line : Text} {lines lines' : List Text} (hline : Idle line) (h : Respaced .code lines lines') :
    Respaced .code (line :: lines) lines'
  | add {line : Text} {lines lines' : List Text} (hline : Added line) (h : Respaced .code lines lines') : Respaced .code lines (line :: lines')

namespace Respaced

theorem refl (m : Mode) (lines : List Text) : Respaced m lines lines := by
  induction lines generalizing m with
  | nil => exact .nil m
  | cons line lines ih => exact .same (ih _)

theorem mode_eq (h : Respaced m lines lines') : modeBehind m lines = modeBehind m lines' := by
  induction h with
  | nil => rfl
  | same _ ih => rw [modeBehind_cons, modeBehind_cons, ih]
  | drop hline _ ih => rw [modeBehind_cons, hline.mode, ih]
  | add hline _ ih => rw [modeBehind_cons, hline.mode, ih]

theorem append (h : Respaced m lines lines') (h' : Respaced (modeBehind m lines) before after) :
    Respaced m (lines ++ before) (lines' ++ after) := by
  induction h with
  | nil => exact h'
  | same _ ih => exact .same (ih h')
  | drop hline _ ih =>
    rw [modeBehind_cons, hline.mode] at h'
    exact .drop hline (ih h')
  | add hline _ ih => exact .add hline (ih h')

theorem drops (h : ∀ line ∈ lines, Idle line) : Respaced .code lines [] := by
  induction lines with
  | nil => exact .nil _
  | cons line lines ih =>
    obtain ⟨hline, hlines⟩ := List.forall_mem_cons.mp h
    exact .drop hline (ih hlines)

theorem adds (h : ∀ line ∈ lines, Added line) : Respaced .code [] lines := by
  induction lines with
  | nil => exact .nil _
  | cons line lines ih =>
    obtain ⟨hline, hlines⟩ := List.forall_mem_cons.mp h
    exact .add hline (ih hlines)

theorem swap (h : ∀ line ∈ lines, Idle line) (h' : ∀ line ∈ lines', Added line) :
    Respaced .code lines lines' := by
  have happend := (drops h).append (by rw [(drops h).mode_eq]; exact adds h')
  rwa [List.append_nil] at happend

/-- A line is one of those before, in the same mode, or was added. -/
theorem mem (h : Respaced m lines lines') (hx : x ∈ staged m lines') :
    x ∈ staged m lines ∨ x.1 = .code ∧ Added x.2 := by
  induction h with
  | nil => exact .inl hx
  | same _ ih =>
    rcases List.mem_cons.mp hx with rfl | hx
    · exact .inl (List.mem_cons_self ..)
    · exact (ih hx).imp_left (List.mem_cons_of_mem _)
  | @drop line lines lines' hline _ ih =>
    have hmode : (readLine .code (withoutEnding line)).mode = .code := hline.mode
    rw [staged, hmode]
    exact (ih hx).imp_left (List.mem_cons_of_mem _)
  | @add line lines lines' hline _ ih =>
    have hmode : (readLine .code (withoutEnding line)).mode = .code := hline.mode
    rw [staged, hmode] at hx
    rcases List.mem_cons.mp hx with rfl | hx
    · exact .inr ⟨rfl, hline⟩
    · exact ih hx

theorem mem_lines (h : Respaced m lines lines') (hline : line ∈ lines') : line ∈ lines ∨ Inert line := by
  obtain ⟨m', hx⟩ := exists_staged_of_mem m hline
  rcases h.mem hx with hmem | ⟨-, hadded⟩
  · exact .inl (snd_of_mem_staged hmem)
  · exact .inr hadded.inert

/-- What stands in front of other lines. -/
theorem split (h : Respaced m (before ++ after) lines') : ∃ before' after', lines' = before' ++ after' ∧
    Respaced m before before' ∧ Respaced (modeBehind m before) after after' := by
  generalize hlines : before ++ after = lines at h
  induction h generalizing before with
  | nil =>
    obtain ⟨rfl, rfl⟩ := List.append_eq_nil_iff.mp hlines
    exact ⟨[], [], rfl, .nil _, .nil _⟩
  | @same m line lines lines' h ih =>
    cases before with
    | nil =>
      obtain rfl : after = line :: lines := hlines
      exact ⟨[], _, rfl, .nil _, .same h⟩
    | cons first before =>
      obtain ⟨rfl, rfl⟩ := List.cons.inj hlines
      obtain ⟨before', after', rfl, hbefore, hafter⟩ := ih rfl
      exact ⟨_ :: before', after', rfl, .same hbefore, hafter⟩
  | @drop line lines lines' hline h ih =>
    cases before with
    | nil =>
      obtain rfl : after = line :: lines := hlines
      exact ⟨[], _, rfl, .nil _, .drop hline h⟩
    | cons first before =>
      obtain ⟨rfl, rfl⟩ := List.cons.inj hlines
      obtain ⟨before', after', rfl, hbefore, hafter⟩ := ih rfl
      rw [modeBehind_cons, hline.mode]
      exact ⟨before', after', rfl, .drop hline hbefore, hafter⟩
  | @add line lines lines' hline h ih =>
    obtain ⟨before', after', rfl, hbefore, hafter⟩ := ih hlines
    exact ⟨line :: before', after', rfl, .add hline hbefore, hafter⟩

/-- A line that is neither blank nor a directive stays. -/
theorem cons_live (h : Respaced m (line :: lines) lines') (hlive : ¬ Inert line) :
    ∃ front back, lines' = front ++ line :: back ∧ Respaced m [] front ∧
      Respaced (modeAt (m, line)) lines back := by
  generalize hlines : line :: lines = all at h
  induction h with
  | nil => cases hlines
  | @same m first rest rest' h _ =>
    obtain ⟨rfl, rfl⟩ := List.cons.inj hlines
    exact ⟨[], rest', rfl, .nil _, h⟩
  | drop hline _ _ =>
    obtain ⟨rfl, rfl⟩ := List.cons.inj hlines
    exact absurd hline.inert hlive
  | @add first rest rest' hline h ih =>
    obtain ⟨front, back, rfl, hfront, hback⟩ := ih hlines
    exact ⟨first :: front, back, rfl, .add hline hfront, hback⟩

end Respaced

theorem not_inert_of_declaration (h : (declareLine line).isSome ∨ (beginLine line).isSome ∨ isEnd line) :
    ¬ Inert line := by
  intro hinert
  rw [hinert.no_declare, hinert.no_begin, hinert.no_end] at h
  simp at h

/-- Lines without a declaration stay without one. -/
theorem Respaced.undeclared (h : Respaced m lines lines')
    (hnone : ∀ line ∈ lines, declareLine line = none ∧ beginLine line = none) :
    ∀ line ∈ lines', declareLine line = none ∧ beginLine line = none := by
  intro line hline
  rcases h.mem_lines hline with hmem | hinert
  · exact hnone line hmem
  · exact ⟨hinert.no_declare, hinert.no_begin⟩

theorem Respaced.unended (h : Respaced m lines lines') (hnone : ∀ line ∈ lines, isEnd line = false) :
    ∀ line ∈ lines', isEnd line = false := by
  intro line hline
  rcases h.mem_lines hline with hmem | hinert
  · exact hnone line hmem
  · exact hinert.no_end

theorem reading_none (h : ∀ line ∈ lines, declareLine line = none ∧ beginLine line = none) :
    reading lines = ⟨lines, none, []⟩ := by
  have hread := reading_append h []
  rw [List.append_nil] at hread
  rw [hread]
  exact congrArg (Reading.mk · none []) (List.append_nil lines)

/-- The lines are read as before, with the same declaration. -/
theorem Respaced.reading_spec (h : Respaced m lines lines') (hclosed : (reading lines).Closed) :
    (reading lines).declaration = none ∧ reading lines' = ⟨lines', none, []⟩ ∨
    ∃ name decl before' decl' after', (reading lines).declaration = some (name, decl) ∧
      reading lines' = ⟨before', some (name, decl'), after'⟩ ∧ Respaced m (reading lines).before before' ∧
      Respaced (modeBehind m (reading lines).before) decl decl' ∧
      Respaced (modeBehind m ((reading lines).before ++ decl)) (reading lines).after after' := by
  obtain ⟨hbefore, ⟨hnone, heq, -⟩ | ⟨name, first, more, hsome, heq, hkind⟩⟩ := Turf.Tidy.reading_spec lines
  · rw [← heq] at hbefore
    exact .inl ⟨hnone, reading_none (h.undeclared hbefore)⟩
  refine .inr ⟨name, first :: more, ?_⟩
  rw [hsome]
  generalize (reading lines).before = before at *
  generalize (reading lines).after = after at *
  rw [heq] at h
  have hfirst : ¬ Inert first := by
    apply not_inert_of_declaration
    rcases hkind with ⟨hdeclare, -⟩ | ⟨-, hbegin, -⟩
    · exact .inl (by rw [hdeclare]; rfl)
    · exact .inr (.inl (by rw [hbegin]; rfl))
  rw [List.cons_append] at h
  obtain ⟨before', rest, rfl, hbefore', hrest⟩ := h.split
  obtain ⟨front, back, rfl, hfront, hback⟩ := hrest.cons_live hfirst
  have hbefore'' := hbefore'.append hfront
  rw [List.append_nil] at hbefore''
  have hnone := hbefore''.undeclared hbefore
  have hmode : modeBehind m (before ++ first :: more) = modeBehind (modeAt (modeBehind m before, first)) more := by
    rw [modeBehind_append, modeBehind_cons]
  rw [hmode]
  rcases hkind with ⟨hdeclare, rfl⟩ | ⟨hdeclare, hbegin, hlength⟩
  · refine ⟨before' ++ front, [first], back, rfl, ?_, hbefore'', .same (.nil _), hback⟩
    rw [← List.append_assoc, reading_append hnone, reading_declare hdeclare, List.append_nil]
  · obtain ⟨inner, last, rfl, hinner, hlast⟩ := hclosed.block_last hsome (by rw [hbegin]; rfl) hlength
    rw [List.append_assoc] at hback
    obtain ⟨inner', rest, rfl, hinner', hrest⟩ := hback.split
    obtain ⟨front', back', rfl, hfront', hback'⟩ :=
      hrest.cons_live (not_inert_of_declaration (.inr (.inr hlast)))
    have hentries := hinner'.append hfront'
    rw [List.append_nil] at hentries
    refine ⟨before' ++ front, first :: ((inner' ++ front') ++ [last]), back', rfl, ?_, hbefore'',
      .same (hentries.append (.refl _ [last])), ?_⟩
    · have hblock := reading_block hdeclare hbegin (hentries.unended hinner) hlast back'
      rw [List.singleton_append] at hblock
      rw [← List.append_assoc, reading_append hnone, ← List.append_assoc inner', hblock, List.append_nil]
    · rw [modeBehind_append]
      exact hback'

/-! ## Guards -/

theorem idle_of_whole (h : Whole [line]) (hinert : Inert line) : Idle line := ⟨hinert, modeBehind_of_whole h⟩

theorem idle_of_blank (h : isBlank line) : Idle line := idle_of_whole (whole_of_blank h) (inert_of_blank h)

theorem idle_of_nonblank (h : ∀ line ∈ nonblank lines, Whole [line] ∧ Inert line) : ∀ line ∈ lines, Idle line := by
  intro line hline
  cases hblank : isBlank line with
  | true => exact idle_of_blank hblank
  | false =>
    obtain ⟨hwhole, hinert⟩ := h line (List.mem_filter.mpr ⟨hline, by rw [hblank]; rfl⟩)
    exact idle_of_whole hwhole hinert

theorem quote_not_mem_ending : '"' ∉ expected.text := fun h => absurd (ending_return _ h) (by decide)

theorem quote_not_mem_new {directive : Text} (h : '"' ∉ directive) :
    '"' ∉ directive ++ guard.text ++ expected.text := by
  rw [List.mem_append, List.mem_append, not_or, not_or]
  exact ⟨⟨h, fun hmem => absurd (guard.word _ hmem) (by decide)⟩, quote_not_mem_ending⟩

/-- The lines of the new guard. -/
theorem added_new (expected : Ending) (guard : GuardName) : Added (ifndefLine expected guard.text) ∧
    Added (defineLine expected guard.text) ∧ Added expected.text ∧ Added (endifGuardLine expected guard.text) := by
  obtain ⟨hifndef, hdefine, hending, hendif⟩ := errorMessage_new expected guard.text
  refine ⟨⟨idle_of_whole (ifndefLine_code expected guard).1 (inert_of_guardLine ?_), quote_not_mem_new (by decide), hifndef⟩,
    ⟨idle_of_whole (defineLine_code expected guard).1 (inert_of_guardLine ?_), quote_not_mem_new (by decide), hdefine⟩,
    ⟨idle_of_blank isBlank_ending, quote_not_mem_ending, hending⟩,
    ⟨idle_of_whole (endifGuardLine_code expected guard).1 (inert_of_endifLine ?_), quote_not_mem_new (by decide), hendif⟩⟩
  · rw [guardLine_ifndefLine]
    exact Option.some_ne_none _
  · rw [guardLine_defineLine]
    exact Option.some_ne_none _
  · rw [endifLine_endifGuardLine]
    exact Option.some_ne_none _

/-- The rewrite of a guard adds and drops idle lines. -/
theorem Cut.respaced {top bottom : List Text} {first : Text} (h : Cut lines top first inner bottom)
    (hclear : Clear lines top (first :: inner) bottom) : Respaced .code lines
      (lines.take (preamble lines) ++ guarded expected guard.text (first :: inner)) := by
  obtain ⟨got, hrun, -⟩ := h.stops
  have htop : ∀ line ∈ top, Idle line := idle_of_nonblank fun line hline =>
    ⟨hclear.top line hline, inert_of_topRun hrun line hline⟩
  have hbottom : ∀ line ∈ bottom, Idle line := idle_of_nonblank fun line hline =>
    ⟨hclear.bottom line hline, inert_of_ends h.ends line hline⟩
  obtain ⟨hifndef, hdefine, hending, hendif⟩ := added_new expected guard
  have hfront : Respaced .code top [ifndefLine expected guard.text, defineLine expected guard.text,
      expected.text] := .swap htop (List.forall_mem_cons.mpr ⟨hifndef, List.forall_mem_cons.mpr
        ⟨hdefine, List.forall_mem_singleton.mpr hending⟩⟩)
  have hback : Respaced .code bottom [expected.text, endifGuardLine expected guard.text] :=
    .swap hbottom (List.forall_mem_cons.mpr ⟨hending, List.forall_mem_singleton.mpr hendif⟩)
  have hbody : Respaced .code (first :: inner ++ bottom)
      (first :: inner ++ [expected.text, endifGuardLine expected guard.text]) :=
    (Respaced.refl .code (first :: inner)).append (by rw [modeBehind_of_whole hclear.body]; exact hback)
  have hbehind := hfront.append (by rw [(Respaced.drops htop).mode_eq]; exact hbody)
  have hall := (Respaced.refl .code (lines.take (preamble lines))).append (by
    rw [modeBehind_of_whole hclear.before]; exact hbehind)
  rw [← h.eq, List.take_append_drop] at hall
  rw [guarded, List.append_assoc]
  exact hall

end Turf.Tidy
