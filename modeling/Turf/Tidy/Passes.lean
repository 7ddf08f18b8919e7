import Turf.Tidy.Readings
import Turf.Tidy.Rewrites

/-!
# Passes over lines and files

What both passes do to a file with one declaration of a category, and what they log of all files.
-/
namespace Turf.Tidy

open Turf.Lib.Pattern

variable {line name : Text} {lines before after decl : List Text} {pass : Pass} {log : Log}

/-! ## Lines -/

/-- The messages that are found in lines behind a declaration. -/
def messages (lines : List Text) : List Text :=
  lines.filterMap fun line => (search tracePattern line).map fun r => group r.2 5

/-- Lines behind a declaration with ids from a first one on. -/
def Pass.assign (pass : Pass) (name : Text) : Nat → List Text → List Text
  | _, [] => []
  | id, line :: lines =>
    match search tracePattern line with
    | some r => pass.statement name id line r :: pass.assign name (id + 1) lines
    | none => line :: pass.assign name id lines

/-- What becomes of a declaration. -/
def Pass.redeclare (pass : Pass) (name : Text) (decl : List Text) : Option (List Text) :=
  if Reading.IsBlock decl then pass.block name decl else pass.declare name (decl.headD [])

theorem tidyTraces_before (h : ∀ line ∈ before, declareLine line = none ∧ beginLine line = none)
    (pass : Pass) (log : Log) (lines : List Text) : tidyTraces pass 0 none log (before ++ lines) =
      (tidyTraces pass 0 none log lines).map fun r => (before ++ r.1, r.2) := by
  induction before with
  | nil =>
    rw [List.nil_append]
    exact Option.map_id'.symm
  | cons line before ih =>
    obtain ⟨⟨hdeclare, hbegin⟩, hbefore⟩ := List.forall_mem_cons.mp h
    rw [List.cons_append, tidyTraces, hdeclare, hbegin]
    show Option.map _ (tidyTraces pass 0 none log (before ++ lines)) = _
    rw [ih hbefore, Option.map_map]
    rfl

/-- The lines of a block were written with its first one. -/
theorem tidyTraces_skip (pass : Pass) (category : Option Text) (log : Log) (more lines : List Text) :
    tidyTraces pass more.length category log (more ++ lines) = tidyTraces pass 0 category log lines := by
  induction more with
  | nil => rfl
  | cons line more ih =>
    rw [List.length_cons, List.cons_append, tidyTraces]
    exact ih

/-- Only statements are found. -/
def Silent (lines : List Text) : Prop :=
  ∀ line ∈ lines, (search tracePattern line).isSome → (statementOf line).isSome

theorem Silent.cons (h : Silent (line :: lines)) : Silent lines :=
  fun line' hline' => h line' (List.mem_cons_of_mem _ hline')

theorem Silent.search_none (h : Silent (line :: lines)) (hs : statementOf line = none) :
    search tracePattern line = none := by
  by_contra hsome
  have hstatement := h line (List.mem_cons_self ..) (Option.isSome_iff_ne_none.mpr hsome)
  rw [hs] at hstatement
  cases hstatement

/-- Every message behind a declaration gets the next id. Another declaration is left as it is. -/
theorem tidyTraces_after {found : List Text} (hlog : log name = some found) (h : Silent lines) :
    tidyTraces pass 0 (some name) log lines = some (pass.assign name found.length lines,
      Function.update log name (some (found ++ messages lines))) := by
  induction lines generalizing log found with
  | nil =>
    rw [tidyTraces, Pass.assign, messages, List.filterMap_nil, List.append_nil, ← hlog,
      Function.update_eq_self]
  | cons line lines ih =>
    have hmessages : log.messages name = found := by rw [Log.messages, hlog]; rfl
    rw [tidyTraces, Pass.assign, messages]
    cases hs : search tracePattern line with
    | none =>
      rw [List.filterMap_cons_none (by rw [hs]; rfl), ite_id]
      show Option.map _ (tidyTraces pass 0 (some name) log lines) = _
      rw [ih hlog h.cons]
      rfl
    | some r =>
      obtain ⟨front, m⟩ := r
      have hadd : log.add name [group m 5] name = some (found ++ [group m 5]) := by
        rw [Log.add, Function.update_self, hmessages]
      -- A statement is no declaration.
      have hdeclared : ¬ ((declareLine line).isSome ∨ (beginLine line).isSome) := by
        obtain ⟨s, hstatement⟩ := Option.isSome_iff_exists.mp
          (h line (List.mem_cons_self ..) (by rw [hs]; rfl))
        obtain ⟨hdeclare, hbegin, -⟩ := no_declaration_of_statement hstatement
        simp [hdeclare, hbegin]
      rw [if_neg hdeclared, List.filterMap_cons_some (by rw [hs]; rfl)]
      show Option.map _ (tidyTraces pass 0 (some name) (log.add name [group m 5]) lines) = _
      rw [ih hadd h.cons, Option.map_some, hmessages, List.length_append, List.length_singleton,
        List.append_assoc, Log.add, Function.update_idem]
      rfl

theorem tidyTraces_none (h : (reading lines).declaration = none) (pass : Pass) (log : Log) :
    tidyTraces pass 0 none log lines = some (lines, log) := by
  obtain ⟨hbefore, ⟨-, heq, -⟩ | ⟨name, first, more, hsome, -⟩⟩ := reading_spec lines
  · rw [heq]
    have hrun := tidyTraces_before hbefore pass log []
    rw [List.append_nil] at hrun
    rw [hrun, tidyTraces, Option.map_some, List.append_nil]
  · rw [hsome] at h
    cases h

theorem tidyTraces_eq (hclosed : (reading lines).Closed) (hsilent : Silent (reading lines).after)
    (h : (reading lines).declaration = some (name, decl)) (pass : Pass) (log : Log) :
    tidyTraces pass 0 none log lines = (pass.redeclare name decl).map fun new =>
      ((reading lines).before ++ (new ++
        pass.assign name (log.messages name).length (reading lines).after),
        log.add name (messages (reading lines).after)) := by
  obtain ⟨hbefore, ⟨hnone, -, -⟩ | ⟨name', first, more, hsome, heq, hkind⟩⟩ := reading_spec lines
  · rw [hnone] at h
    cases h
  rw [hsome] at h
  cases h
  generalize (reading lines).before = before at *
  generalize (reading lines).after = after at *
  have hadd : log.add name [] name = some (log.messages name) := by
    rw [Log.add, Function.update_self, List.append_nil]
  have hafter : tidyTraces pass 0 (some name) (log.add name []) after =
      some (pass.assign name (log.messages name).length after, log.add name (messages after)) := by
    rw [tidyTraces_after hadd hsilent, Log.add, Function.update_idem]
    rfl
  rw [heq, tidyTraces_before hbefore, List.cons_append, tidyTraces, Pass.redeclare]
  rcases hkind with ⟨hdeclare, rfl⟩ | ⟨hdeclare, hbegin, hlength⟩
  · rw [hdeclare, if_neg (show ¬ Reading.IsBlock [first] from by simp [Reading.IsBlock])]
    show ((pass.declare name first).bind fun new =>
      (tidyTraces pass 0 (some name) (log.add name []) after).map _).map _ =
        (pass.declare name first).map _
    rw [hafter]
    cases pass.declare name first with
    | none => rfl
    | some new => rfl
  · have hblock : Reading.IsBlock (first :: more) := by
      cases more with
      | nil =>
        rw [hclosed name first hsome] at hbegin
        cases hbegin
      | cons line more => simp [Reading.IsBlock]
    rw [hdeclare, hbegin, if_pos hblock, ← hlength, List.take_left]
    show ((pass.block name (first :: more)).bind fun new =>
      (tidyTraces pass more.length (some name) (log.add name []) (more ++ after)).map _).map _ = _
    rw [tidyTraces_skip, hafter]
    cases pass.block name (first :: more) with
    | none => rfl
    | some new => rfl

/-! ## Files -/

/-- What is logged of files. -/
def logOf (files : List (List Text)) : Log := fun name =>
  if ∃ lines ∈ files, (reading lines).name = some name then
    some (files.flatMap fun lines =>
      if (reading lines).name = some name then messages (reading lines).after else [])
  else none

theorem logOf_nil : logOf [] = Log.start := rfl

variable {files : List (List Text)}

theorem messages_logOf (files : List (List Text)) (name : Text) : (logOf files).messages name =
    files.flatMap fun lines =>
      if (reading lines).name = some name then messages (reading lines).after else [] := by
  rw [Log.messages, logOf]
  split
  · rfl
  · next h =>
    refine (List.flatMap_eq_nil_iff.mpr fun lines hlines => ?_).symm
    rw [if_neg fun hname => h ⟨lines, hlines, hname⟩]

theorem logOf_concat_none (h : (reading lines).name = none) :
    logOf (files ++ [lines]) = logOf files := by
  funext name
  have hname : (reading lines).name ≠ some name := by simp [h]
  have hmem : (∃ l ∈ files ++ [lines], (reading l).name = some name) ↔
      ∃ l ∈ files, (reading l).name = some name := by
    simp [List.mem_append, or_and_right, exists_or, hname]
  rw [logOf, logOf, if_congr hmem rfl rfl, List.flatMap_append, List.flatMap_singleton, if_neg hname,
    List.append_nil]

theorem logOf_concat_some (h : (reading lines).name = some name) :
    logOf (files ++ [lines]) = (logOf files).add name (messages (reading lines).after) := by
  funext other
  rw [Log.add, messages_logOf]
  by_cases hother : other = name
  · subst hother
    rw [Function.update_self, logOf, if_pos ⟨lines, by simp, h⟩, List.flatMap_append,
      List.flatMap_singleton, if_pos h]
  · have hname : (reading lines).name ≠ some other := by
      rw [h]
      exact fun heq => hother (Option.some.inj heq).symm
    have hmem : (∃ l ∈ files ++ [lines], (reading l).name = some other) ↔
        ∃ l ∈ files, (reading l).name = some other := by
      simp [List.mem_append, or_and_right, exists_or, hname]
    rw [Function.update_of_ne hother, logOf, logOf, if_congr hmem rfl rfl, List.flatMap_append,
      List.flatMap_singleton, if_neg hname, List.append_nil]

/-! ## The second pass over a file -/

section Second

variable {expected : Ending} {orig : Log} {found : List Text}

/-- The declaration that the second pass writes. -/
def redeclared (expected : Ending) (name : Text) (found decl : List Text) : List Text :=
  if Reading.IsBlock decl then
    beginText expected name found.length :: found.map (entryText expected) ++
      [endText expected name found.length]
  else [declareText expected name found.length]

theorem redeclare_second (h : orig name = some found) (decl : List Text) :
    (Pass.second expected orig).redeclare name decl = some (redeclared expected name found decl) := by
  rw [Pass.redeclare, redeclared, Pass.block, Pass.declare, h]
  split
  · rfl
  · rfl

/-- The lines that the second pass writes. -/
def renewed (expected : Ending) (orig log : Log) (lines : List Text) : List Text :=
  match (reading lines).declaration with
  | none => lines
  | some (name, decl) => (reading lines).before ++
      (redeclared expected name (orig.messages name) decl ++
        (Pass.second expected orig).assign name (log.messages name).length (reading lines).after)

theorem renewed_none (h : (reading lines).declaration = none) : renewed expected orig log lines = lines := by
  rw [renewed, h]

theorem renewed_some (h : (reading lines).declaration = some (name, decl)) :
    renewed expected orig log lines = (reading lines).before ++
      (redeclared expected name (orig.messages name) decl ++
        (Pass.second expected orig).assign name (log.messages name).length (reading lines).after) := by
  rw [renewed, h]

theorem tidyTraces_first (hclosed : (reading lines).Closed) (hsilent : Silent (reading lines).after) :
    (tidyTraces .first 0 none (logOf files) lines).map (fun r => r.2) =
      some (logOf (files ++ [lines])) := by
  cases h : (reading lines).declaration with
  | none =>
    rw [tidyTraces_none h, logOf_concat_none (by rw [Reading.name, h]; rfl)]
    rfl
  | some d =>
    obtain ⟨name, decl⟩ := d
    have hsome : ∃ new, Pass.first.redeclare name decl = some new := by
      rw [Pass.redeclare]
      split
      · exact ⟨decl, rfl⟩
      · exact ⟨[decl.headD []], rfl⟩
    obtain ⟨new, hnew⟩ := hsome
    have hname : (reading lines).name = some name := by rw [Reading.name, h]; rfl
    rw [tidyTraces_eq hclosed hsilent h, hnew, logOf_concat_some hname]
    rfl

theorem tidyTraces_second (hclosed : (reading lines).Closed) (hsilent : Silent (reading lines).after)
    (horig : ∀ name, (reading lines).name = some name → orig name ≠ none) :
    tidyTraces (.second expected orig) 0 none (logOf files) lines =
      some (renewed expected orig (logOf files) lines, logOf (files ++ [lines])) := by
  cases h : (reading lines).declaration with
  | none =>
    rw [tidyTraces_none h, renewed_none h, logOf_concat_none (by rw [Reading.name, h]; rfl)]
  | some d =>
    obtain ⟨name, decl⟩ := d
    have hname : (reading lines).name = some name := by rw [Reading.name, h]; rfl
    obtain ⟨found, hfound⟩ := Option.ne_none_iff_exists'.mp (horig name hname)
    have hmessages : orig.messages name = found := by rw [Log.messages, hfound]; rfl
    rw [tidyTraces_eq hclosed hsilent h, redeclare_second hfound, renewed_some h, hmessages,
      logOf_concat_some hname]
    rfl

/-! ## What is read again -/

theorem isName_of_reading (h : (reading lines).declaration = some (name, decl)) : IsName name := by
  obtain ⟨-, ⟨hnone, -⟩ | ⟨name', first, more, hsome, -, hkind⟩⟩ := reading_spec lines
  · rw [hnone] at h
    cases h
  · rw [hsome] at h
    cases h
    rcases hkind with ⟨hdeclare, -⟩ | ⟨-, hbegin, -⟩
    · exact isName_of_declareLine hdeclare
    · exact isName_of_beginLine hbegin

theorem isBlock_redeclared : Reading.IsBlock (redeclared expected name found decl) ↔
    Reading.IsBlock decl := by
  rw [redeclared]
  split
  · next h => simp [Reading.IsBlock] at h ⊢; omega
  · next h => simp [Reading.IsBlock] at h ⊢; omega

theorem redeclared_redeclared : redeclared expected name found (redeclared expected name found decl) =
    redeclared expected name found decl := by
  conv_lhs => rw [redeclared, if_congr isBlock_redeclared rfl rfl]
  rfl

theorem reading_redeclared (hname : IsName name) (found decl after : List Text) :
    reading (redeclared expected name found decl ++ after) =
      ⟨[], some (name, redeclared expected name found decl), after⟩ := by
  have hentries : ∀ line ∈ found.map (entryText expected), isEnd line = false := by
    intro line hline
    obtain ⟨desc, -, rfl⟩ := List.mem_map.mp hline
    exact isEnd_entryText
  rw [redeclared]
  split
  · rw [List.cons_append, List.cons_append, List.append_assoc,
      reading_block declareLine_beginText (beginLine_beginText hname) hentries isEnd_endText]
  · exact reading_declare (declareLine_declareText hname) after

/-- The written lines are read as before, with another declaration and with ids. -/
theorem reading_renewed (h : (reading lines).declaration = some (name, decl)) :
    reading (renewed expected orig log lines) = ⟨(reading lines).before,
      some (name, redeclared expected name (orig.messages name) decl),
      (Pass.second expected orig).assign name (log.messages name).length (reading lines).after⟩ := by
  have hbefore := (reading_spec lines).1
  rw [renewed_some h, reading_append hbefore, reading_redeclared (isName_of_reading h), List.append_nil]

end Second

end Turf.Tidy
