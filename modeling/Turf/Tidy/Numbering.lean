import Mathlib.Data.List.Forall2
import Turf.Lib.History
import Turf.Tidy.Passes

/-!
# Ids

The lines of a category over all files get their ids as one list.
-/
namespace Turf.Tidy

open Turf.Lib.Pattern
open Turf.Lib.History

variable {line line' name : Text} {lines lines' : List Text} {files front : List (List Text)} {id : Nat}
  {expected : Ending} {orig : Log} {s : Statement}

/-! ## Lines of a category -/

/-- The lines behind the declarations of a category. -/
def behind (name : Text) (files : List (List Text)) : List Text :=
  files.flatMap fun lines => if (reading lines).name = some name then (reading lines).after else []

theorem behind_append (name : Text) (front files : List (List Text)) :
    behind name (front ++ files) = behind name front ++ behind name files := List.flatMap_append

theorem behind_cons (name : Text) (lines : List Text) (files : List (List Text)) :
    behind name (lines :: files) =
      (if (reading lines).name = some name then (reading lines).after else []) ++ behind name files :=
  List.flatMap_cons

theorem filterMap_behind {β : Type} (f : Text → Option β) (name : Text) (files : List (List Text)) :
    (behind name files).filterMap f = files.flatMap fun lines =>
      if (reading lines).name = some name then (reading lines).after.filterMap f else [] := by
  rw [behind, List.filterMap_flatMap]
  congr 1
  funext lines
  split
  · rfl
  · rfl

theorem messages_behind (name : Text) (files : List (List Text)) :
    (logOf files).messages name = messages (behind name files) := by
  rw [messages_logOf, messages, filterMap_behind]
  rfl

theorem statements_eq (name : Text) (files : List (List Text)) :
    statements name files = (behind name files).filterMap statementOf :=
  (filterMap_behind statementOf name files).symm

theorem messages_append (lines lines' : List Text) :
    messages (lines ++ lines') = messages lines ++ messages lines' := List.filterMap_append

/-! ## One line after the other -/

theorem messages_cons_none (h : search tracePattern line = none) (lines : List Text) :
    messages (line :: lines) = messages lines := by
  rw [messages, List.filterMap_cons_none (by rw [h]; rfl), messages]

theorem messages_cons_some {r : Text × Match} (h : search tracePattern line = some r)
    (lines : List Text) : messages (line :: lines) = group r.2 5 :: messages lines := by
  rw [messages, List.filterMap_cons_some (by rw [h]; rfl), messages]

theorem assign_cons_none (h : search tracePattern line = none) (pass : Pass) (name : Text) (id : Nat)
    (lines : List Text) : pass.assign name id (line :: lines) = line :: pass.assign name id lines := by
  rw [Pass.assign, h]

theorem assign_cons_some {r : Text × Match} (h : search tracePattern line = some r) (pass : Pass)
    (name : Text) (id : Nat) (lines : List Text) : pass.assign name id (line :: lines) =
      pass.statement name id line r :: pass.assign name (id + 1) lines := by
  rw [Pass.assign, h]

theorem assign_append (pass : Pass) (name : Text) (id : Nat) (lines lines' : List Text) :
    pass.assign name id (lines ++ lines') =
      pass.assign name id lines ++ pass.assign name (id + (messages lines).length) lines' := by
  induction lines generalizing id with
  | nil => rfl
  | cons line lines ih =>
    cases h : search tracePattern line with
    | none =>
      rw [List.cons_append, assign_cons_none h, assign_cons_none h, messages_cons_none h, ih]
      rfl
    | some r =>
      rw [List.cons_append, assign_cons_some h, assign_cons_some h, messages_cons_some h, ih,
        List.length_cons, Nat.add_assoc id 1, Nat.add_comm 1]
      rfl

/-- What the pattern of the statements finds, and what is written for it. -/
theorem assign_cons_found {r : Text × Match} (h : search tracePattern line = some r)
    (expected : Ending) (orig : Log) (name : Text) (lines : List Text) :
    ∃ before ws args msg tail, Found line before ws args msg tail ∧
      r = (before, [keyword, ws, ['('], args, ['"'], msg, ['"']]) ∧
      ∀ id, (Pass.second expected orig).assign name id (line :: lines) =
        rewritten name id before msg tail :: (Pass.second expected orig).assign name (id + 1) lines := by
  obtain ⟨before, m⟩ := r
  obtain ⟨ws, args, msg, tail, hfound, rfl⟩ := found_of_search h
  refine ⟨before, ws, args, msg, tail, hfound, rfl, fun id => ?_⟩
  rw [assign_cons_some h, hfound.second]

theorem assign_forall₂ (expected : Ending) (orig : Log) (name : Text) (id : Nat) (lines : List Text) :
    List.Forall₂ (Written name) lines ((Pass.second expected orig).assign name id lines) := by
  induction lines generalizing id with
  | nil => exact .nil
  | cons line lines ih =>
    cases h : search tracePattern line with
    | none =>
      rw [assign_cons_none h]
      exact .cons (.same h) (ih id)
    | some r =>
      obtain ⟨before, ws, args, msg, tail, hfound, rfl, hassign⟩ :=
        assign_cons_found h expected orig name lines
      rw [hassign]
      exact .cons (.rewritten id h hfound) (ih (id + 1))

theorem exists_of_mem_assign (h : line' ∈ (Pass.second expected orig).assign name id lines) :
    ∃ line ∈ lines, Written name line line' := by
  obtain ⟨i, hi, rfl⟩ := List.getElem_of_mem h
  have hall := List.forall₂_iff_get.mp (assign_forall₂ expected orig name id lines)
  have hi' : i < lines.length := by rw [hall.1]; exact hi
  exact ⟨lines[i], List.getElem_mem hi', hall.2 i hi' hi⟩

theorem search_isSome_of_statement (hline : OneLine line) (h : (statementOf line).isSome) :
    (search tracePattern line).isSome := by
  obtain ⟨s, hs⟩ := Option.isSome_iff_exists.mp h
  obtain ⟨before, m, hsearch, -⟩ := search_statement hline hs
  rw [hsearch]
  rfl

/-! ## Statements with ids -/

theorem restate_eq_assign (hline : OneLine line) (h : statementOf line = some s) (expected : Ending)
    (orig : Log) (name : Text) (id : Nat) (lines : List Text) :
    (Pass.second expected orig).assign name id (line :: lines) =
      restate name id line :: (Pass.second expected orig).assign name (id + 1) lines := by
  obtain ⟨before, m, hsearch, -, hwrite⟩ := search_statement hline h
  rw [assign_cons_some hsearch, hwrite]

theorem messages_cons_statement (hline : OneLine line) (h : statementOf line = some s) (lines : List Text) :
    messages (line :: lines) = taken s.literal :: messages lines := by
  obtain ⟨before, m, hsearch, hmessage, -⟩ := search_statement hline h
  rw [messages_cons_some hsearch, ← hmessage]

theorem messages_silent (h : Silent lines) (hlines : ∀ line ∈ lines, OneLine line) :
    messages lines = (lines.filterMap statementOf).map fun s => taken s.literal := by
  induction lines with
  | nil => rfl
  | cons line lines ih =>
    obtain ⟨hline, hlines⟩ := List.forall_mem_cons.mp hlines
    cases hs : statementOf line with
    | none =>
      rw [messages_cons_none (h.search_none hs), List.filterMap_cons_none hs, ih h.cons hlines]
    | some s =>
      rw [messages_cons_statement hline hs, List.filterMap_cons_some hs, ih h.cons hlines]
      rfl

/-- The statements get the ids from the first one on and keep their messages. -/
theorem statements_assign (h : Silent lines) (hlines : ∀ line ∈ lines, OneLine line)
    (hname : IsName name) (id : Nat) :
    (((Pass.second expected orig).assign name id lines).filterMap statementOf).map Statement.args =
        (List.range' id (lines.filterMap statementOf).length).map (argsText name) ∧
      (((Pass.second expected orig).assign name id lines).filterMap statementOf).map Statement.literal =
        (lines.filterMap statementOf).map Statement.literal := by
  induction lines generalizing id with
  | nil => exact ⟨rfl, rfl⟩
  | cons line lines ih =>
    obtain ⟨hline, hlines⟩ := List.forall_mem_cons.mp hlines
    cases hs : statementOf line with
    | none =>
      rw [assign_cons_none (h.search_none hs), List.filterMap_cons_none hs, List.filterMap_cons_none hs]
      exact ih h.cons hlines id
    | some s =>
      obtain ⟨hargs, hliteral⟩ := ih h.cons hlines (id + 1)
      rw [restate_eq_assign hline hs, List.filterMap_cons_some hs,
        List.filterMap_cons_some (statementOf_restate hs hname.word id), List.length_cons,
        List.range'_succ, List.map_cons, List.map_cons, List.map_cons, List.map_cons, hargs, hliteral]
      exact ⟨rfl, rfl⟩

theorem silent_assign (h : Silent lines) (hlines : ∀ line ∈ lines, OneLine line) (hname : IsName name)
    (id : Nat) : Silent ((Pass.second expected orig).assign name id lines) := by
  induction lines generalizing id with
  | nil => exact List.forall_mem_nil _
  | cons line lines ih =>
    obtain ⟨hline, hlines⟩ := List.forall_mem_cons.mp hlines
    cases hs : statementOf line with
    | none =>
      rw [assign_cons_none (h.search_none hs)]
      exact List.forall_mem_cons.mpr ⟨h line (List.mem_cons_self ..), ih h.cons hlines id⟩
    | some s =>
      rw [restate_eq_assign hline hs]
      refine List.forall_mem_cons.mpr ⟨fun _ => ?_, ih h.cons hlines (id + 1)⟩
      rw [statementOf_restate hs hname.word]
      rfl

/-- The same ids again change nothing. -/
theorem assign_assign (h : Silent lines) (hlines : ∀ line ∈ lines, FeedLine line) (hname : IsName name)
    {orig' : Log} (id : Nat) : (Pass.second expected orig').assign name id
      ((Pass.second expected orig).assign name id lines) =
        (Pass.second expected orig).assign name id lines := by
  induction lines generalizing id with
  | nil => rfl
  | cons line lines ih =>
    obtain ⟨hline, hlines⟩ := List.forall_mem_cons.mp hlines
    cases hs : statementOf line with
    | none =>
      have hnone := h.search_none hs
      rw [assign_cons_none hnone, assign_cons_none hnone, ih h.cons hlines]
    | some s =>
      have hfeed : FeedLine (restate name id line) := by
        obtain ⟨before, m, hsearch, -, hwrite⟩ := search_statement hline.oneLine hs
        obtain ⟨ws, args, msg, tail, hfound, rfl⟩ := found_of_search hsearch
        rw [← hwrite expected orig name id, hfound.second]
        exact hfound.feedLine hline hname id
      rw [restate_eq_assign hline.oneLine hs, restate_eq_assign hfeed.oneLine
        (statementOf_restate hs hname.word id), restate_restate hs hname.word, ih h.cons hlines]

theorem live_of_statement (h : (statementOf line).isSome) : live line = true := by
  by_contra hlive
  rw [Bool.not_eq_true, live_eq_false] at hlive
  rw [hlive.no_statement] at h
  cases h

/-! ## All files -/

/-- The files that the second pass writes. -/
def renewedFiles (expected : Ending) (orig : Log) (front files : List (List Text)) : List (List Text) :=
  mapFrom (fun front lines => renewed expected orig (logOf front) lines) front files

theorem name_renewed (expected : Ending) (orig log : Log) (lines : List Text) :
    (reading (renewed expected orig log lines)).name = (reading lines).name := by
  cases h : (reading lines).declaration with
  | none => rw [renewed_none h]
  | some d =>
    obtain ⟨name, decl⟩ := d
    rw [Reading.name, reading_renewed h, Reading.name, h]
    rfl

/-- The ids of a category go on from file to file. -/
theorem behind_renewedFiles (expected : Ending) (orig : Log) (name : Text)
    (front files : List (List Text)) : behind name (renewedFiles expected orig front files) =
      (Pass.second expected orig).assign name (messages (behind name front)).length (behind name files) := by
  induction files generalizing front with
  | nil => rfl
  | cons lines files ih =>
    have hfront : behind name (front ++ [lines]) = behind name front ++
        if (reading lines).name = some name then (reading lines).after else [] := by
      rw [behind_append]
      exact congrArg _ (List.flatMap_singleton ..)
    have hrest := ih (front ++ [lines])
    rw [hfront, messages_append, List.length_append] at hrest
    rw [behind_cons, assign_append, ← hrest]
    show behind name (renewed expected orig (logOf front) lines :: _) = _
    rw [behind_cons, name_renewed]
    split
    · next hname =>
      obtain ⟨⟨name', decl⟩, hdecl, rfl⟩ := Option.map_eq_some_iff.mp hname
      rw [reading_renewed hdecl, messages_behind]
      rfl
    · rfl

end Turf.Tidy
