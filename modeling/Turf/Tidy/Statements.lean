import Turf.Tidy.Directives
import Turf.Tidy.Sweeper

/-!
# Trace statements

What a compiler makes of the lines of a file: statements with a string literal as message, and one
declaration of their category, which is a TURF_TRACE_DECLARE or a definition block.
-/
namespace Turf.Tidy

open Turf.Lib.Pattern
open Turf.Lib.Lexing

/-- The code of each line of a file, without comments. -/
def view (lines : List Text) : List Text := codes .code (lines.map withoutEnding)

/-! ## String literals -/

/-- The rest of a string literal and what is behind its quote. -/
def lexLiteral : Text → Option (Text × Text)
  | [] => none
  | '"' :: text => some ([], text)
  | ['\\'] => none
  | '\\' :: c :: text => (lexLiteral text).map fun r => ('\\' :: c :: r.1, r.2)
  | c :: text => (lexLiteral text).map fun r => (c :: r.1, r.2)

/-- What a statement has between its parenthesis and its message, and the message. -/
structure Statement where
  args : Text
  literal : Text
  deriving DecidableEq

def keyword : Text := "TURF_TRACE".toList

/-- A statement has a line to itself and one string literal as message. -/
def statementOf (line : Text) : Option Statement :=
  let text := line.dropWhile isSpace
  if keyword <+: text then
    match (text.drop keyword.length).dropWhile isSpace with
    | '(' :: text =>
      match text.dropWhile (· != '"') with
      | _ :: text' =>
        match lexLiteral text' with
        | some (literal, rest) =>
          -- Two literals side by side are one message.
          if (rest.dropWhile isSpace).head? = some '"' then none
          else some ⟨text.takeWhile (· != '"'), literal⟩
        | none => none
      | [] => none
    | _ => none
  else none

/-! ## Files -/

/-- The lines before a declaration, the name of the category with the lines of the declaration, and
the lines behind it. -/
structure Reading where
  before : List Text
  declaration : Option (Text × List Text)
  after : List Text

/-- A definition block without an end has its first line only. -/
def reading : List Text → Reading
  | [] => ⟨[], none, []⟩
  | line :: lines =>
    match declareLine line with
    | some name => ⟨[], some (name, [line]), lines⟩
    | none =>
      match beginLine line with
      | some name => ⟨[], some (name, line :: lines.take (blockLength lines)),
          lines.drop (blockLength lines)⟩
      | none => { reading lines with before := line :: (reading lines).before }

namespace Reading

def name (r : Reading) : Option Text := r.declaration.map Prod.fst

def statements (r : Reading) : List Statement := r.after.filterMap statementOf

/-- A declaration is a definition block if it has more than one line. -/
def IsBlock (decl : List Text) : Prop := 1 < decl.length

def isBlock (r : Reading) : Bool := r.declaration.any fun d => decide (1 < d.2.length)

/-- A definition block has an end. -/
def Closed (r : Reading) : Prop :=
  ∀ name first, r.declaration = some (name, [first]) → beginLine first = none

/-- A category is declared before it is used, once, and a definition block has an end. -/
structure Declared (r : Reading) : Prop where
  before : ∀ line ∈ r.before, statementOf line = none
  once : ∀ line ∈ r.after, declareLine line = none ∧ beginLine line = none
  closed : r.Closed

end Reading

/-! ## Statements of all files -/

/-- The statements of a category in the order of the files. -/
def statements (name : Text) (files : List (List Text)) : List Statement :=
  files.flatMap fun lines =>
    if (reading lines).name = some name then (reading lines).statements else []

/-- A line without the space at its end. -/
def trimmed (line : Text) : Text := line.rdropWhile isSpace

/-- A macro about a category and a number. -/
def countText (word name : Text) (count : Nat) : Text :=
  word ++ '(' :: (name ++ ',' :: ' ' :: (decimal count ++ [')']))

def messageText (literal : Text) : Text := "TURF_TRACE_DEFINE(\"".toList ++ (literal ++ ['"', ')'])

/-- The declaration carries the count, and the entries of a definition block are the messages of the
statements with these ids. -/
def Carries (name : Text) (numbered : List (Nat × Statement)) (decl : List Text) : Prop :=
  decl.map trimmed = [countText "TURF_TRACE_DECLARE".toList name numbered.length] ∨
  ∃ entries, decl.map trimmed =
      countText "TURF_TRACE_DEFINE_BEGIN".toList name numbered.length :: entries ++
        [countText "TURF_TRACE_DEFINE_END".toList name numbered.length] ∧
    entries.length = numbered.length ∧
    ∀ id s, (id, s) ∈ numbered → entries[id]? = some (messageText s.literal)

/-- The statements of the category carry the ids below their number, each once, and each declaration
of it is in step with them. -/
def Numbered (files : List (List Text)) (name : Text) : Prop :=
  ∃ ids : List Nat, ids.Perm (List.range (statements name files).length) ∧
    (statements name files).map Statement.args = ids.map (argsText name) ∧
    ∀ lines ∈ files, ∀ decl, (reading lines).declaration = some (name, decl) →
      Carries name (ids.zip (statements name files)) decl

/-- A line with another text between the parenthesis and the message. -/
def restate (name : Text) (id : Nat) (line : Text) : Text :=
  line.takeWhile isSpace ++ (keyword ++ '(' :: (argsText name id ++ line.dropWhile (· != '"')))

/-! ## Reading literals -/

variable {text rest literal line r r' ws indent : Text} {s : Statement}

theorem lexLiteral_cons {c : Char} (hquote : c ≠ '"') (hescape : c ≠ '\\') (text : Text) :
    lexLiteral (c :: text) = (lexLiteral text).map fun r => (c :: r.1, r.2) := by
  rw [lexLiteral]
  · exact fun h => hquote h
  · exact fun h _ => hescape h
  · exact fun _ _ h _ => hescape h

theorem lexLiteral_none (h : '"' ∉ text) : lexLiteral text = none := by
  induction text using lexLiteral.induct with
  | case1 | case3 => rfl
  | case2 text => simp at h
  | case4 c text ih =>
    rw [lexLiteral, ih fun hmem => h (by simp [hmem])]
    rfl
  | case5 c text hquote hlast hescape ih =>
    rw [lexLiteral, ih fun hmem => h (List.mem_cons_of_mem _ hmem)]
    · rfl
    all_goals assumption

/-- A literal is what stands before its quote. -/
theorem lexLiteral_spec (h : lexLiteral text = some (literal, rest)) :
    text = literal ++ '"' :: rest := by
  induction text using lexLiteral.induct generalizing literal rest with
  | case1 | case3 => cases h
  | case2 text =>
    cases h
    rfl
  | case4 c text ih =>
    rw [lexLiteral] at h
    obtain ⟨⟨literal', rest'⟩, htext, hpair⟩ := Option.map_eq_some_iff.mp h
    cases hpair
    rw [ih htext]
    rfl
  | case5 c text hquote hlast hescape ih =>
    rw [lexLiteral] at h
    · obtain ⟨⟨literal', rest'⟩, htext, hpair⟩ := Option.map_eq_some_iff.mp h
      cases hpair
      rw [ih htext]
      rfl
    all_goals assumption

/-- What follows the text has no quote and does not matter. -/
theorem lexLiteral_append (text : Text) (hr : '"' ∉ r) :
    lexLiteral (text ++ r) = (lexLiteral text).map fun x => (x.1, x.2 ++ r) := by
  induction text using lexLiteral.induct with
  | case1 => exact lexLiteral_none hr
  | case2 text => rfl
  | case3 =>
    cases r with
    | nil => rfl
    | cons c r =>
      show (lexLiteral r).map _ = none
      rw [lexLiteral_none fun h => hr (List.mem_cons_of_mem _ h)]
      rfl
  | case4 c text ih =>
    show (lexLiteral (text ++ r)).map _ = _
    rw [ih, lexLiteral, Option.map_map, Option.map_map]
    rfl
  | case5 c text hquote hlast hescape ih =>
    have hbackslash : c ≠ '\\' := by
      intro hc
      cases text with
      | nil => exact hlast hc rfl
      | cons d text => exact hescape d text hc rfl
    rw [List.cons_append, lexLiteral_cons hquote hbackslash, lexLiteral_cons hquote hbackslash, ih,
      Option.map_map, Option.map_map]
    rfl

/-! ## Statements in their lines -/

/-- What a line with a statement looks like. -/
structure IsStatement (line : Text) (s : Statement) (indent ws rest : Text) : Prop where
  eq : line = indent ++ (keyword ++ (ws ++ '(' :: (s.args ++ '"' :: (s.literal ++ '"' :: rest))))
  indent : ∀ c ∈ indent, isSpace c
  ws : ∀ c ∈ ws, isSpace c
  args : '"' ∉ s.args
  literal : lexLiteral (s.literal ++ '"' :: rest) = some (s.literal, rest)
  rest : (rest.dropWhile isSpace).head? ≠ some '"'

theorem IsStatement.found (h : IsStatement line s indent ws rest) : statementOf line = some s := by
  have hindent : line.dropWhile isSpace =
      keyword ++ (ws ++ '(' :: (s.args ++ '"' :: (s.literal ++ '"' :: rest))) := by
    rw [h.eq]
    apply (dropWhile_of_head h.indent _).2
    intro c hc
    cases hc
    rfl
  have hws := (dropWhile_of_head h.ws (b := '(' :: (s.args ++ '"' :: (s.literal ++ '"' :: rest)))
    (by intro c hc; cases hc; rfl)).2
  have hargs := dropWhile_of_head (p := (· != '"')) (a := s.args) (b := '"' :: (s.literal ++ '"' :: rest))
    (fun c hc => bne_iff_ne.mpr fun heq => h.args (heq ▸ hc)) (by intro c hc; cases hc; rfl)
  rw [statementOf, hindent, if_pos (List.prefix_append _ _), List.drop_left, hws]
  simp only [hargs.1, hargs.2, h.literal, if_neg h.rest]

theorem dropWhile_quote {c : Char} (h : text.dropWhile (· != '"') = c :: rest) : c = '"' := by
  have hhead := List.head?_dropWhile_not (· != '"') text
  rw [h] at hhead
  simpa using hhead

theorem isStatement_of_statementOf (h : statementOf line = some s) :
    ∃ indent ws rest, IsStatement line s indent ws rest := by
  rw [statementOf] at h
  split at h
  · next hprefix =>
    split at h
    · next text hparen =>
      split at h
      · next c text' hquote =>
        split at h
        · next literal rest hlex =>
          split at h
          · cases h
          · next hrest =>
            cases h
            obtain rfl := dropWhile_quote hquote
            have hargs : text = text.takeWhile (· != '"') ++ '"' :: (literal ++ '"' :: rest) := by
              rw [← lexLiteral_spec hlex, ← hquote, List.takeWhile_append_dropWhile]
            obtain ⟨tail, htail⟩ := hprefix
            rw [← htail, List.drop_left] at hparen
            have hws : tail = tail.takeWhile isSpace ++ '(' :: text := by
              rw [← hparen, List.takeWhile_append_dropWhile]
            refine ⟨line.takeWhile isSpace, tail.takeWhile isSpace, rest, ?_,
              fun c hc => List.mem_takeWhile_imp hc, fun c hc => List.mem_takeWhile_imp hc, ?_, ?_,
              hrest⟩
            · rw [← hargs, ← hws, htail, List.takeWhile_append_dropWhile]
            · intro hmem
              have hne := List.mem_takeWhile_imp hmem
              simp at hne
            · rw [← lexLiteral_spec hlex]
              exact hlex
        · cases h
      · cases h
    · cases h
  · cases h

theorem IsStatement.takeWhile_eq (h : IsStatement line s indent ws rest) :
    line.takeWhile isSpace = indent := by
  rw [h.eq]
  apply (dropWhile_of_head h.indent _).1
  intro c hc
  cases hc
  rfl

theorem keyword_no_quote : '"' ∉ keyword := by decide

theorem space_no_quote (h : ∀ c ∈ ws, isSpace c) : '"' ∉ ws := fun hmem => absurd (h _ hmem) (by decide)

/-- The first quote in the line is that of the message. -/
theorem IsStatement.dropWhile_eq (h : IsStatement line s indent ws rest) :
    line.dropWhile (· != '"') = '"' :: (s.literal ++ '"' :: rest) := by
  have hfront : '"' ∉ indent ++ (keyword ++ (ws ++ '(' :: s.args)) := by
    simp only [List.mem_append, List.mem_cons, not_or]
    exact ⟨space_no_quote h.indent, keyword_no_quote, space_no_quote h.ws, by decide, h.args⟩
  have hline : line = indent ++ (keyword ++ (ws ++ '(' :: s.args)) ++
      '"' :: (s.literal ++ '"' :: rest) := by
    rw [h.eq]
    simp only [List.append_assoc, List.cons_append]
  rw [hline]
  apply (dropWhile_of_head _ _).2
  · exact fun c hc => bne_iff_ne.mpr fun heq => hfront (heq ▸ hc)
  · intro c hc
    cases hc
    rfl

/-! ## New ids -/

variable {name : Text} {id id' : Nat}

theorem argsText_no_quote (hname : ∀ c ∈ name, isWord c) (id : Nat) : '"' ∉ argsText name id := by
  intro hmem
  rw [argsText, List.mem_append, List.mem_append, List.mem_append] at hmem
  rcases hmem with ((hmem | hmem) | hmem) | hmem
  · exact absurd (hname _ hmem) (by decide)
  · exact absurd hmem (by decide)
  · exact absurd (Nat.isDigit_of_mem_toDigits (by omega) (by omega) hmem) (by decide)
  · exact absurd hmem (by decide)

/-- Another text between the parenthesis and the message leaves the message as it is. -/
theorem IsStatement.restated (h : IsStatement line s indent ws rest) (hname : ∀ c ∈ name, isWord c)
    (id : Nat) :
    IsStatement (restate name id line) ⟨argsText name id, s.literal⟩ indent [] rest where
  eq := by
    rw [restate, h.takeWhile_eq, h.dropWhile_eq]
    rfl
  indent := h.indent
  ws := fun c hc => by cases hc
  args := argsText_no_quote hname id
  literal := h.literal
  rest := h.rest

theorem statementOf_restate (h : statementOf line = some s) (hname : ∀ c ∈ name, isWord c) (id : Nat) :
    statementOf (restate name id line) = some ⟨argsText name id, s.literal⟩ := by
  obtain ⟨indent, ws, rest, h⟩ := isStatement_of_statementOf h
  exact (h.restated hname id).found

theorem restate_restate (h : statementOf line = some s) (hname : ∀ c ∈ name, isWord c) :
    restate name id (restate name id' line) = restate name id line := by
  obtain ⟨indent, ws, rest, h⟩ := isStatement_of_statementOf h
  rw [restate, (h.restated hname id').takeWhile_eq, (h.restated hname id').dropWhile_eq, restate,
    h.takeWhile_eq, h.dropWhile_eq]

/-! ## Statements and line endings -/

theorem head?_dropWhile_append (hr : ∀ c ∈ r, isSpace c) :
    ((text ++ r).dropWhile isSpace).head? = (text.dropWhile isSpace).head? := by
  rw [List.dropWhile_append]
  split
  · next hnil => rw [List.isEmpty_iff.mp hnil, List.dropWhile_eq_nil_iff.mpr hr]
  · next hne =>
    cases hdrop : text.dropWhile isSpace with
    | nil => exact absurd (List.isEmpty_iff.mpr hdrop) hne
    | cons c text => rfl

theorem statementOf_ending_some {content : Text} (hr : ∀ c ∈ r, isReturn c)
    (hr' : ∀ c ∈ r', isReturn c) (h : statementOf (content ++ r) = some s) :
    statementOf (content ++ r') = some s := by
  have hquote : ∀ {t : Text}, (∀ c ∈ t, isReturn c) → '"' ∉ t :=
    fun ht hmem => absurd (ht _ hmem) (by decide)
  obtain ⟨indent, ws, rest, h⟩ := isStatement_of_statementOf h
  -- The quotes are all in the content.
  obtain ⟨u, hcontent, rfl⟩ : ∃ u, content = indent ++ (keyword ++ (ws ++ '(' :: (s.args ++
      '"' :: (s.literal ++ '"' :: u)))) ∧ rest = u ++ r := by
    have heq : content ++ r = indent ++ (keyword ++ (ws ++ '(' :: (s.args ++
        '"' :: s.literal))) ++ ['"'] ++ rest := by
      rw [h.eq]
      simp only [List.append_assoc, List.cons_append, List.nil_append]
    rcases List.append_eq_append_iff.mp heq with ⟨u, hfront, hrest⟩ | ⟨u, hfront, hrest⟩
    · cases u using List.reverseRecOn with
      | nil =>
        refine ⟨[], ?_, hrest.symm⟩
        rw [List.append_nil] at hfront
        rw [← hfront]
        simp only [List.append_assoc, List.cons_append]
      | append_singleton u c =>
        have hlast := congrArg List.getLast? hfront
        rw [List.getLast?_concat, ← List.append_assoc, List.getLast?_concat] at hlast
        cases hlast
        refine absurd ?_ (hquote hr)
        rw [hrest]
        simp
    · refine ⟨u, ?_, hrest⟩
      rw [hfront]
      simp only [List.append_assoc, List.cons_append, List.nil_append]
  have hlex : lexLiteral (s.literal ++ '"' :: u) = some (s.literal, u) := by
    have happend := lexLiteral_append (s.literal ++ '"' :: u) (hquote hr)
    have hliteral := h.literal
    rw [← List.cons_append, ← List.append_assoc, happend] at hliteral
    obtain ⟨⟨literal, u'⟩, hlex, hpair⟩ := Option.map_eq_some_iff.mp hliteral
    cases List.append_cancel_right (Prod.mk.inj hpair).2
    cases (Prod.mk.inj hpair).1
    exact hlex
  have hnew : IsStatement (content ++ r') s indent ws (u ++ r') := by
    refine ⟨?_, h.indent, h.ws, h.args, ?_, ?_⟩
    · rw [hcontent]
      simp only [List.append_assoc, List.cons_append]
    · rw [← List.cons_append, ← List.append_assoc, lexLiteral_append _ (hquote hr'), hlex]
      rfl
    · rw [head?_dropWhile_append fun c hc => isReturn_space (hr' c hc)]
      rw [← head?_dropWhile_append fun c hc => isReturn_space (hr c hc)]
      exact h.rest
  exact hnew.found

/-- The ending of a line does not matter. -/
theorem statementOf_ending {content : Text} (hr : ∀ c ∈ r, isReturn c) (hr' : ∀ c ∈ r', isReturn c) :
    statementOf (content ++ r) = statementOf (content ++ r') := by
  cases h : statementOf (content ++ r) with
  | some s => exact (statementOf_ending_some hr hr' h).symm
  | none =>
    cases h' : statementOf (content ++ r') with
    | none => rfl
    | some s =>
      rw [statementOf_ending_some hr' hr h'] at h
      cases h

end Turf.Tidy
