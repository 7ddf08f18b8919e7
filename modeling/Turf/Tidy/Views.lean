import Turf.Tidy.Passes

/-!
# Code of the lines

What a compiler makes of the lines that the tool reads and writes: the mode that each begins in, and how
declarations and statements read without comments.
-/
namespace Turf.Tidy

open Turf.Lib.Pattern
open Turf.Lib.Lexing

variable {line name text literal rest desc content indent ws : Text} {lines lines' : List Text} {s : Statement}
  {m : Mode} {x : Mode × Text} {expected : Ending} {id : Nat}

/-! ## Modes of lines -/

/-- Each line with the mode that it begins in. -/
def staged : Mode → List Text → List (Mode × Text)
  | _, [] => []
  | m, line :: lines => (m, line) :: staged (readLine m (withoutEnding line)).mode lines

/-- The code of a line that begins in the mode. -/
def codeAt (x : Mode × Text) : Text := x.1.opening ++ (readLine x.1 (withoutEnding x.2)).code

/-- The mode behind a line. -/
def modeAt (x : Mode × Text) : Mode := (readLine x.1 (withoutEnding x.2)).mode

def modeBehind (m : Mode) (lines : List Text) : Mode := modeAfter m (lines.map withoutEnding)

theorem modeBehind_append (m : Mode) (lines lines' : List Text) :
    modeBehind m (lines ++ lines') = modeBehind (modeBehind m lines) lines' := by
  rw [modeBehind, List.map_append, modeAfter_append]
  rfl

theorem modeBehind_cons (m : Mode) (line : Text) (lines : List Text) :
    modeBehind m (line :: lines) = modeBehind (modeAt (m, line)) lines := rfl

theorem staged_append (m : Mode) (lines lines' : List Text) :
    staged m (lines ++ lines') = staged m lines ++ staged (modeBehind m lines) lines' := by
  induction lines generalizing m with
  | nil => rfl
  | cons line lines ih =>
    rw [List.cons_append, staged, ih, staged]
    rfl

theorem length_staged (m : Mode) (lines : List Text) : (staged m lines).length = lines.length := by
  induction lines generalizing m with
  | nil => rfl
  | cons line lines ih => rw [staged, List.length_cons, ih, List.length_cons]

theorem snd_of_mem_staged (h : x ∈ staged m lines) : x.2 ∈ lines := by
  induction lines generalizing m with
  | nil => cases h
  | cons line lines ih =>
    rcases List.mem_cons.mp h with rfl | h
    · exact List.mem_cons_self ..
    · exact List.mem_cons_of_mem _ (ih h)

theorem exists_staged_of_mem (m : Mode) (h : line ∈ lines) : ∃ m', (m', line) ∈ staged m lines := by
  induction lines generalizing m with
  | nil => cases h
  | cons first lines ih =>
    rcases List.mem_cons.mp h with rfl | h
    · exact ⟨m, List.mem_cons_self ..⟩
    · obtain ⟨m', hmem⟩ := ih (modeAt (m, first)) h
      exact ⟨m', List.mem_cons_of_mem _ hmem⟩

theorem codes_eq (m : Mode) (lines : List Text) :
    codes m (lines.map withoutEnding) = (staged m lines).map codeAt := by
  induction lines generalizing m with
  | nil => rfl
  | cons line lines ih =>
    rw [List.map_cons, codes, ih, staged]
    rfl

theorem view_eq (lines : List Text) : view lines = (staged .code lines).map codeAt := codes_eq .code lines

/-- Where no comment reaches over the cut, the lines below are read apart. -/
theorem view_append (h : modeBehind .code lines = .code) (lines' : List Text) :
    view (lines ++ lines') = view lines ++ view lines' := by
  rw [view_eq, staged_append, h, List.map_append, view_eq, view_eq]

theorem modeBehind_of_whole (h : Whole lines) : modeBehind .code lines = .code := by
  have hmode : (State.start.after isBlank (lines.map withoutEnding)).mode = modeBehind .code lines :=
    State.mode_after .start (lines.map withoutEnding)
  rw [h] at hmode
  exact hmode.symm

/-! ## Directives and blank lines -/

/-- The code of a directive is one, and that of a blank line is blank. -/
theorem inert_codeAt (h : Inert line) : Inert (codeAt (.code, line)) := by
  show Inert (readLine .code (withoutEnding line)).code
  cases hdrop : line.dropWhile isSpace with
  | nil =>
    have hblank : isBlank line := List.all_eq_true.mpr (List.dropWhile_eq_nil_iff.mp hdrop)
    rw [readLine_blank hblank]
    apply inert_of_blank
    rw [isBlank_withoutEnding]
    exact hblank
  | cons c tail =>
    obtain rfl : c = '#' := h c (by rw [hdrop]; rfl)
    have hspace : ∀ d ∈ line.takeWhile isSpace, isSpace d := fun d hd => List.mem_takeWhile_imp hd
    have hline : line = line.takeWhile isSpace ++ '#' :: tail := by
      rw [← hdrop, List.takeWhile_append_dropWhile]
    have hplain : ∀ d ∈ line.takeWhile isSpace ++ ['#'], Mode.Plain d := by
      intro d hd
      rcases List.mem_append.mp hd with hd | hd
      · exact plain_of_space (hspace d hd)
      · rw [List.mem_singleton.mp hd]
        decide
    obtain ⟨more, hmore⟩ := readLine_append hplain (by decide) (withoutEnding tail)
    rw [hline, withoutEnding_of_last rfl, hmore]
    exact inert_hash hspace more

/-! ## Literals -/

/-- A literal is left at its quote. -/
theorem run_lexLiteral (h : lexLiteral text = some (literal, rest)) : (Mode.literal '"').run text =
    ((Mode.code.run rest).1, literal ++ '"' :: (Mode.code.run rest).2) := by
  induction text using lexLiteral.induct generalizing literal rest with
  | case1 | case3 => cases h
  | case2 text =>
    cases h
    rfl
  | case4 c text ih =>
    rw [lexLiteral] at h
    obtain ⟨⟨literal', rest'⟩, htext, hpair⟩ := Option.map_eq_some_iff.mp h
    cases hpair
    show ((Mode.run (.literal '"') text).1, '\\' :: c :: (Mode.run (.literal '"') text).2) = _
    rw [ih htext]
    rfl
  | case5 c text hquote hlast hescape ih =>
    rw [lexLiteral] at h
    · obtain ⟨⟨literal', rest'⟩, htext, hpair⟩ := Option.map_eq_some_iff.mp h
      cases hpair
      have hbackslash : c ≠ '\\' := by
        intro hc
        cases text with
        | nil => exact hlast hc rfl
        | cons d text => exact hescape d text hc rfl
      rw [Mode.run, Mode.step, if_neg hbackslash, if_neg fun hc => hquote hc, ih htext]
      rfl
    all_goals assumption

/-- What is behind a literal does not matter to it. -/
theorem lexLiteral_rest (h : lexLiteral text = some (literal, rest)) (rest' : Text) :
    lexLiteral (literal ++ '"' :: rest') = some (literal, rest') := by
  induction text using lexLiteral.induct generalizing literal rest with
  | case1 | case3 => cases h
  | case2 text =>
    cases h
    rfl
  | case4 c text ih =>
    rw [lexLiteral] at h
    obtain ⟨⟨literal', rest₁⟩, htext, hpair⟩ := Option.map_eq_some_iff.mp h
    cases hpair
    show (lexLiteral (literal' ++ '"' :: rest')).map _ = _
    rw [ih htext]
    rfl
  | case5 c text hquote hlast hescape ih =>
    rw [lexLiteral] at h
    · obtain ⟨⟨literal', rest₁⟩, htext, hpair⟩ := Option.map_eq_some_iff.mp h
      cases hpair
      have hbackslash : c ≠ '\\' := by
        intro hc
        cases text with
        | nil => exact hlast hc rfl
        | cons d text => exact hescape d text hc rfl
      rw [List.cons_append, lexLiteral_cons (fun hc => hquote hc) hbackslash, ih htext]
      rfl
    all_goals assumption

/-- A line is read on behind a literal as before one. -/
theorem readLine_literal (h : lexLiteral text = some (literal, rest)) (behind : Text) :
    readLine .code ('"' :: (literal ++ '"' :: behind)) =
      { readLine .code behind with code := '"' :: (literal ++ '"' :: (readLine .code behind).code) } := by
  have hrun : Mode.code.run ('"' :: (literal ++ ['"'])) = (.code, '"' :: (literal ++ ['"'])) := by
    show ((Mode.run (.literal '"') (literal ++ ['"'])).1, '"' :: (Mode.run (.literal '"') (literal ++ ['"'])).2) = _
    rw [run_lexLiteral (lexLiteral_rest h [])]
    rfl
  have hsplit : '"' :: (literal ++ '"' :: behind) = '"' :: (literal ++ ['"']) ++ behind := by simp
  have hlast : ('"' :: (literal ++ ['"'])).getLast? ≠ some '\\' := by
    rw [← List.cons_append, List.getLast?_concat]
    decide
  rw [hsplit, readLine_behind (.inr hlast), hrun]
  simp

/-! ## Statements -/

/-- The message of the line begins in code. -/
def Opens (line : Text) : Prop := (Mode.code.run (line.takeWhile (· != '"'))).1 = .code

instance (line : Text) : Decidable (Opens line) := inferInstanceAs (Decidable (_ = _))

theorem IsStatement.takeWhile_quote (h : IsStatement line s indent ws rest) : line.takeWhile (· != '"') ++
    '"' :: (s.literal ++ '"' :: rest) = line := by
  conv_rhs => rw [← List.takeWhile_append_dropWhile (p := (· != '"')) (l := line), h.dropWhile_eq]

/-- The code of a statement, and how the line goes on behind its message. -/
theorem IsStatement.readLine_eq (h : IsStatement line s indent ws rest) (hopens : Opens line) :
    readLine .code (withoutEnding line) = { readLine .code (withoutEnding rest) with
      code := (Mode.code.run (line.takeWhile (· != '"'))).2 ++
        '"' :: (s.literal ++ '"' :: (readLine .code (withoutEnding rest)).code) } := by
  have hline : withoutEnding line = line.takeWhile (· != '"') ++
      '"' :: (s.literal ++ '"' :: withoutEnding rest) := by
    have hsplit : line.takeWhile (· != '"') ++ '"' :: (s.literal ++ '"' :: rest) =
        (line.takeWhile (· != '"') ++ '"' :: s.literal) ++ '"' :: rest := by simp
    conv_lhs => rw [← h.takeWhile_quote, hsplit, withoutEnding_of_last rfl]
    simp
  rw [hline, readLine_behind (.inl (List.cons_ne_nil _ _)), hopens, readLine_literal h.literal]

theorem quote_not_mem_front (line : Text) : '"' ∉ (Mode.code.run (line.takeWhile (· != '"'))).2 := by
  intro hmem
  rcases Mode.mem_run hmem with hmem | hmem | hmem
  · simpa using List.mem_takeWhile_imp hmem
  · cases hmem
  · cases hmem

/-- The first literal in a statement is its message. -/
theorem statement_of_quote {front : Text} (h : statementOf (front ++ '"' :: (literal ++ '"' :: rest)) = some s)
    (hfront : '"' ∉ front) (hliteral : lexLiteral (literal ++ '"' :: rest) = some (literal, rest)) :
    s.literal = literal ∧ (rest.dropWhile isSpace).head? ≠ some '"' := by
  obtain ⟨indent, ws, rest', hs⟩ := isStatement_of_statementOf h
  have hquote := hs.dropWhile_eq
  have hfirst := (dropWhile_of_head (p := (· != '"')) (a := front) (b := '"' :: (literal ++ '"' :: rest))
    (fun c hc => bne_iff_ne.mpr fun heq => hfront (heq ▸ hc)) (by intro c hc; cases hc; rfl)).2
  rw [hfirst] at hquote
  have hlex := hs.literal
  rw [← (List.cons.inj hquote).2, hliteral, Option.some.injEq, Prod.mk.injEq] at hlex
  obtain ⟨hsame, hrest⟩ := hlex
  exact ⟨hsame.symm, hrest ▸ hs.rest⟩

/-- A line that is a statement with and without comments, with a message that begins in code. -/
structure Stated (line : Text) : Prop where
  opens : Opens line
  raw : (statementOf line).isSome
  code : (statementOf (codeAt (.code, line))).isSome

instance (line : Text) : Decidable (Stated line) :=
  decidable_of_iff (Opens line ∧ (statementOf line).isSome ∧ (statementOf (codeAt (.code, line))).isSome)
    ⟨fun h => ⟨h.1, h.2.1, h.2.2⟩, fun h => ⟨h.opens, h.raw, h.code⟩⟩

theorem IsStatement.code_spec (h : IsStatement line s indent ws rest) (hstated : Stated line) :
    ∃ s', statementOf (codeAt (.code, line)) = some s' ∧ s'.literal = s.literal ∧
      ((readLine .code (withoutEnding rest)).code.dropWhile isSpace).head? ≠ some '"' := by
  obtain ⟨s', hs'⟩ := Option.isSome_iff_exists.mp hstated.code
  have hcode := hs'
  rw [codeAt, h.readLine_eq hstated.opens] at hcode
  obtain ⟨hliteral, hrest⟩ := statement_of_quote hcode (quote_not_mem_front line) (lexLiteral_rest h.literal _)
  exact ⟨s', hs', hliteral, hrest⟩

theorem Stated.same_literal (h : Stated line) (hs : statementOf line = some s) :
    ∃ s', statementOf (codeAt (.code, line)) = some s' ∧ s'.literal = s.literal := by
  obtain ⟨indent, ws, rest, hs⟩ := isStatement_of_statementOf hs
  obtain ⟨s', hs', hliteral, -⟩ := hs.code_spec h
  exact ⟨s', hs', hliteral⟩

theorem plain_argsText (hname : ∀ c ∈ name, isWord c) (id : Nat) : ∀ c ∈ argsText name id, Mode.Plain c := by
  intro c hc
  rw [argsText, List.mem_append, List.mem_append, List.mem_append] at hc
  rcases hc with ((hc | hc) | hc) | hc
  · exact plain_of_word (hname c hc)
  · exact plain_of_all (by decide : ", ".toList.all fun c => decide (Mode.Plain c)) c hc
  · have hdigit := Nat.isDigit_of_mem_toDigits (by omega) (by omega) hc
    exact plain_of_word (by rw [isWord, Char.isAlphanum, hdigit]; simp)
  · exact plain_of_all (by decide : ", ".toList.all fun c => decide (Mode.Plain c)) c hc

/-- With an id the statement reads the same without comments, and the line ends in the mode it did. -/
theorem Stated.restated (h : Stated line) (hs : statementOf line = some s) (hname : ∀ c ∈ name, isWord c)
    (id : Nat) : statementOf (codeAt (.code, restate name id line)) = some ⟨argsText name id, s.literal⟩ ∧
      modeAt (.code, restate name id line) = modeAt (.code, line) := by
  obtain ⟨indent, ws, rest, hs⟩ := isStatement_of_statementOf hs
  have hnew := hs.restated hname id
  obtain ⟨-, -, -, hrest⟩ := hs.code_spec h
  have hfront : (restate name id line).takeWhile (· != '"') =
      indent ++ (keyword ++ '(' :: argsText name id) := by
    have hquote := hnew.takeWhile_quote
    conv_rhs at hquote => rw [hnew.eq]
    have hsplit : indent ++ (keyword ++ ([] ++ '(' :: (argsText name id ++ '"' :: (s.literal ++ '"' :: rest)))) =
        indent ++ (keyword ++ '(' :: argsText name id) ++ '"' :: (s.literal ++ '"' :: rest) := by simp
    rw [hsplit] at hquote
    exact List.append_cancel_right hquote
  have hplain : ∀ c ∈ indent ++ (keyword ++ '(' :: argsText name id), Mode.Plain c := by
    intro c hc
    rw [List.mem_append, List.mem_append, List.mem_cons] at hc
    rcases hc with hc | hc | rfl | hc
    · exact plain_of_space (hs.indent c hc)
    · exact plain_of_all (by decide : keyword.all fun c => decide (Mode.Plain c)) c hc
    · decide
    · exact plain_argsText hname id c hc
  have hrun := Mode.run_plain hplain
  have hopens : Opens (restate name id line) := by rw [Opens, hfront, hrun]
  have hread := hnew.readLine_eq hopens
  rw [hfront, hrun] at hread
  refine ⟨?_, ?_⟩
  · have hstatement : IsStatement (codeAt (.code, restate name id line)) ⟨argsText name id, s.literal⟩
        indent [] (readLine .code (withoutEnding rest)).code := by
      refine ⟨?_, hnew.indent, hnew.ws, hnew.args, lexLiteral_rest hs.literal _, hrest⟩
      rw [codeAt, hread]
      simp [Mode.opening]
    exact hstatement.found
  · rw [modeAt, modeAt, hread, hs.readLine_eq h.opens]

end Turf.Tidy
