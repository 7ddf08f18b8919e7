import Mathlib.Data.List.DropRight
import Mathlib.Data.List.TakeWhile
import Turf.Lib.Lexing
import Turf.Tidy.Lines

/-!
# Conditional directives

What a compiler makes of the lines of a header, whatever the tool does with them: which of them are
in comments, which conditionals are open after each, and which lines are the header's own include
guard.
-/
namespace Turf.Tidy

open Turf.Lib.Pattern
open Turf.Lib.Lexing

/-! ## Words and spaces -/

theorem isWord_not_space {c : Char} (h : isWord c) : isSpace c = false := by
  by_contra hs
  simp only [isSpace, Bool.not_eq_false, Bool.or_eq_true, beq_iff_eq] at hs
  rcases hs with ((((rfl | rfl) | rfl) | rfl) | rfl) | rfl <;> cases h

theorem dropWhile_of_head {p : Char → Bool} {a b : Text} (ha : ∀ c ∈ a, p c)
    (hb : ∀ c, b.head? = some c → p c = false) :
    (a ++ b).takeWhile p = a ∧ (a ++ b).dropWhile p = b := by
  rw [List.takeWhile_append_of_pos ha, List.dropWhile_append_of_pos ha]
  cases b with
  | nil => simp
  | cons c b => simp [hb c rfl]

/-! ## Code -/

/-- What stands before the ending of a line. -/
def withoutEnding (line : Text) : Text := line.rdropWhile isReturn

/-- Each physical line with the logical line whose code begins on it. -/
def marked (lines : List Text) : List (Text × Option Text) :=
  lines.zip (marks isBlank .start (lines.map withoutEnding)).2

/-- The logical lines that have code. -/
def codeLines (lines : List Text) : List Text := (marked lines).filterMap Prod.snd

/-- The code of a physical line that no comment and no continued line reaches into. -/
def codeOf (line : Text) : Text := (readLine .code (withoutEnding line)).code

/-- No comment and no continued line reaches beyond the lines. -/
def Whole (lines : List Text) : Prop := State.start.after isBlank (lines.map withoutEnding) = .start

instance (lines : List Text) : Decidable (Whole lines) := inferInstanceAs (Decidable (_ = _))

/-! ## Directives -/

def word (text : Text) : Text := (text.dropWhile isSpace).takeWhile isWord

def afterWord (text : Text) : Text := (text.dropWhile isSpace).dropWhile isWord

/-- What a logical line has after the `#` of a directive. -/
def directive (line : Text) : Option Text :=
  match line.dropWhile isSpace with
  | '#' :: text => some text
  | _ => none

def directiveName (line : Text) : Option Text := (directive line).map word

/-- The macro that the directive is about. -/
def directiveMacro (line : Text) : Option Text := (directive line).map fun text => word (afterWord text)

def opening : List Text := ["if".toList, "ifdef".toList, "ifndef".toList]

def branching : List Text := ["else".toList, "elif".toList]

/-- The number of conditionals that are open after a logical line. -/
def depthAfter (depth : Nat) (line : Text) : Option Nat :=
  match directiveName line with
  | none => some depth
  | some name =>
    if name ∈ opening then some (depth + 1)
    else if name = "endif".toList then if depth = 0 then none else some (depth - 1)
    else if name ∈ branching ∧ depth = 0 then none
    else some depth

def depthFrom (depth : Nat) (lines : List Text) : Option Nat := lines.foldlM depthAfter depth

def Balanced (lines : List Text) : Prop := depthFrom 0 (codeLines lines) = some 0

instance (lines : List Text) : Decidable (Balanced lines) := inferInstanceAs (Decidable (_ = _))

/-! ## The header's own guard -/

def nonblank (lines : List Text) : List Text := lines.filter fun line => !isBlank line

/-- The logical lines start with `#ifndef` and `#define` of one macro and end with the `#endif` that
closes the conditional. -/
def isGuard : List Text → Bool
  | first :: second :: lines =>
    match lines.getLast? with
    | some last =>
      directiveName first = some ifndefText ∧ directiveName second = some defineText ∧
        directiveMacro first = directiveMacro second ∧ directiveMacro first ≠ some [] ∧
        directiveName last = some "endif".toList ∧ depthFrom 0 lines.dropLast = some 0
    | none => false
  | _ => false

def hasCode (line : Text × Option Text) : Bool := line.2.isSome

/-- The nonblank ones of the marked lines. -/
def shown (lines : List Text) : List (Text × Option Text) :=
  (marked lines).filter fun line => !isBlank line.1

/-- The first two logical lines and the last one are the guard. -/
def withoutGuard (lines : List (Text × Option Text)) : List (Text × Option Text) :=
  (((lines.eraseP hasCode).eraseP hasCode).reverse.eraseP hasCode).reverse

/-- The nonblank lines, less the header's own guard. -/
def kept (lines : List Text) : List Text :=
  (if isGuard (codeLines lines) then withoutGuard (shown lines) else shown lines).map Prod.fst

variable {a b r text line content : Text} {lines lines' : List Text} {d e k : Nat}

/-! ## Lines and their endings -/

theorem withoutEnding_append (hcontent : IsContent content) (hr : ∀ c ∈ r, isReturn c) :
    withoutEnding (content ++ r) = content := by
  induction r using List.reverseRecOn with
  | nil =>
    rw [List.append_nil, withoutEnding, List.rdropWhile_eq_self_iff]
    intro hne
    rw [hcontent.last _ (List.getLast?_eq_some_getLast hne)]
    exact Bool.false_ne_true
  | append_singleton r c ih =>
    rw [← List.append_assoc, withoutEnding, List.rdropWhile_concat_pos _ _ _ (hr c (by simp))]
    exact ih fun d hd => hr d (List.mem_append_left _ hd)

theorem withoutEnding_fixLineEnding {expected : Ending} {file : Text} (h : line ∈ readlines file) :
    withoutEnding (fixLineEnding expected line) = withoutEnding line := by
  obtain ⟨content, r, hcontent, hr, rfl⟩ := content_of_mem_readlines h
  rw [fixLineEnding_append hcontent hr, withoutEnding_append hcontent ending_return,
    withoutEnding_append hcontent hr]

/-- What a line begins with, if that does not end like a line. -/
theorem withoutEnding_of_last {c : Char} (hc : isReturn c = false) (text : Text) :
    withoutEnding (a ++ c :: text) = a ++ c :: withoutEnding text := by
  induction text using List.reverseRecOn with
  | nil =>
    rw [withoutEnding, List.rdropWhile_concat_neg _ _ _ (by simp [hc])]
    rfl
  | append_singleton text d ih =>
    have hsplit : a ++ c :: (text ++ [d]) = (a ++ c :: text) ++ [d] := by simp
    rw [hsplit, withoutEnding, List.rdropWhile_concat, withoutEnding, List.rdropWhile_concat]
    split
    · exact ih
    · simp

theorem isBlank_withoutEnding (line : Text) : isBlank (withoutEnding line) = isBlank line := by
  induction line using List.reverseRecOn with
  | nil => rfl
  | append_singleton line c ih =>
    rw [withoutEnding, List.rdropWhile_concat]
    split
    · next hc =>
      rw [← withoutEnding, ih, isBlank, isBlank, List.all_append, List.all_cons, isReturn_space hc]
      simp
    · rfl

/-! ## Logical lines -/

theorem map_fst_marked (lines : List Text) : (marked lines).map Prod.fst = lines := by
  rw [marked, List.map_fst_zip]
  rw [length_marks, List.length_map]

theorem marked_append (h : Whole lines) (lines' : List Text) :
    marked (lines ++ lines') = marked lines ++ marked lines' := by
  rw [marked, List.map_append, marks_append h, List.zip_append]
  · rfl
  · rw [length_marks, List.length_map]

theorem codeLines_append (h : Whole lines) (lines' : List Text) :
    codeLines (lines ++ lines') = codeLines lines ++ codeLines lines' := by
  rw [codeLines, marked_append h, List.filterMap_append]
  rfl

theorem whole_nil : Whole [] := rfl

theorem Whole.append (h : Whole lines) : Whole (lines ++ lines') ↔ Whole lines' := by
  rw [Whole, List.map_append, State.after_append, h]
  rfl

theorem Whole.cons (h : Whole [line]) : Whole (line :: lines) ↔ Whole lines := Whole.append h

theorem whole_of_forall (h : ∀ line ∈ lines, Whole [line]) : Whole lines := by
  induction lines with
  | nil => exact whole_nil
  | cons line lines ih =>
    obtain ⟨hline, hlines⟩ := List.forall_mem_cons.mp h
    exact hline.cons.mpr (ih hlines)

/-- A line that the lexer comes out of as it went in. -/
theorem whole_of_readLine (h : readLine .code (withoutEnding line) = ⟨.code, text, true⟩) : Whole [line] := by
  show State.start.next isBlank (withoutEnding line) = .start
  rw [State.next, State.start]
  simp only [h, Bool.true_or]

theorem marked_code (h : Whole [line]) (hcode : isBlank (codeOf line) = false) (lines : List Text) :
    marked (line :: lines) = (line, some (codeOf line)) :: marked lines := by
  rw [marked, List.map_cons, marks_whole h hcode]
  rfl

theorem marked_blank (h : Whole [line]) (hcode : isBlank (codeOf line)) (lines : List Text) :
    marked (line :: lines) = (line, none) :: marked lines := by
  rw [marked, List.map_cons, marks_blank h hcode]
  rfl

theorem codeLines_cons (h : Whole [line]) (hcode : isBlank (codeOf line) = false) (lines : List Text) :
    codeLines (line :: lines) = codeOf line :: codeLines lines := by
  rw [codeLines, marked_code h hcode]
  rfl

theorem plain_of_space {c : Char} (h : isSpace c) : Mode.Plain c := by
  refine ⟨?_, ?_, ?_⟩
  all_goals
    intro hc
    rw [hc] at h
    cases h

theorem plain_of_word {c : Char} (h : isWord c) : Mode.Plain c := by
  refine ⟨?_, ?_, ?_⟩
  all_goals
    intro hc
    rw [hc] at h
    cases h

/-- Blank lines have no code. -/
theorem readLine_blank (h : isBlank line) :
    readLine .code (withoutEnding line) = ⟨.code, withoutEnding line, true⟩ := by
  have hspace : ∀ c ∈ withoutEnding line, isSpace c := by
    rw [← isBlank_withoutEnding] at h
    exact List.all_eq_true.mp h
  refine readLine_plain (fun c hc => plain_of_space (hspace c hc)) fun hlast => ?_
  cases hspace _ (List.mem_of_getLast? hlast)

theorem whole_of_blank (h : isBlank line) : Whole [line] := whole_of_readLine (readLine_blank h)

theorem codeOf_blank (h : isBlank line) : isBlank (codeOf line) := by
  rw [codeOf, readLine_blank h, isBlank_withoutEnding]
  exact h

theorem whole_of_nonblank (h : ∀ line ∈ nonblank lines, Whole [line]) : ∀ line ∈ lines, Whole [line] := by
  intro line hline
  cases hblank : isBlank line with
  | true => exact whole_of_blank hblank
  | false => exact h line (List.mem_filter.mpr ⟨hline, by rw [hblank]; rfl⟩)

/-- What a compiler makes of the lines does not depend on their endings. -/
theorem codeLines_fixLineEndings (expected : Ending) (file : Text) :
    codeLines (fixLineEndings expected file) = codeLines (readlines file) := by
  have hsame : (fixLineEndings expected file).map withoutEnding = (readlines file).map withoutEnding := by
    rw [fixLineEndings, List.map_map]
    exact List.map_congr_left fun line hline => withoutEnding_fixLineEnding hline
  have hcodes : ∀ lines : List Text, codeLines lines =
      (marks isBlank .start (lines.map withoutEnding)).2.filterMap id := by
    intro lines
    have hsnd : (marked lines).map Prod.snd = (marks isBlank .start (lines.map withoutEnding)).2 := by
      rw [marked, List.map_snd_zip]
      rw [length_marks, List.length_map]
    rw [← hsnd, List.filterMap_map]
    rfl
  rw [hcodes, hcodes, hsame]

/-! ## Depths -/

/-- Conditionals that are open outside do not matter inside. -/
theorem depthAfter_add (h : depthAfter d line = some e) :
    depthAfter (d + k) line = some (e + k) := by
  rw [depthAfter] at h ⊢
  split at h
  · cases h; rfl
  · next name =>
    split at h
    · next hopen =>
      cases h
      rw [if_pos hopen, Nat.add_right_comm]
    · next hopen =>
      rw [if_neg hopen]
      split at h
      · next hend =>
        rw [if_pos hend]
        split at h
        · cases h
        · next hd =>
          cases h
          rw [if_neg (by omega)]
          congr 1
          omega
      · next hend =>
        rw [if_neg hend]
        split at h
        · cases h
        · next hbranch =>
          cases h
          rw [if_neg fun hb => hbranch ⟨hb.1, by omega⟩]

theorem depthFrom_cons (d : Nat) (line : Text) (lines : List Text) :
    depthFrom d (line :: lines) = (depthAfter d line).bind fun d => depthFrom d lines := rfl

theorem depthFrom_append (d : Nat) (lines lines' : List Text) :
    depthFrom d (lines ++ lines') = (depthFrom d lines).bind fun d => depthFrom d lines' :=
  List.foldlM_append

theorem depthFrom_add (h : depthFrom d lines = some e) :
    depthFrom (d + k) lines = some (e + k) := by
  induction lines generalizing d with
  | nil => cases h; rfl
  | cons line lines ih =>
    rw [depthFrom_cons] at h ⊢
    obtain ⟨d', hline, hlines⟩ := Option.bind_eq_some_iff.mp h
    rw [depthAfter_add hline]
    exact ih hlines

theorem depthAfter_ifndef (h : directiveName line = some ifndefText) :
    depthAfter d line = some (d + 1) := by
  rw [depthAfter, h]
  rfl

theorem depthAfter_define (h : directiveName line = some defineText) :
    depthAfter d line = some d := by
  rw [depthAfter, h]
  rfl

theorem depthAfter_endif (h : directiveName line = some "endif".toList) :
    depthAfter (d + 1) line = some d := by
  rw [depthAfter, h]
  rfl

theorem depthAfter_zero_endif (h : directiveName line = some "endif".toList) :
    depthAfter 0 line = none := by
  rw [depthAfter, h]
  rfl

/-! ## Nonblank lines -/

@[simp] theorem nonblank_append (lines lines' : List Text) :
    nonblank (lines ++ lines') = nonblank lines ++ nonblank lines' := List.filter_append ..

theorem nonblank_cons_of_not (h : isBlank line = false) :
    nonblank (line :: lines) = line :: nonblank lines := by
  rw [nonblank, List.filter_cons_of_pos (by rw [h]; rfl)]
  rfl

@[simp] theorem nonblank_nonblank (lines : List Text) : nonblank (nonblank lines) = nonblank lines := by
  simp [nonblank]

theorem nonblank_sublist (lines : List Text) : (nonblank lines).Sublist lines :=
  List.filter_sublist

theorem shown_append (h : Whole lines) (lines' : List Text) :
    shown (lines ++ lines') = shown lines ++ shown lines' := by
  rw [shown, marked_append h, List.filter_append]
  rfl

theorem map_fst_shown (lines : List Text) : (shown lines).map Prod.fst = nonblank lines := by
  conv_rhs => rw [nonblank, ← map_fst_marked lines, List.filter_map]
  rfl

/-- Nonblank lines that are whole and have code are the logical lines. -/
theorem shown_whole (h : ∀ line ∈ nonblank lines, Whole [line] ∧ isBlank (codeOf line) = false) :
    shown lines = (nonblank lines).map (fun line => (line, some (codeOf line))) ∧
      codeLines lines = (nonblank lines).map codeOf := by
  induction lines with
  | nil => exact ⟨rfl, rfl⟩
  | cons line lines ih =>
    have hlines : ∀ line ∈ nonblank lines, Whole [line] ∧ isBlank (codeOf line) = false := by
      intro line' hline'
      obtain ⟨hmem, hblank⟩ := List.mem_filter.mp hline'
      exact h line' (List.mem_filter.mpr ⟨List.mem_cons_of_mem _ hmem, hblank⟩)
    obtain ⟨hshown, hcodes⟩ := ih hlines
    cases hblank : isBlank line with
    | true =>
      rw [nonblank, List.filter_cons_of_neg (by simp [hblank]), shown, codeLines,
        marked_blank (whole_of_blank hblank) (codeOf_blank hblank), List.filter_cons_of_neg (by simp [hblank])]
      exact ⟨hshown, hcodes⟩
    | false =>
      obtain ⟨hwhole, hcode⟩ := h line (List.mem_filter.mpr ⟨List.mem_cons_self .., by rw [hblank]; rfl⟩)
      rw [nonblank_cons_of_not hblank, codeLines_cons hwhole hcode, hcodes, shown, marked_code hwhole hcode,
        List.filter_cons_of_pos (by simp [hblank]), List.map_cons, ← hshown]
      exact ⟨rfl, rfl⟩

/-- Lines without code have no marks. -/
theorem not_hasCode (h : codeLines lines = []) : ∀ line ∈ shown lines, ¬ hasCode line := by
  intro line hline hcode
  obtain ⟨code, hsome⟩ := Option.isSome_iff_exists.mp hcode
  have hmem : code ∈ codeLines lines := List.mem_filterMap.mpr ⟨line, List.mem_of_mem_filter hline, hsome⟩
  rw [h] at hmem
  cases hmem

/-! ## The header's own guard -/

theorem withoutGuard_sublist (lines : List (Text × Option Text)) : (withoutGuard lines).Sublist lines := by
  have hfront : ((lines.eraseP hasCode).eraseP hasCode).Sublist lines :=
    List.eraseP_sublist.trans List.eraseP_sublist
  have hback : (withoutGuard lines).Sublist ((lines.eraseP hasCode).eraseP hasCode) := by
    rw [withoutGuard, ← List.reverse_sublist, List.reverse_reverse]
    exact List.eraseP_sublist
  exact hback.trans hfront

theorem kept_sublist (lines : List Text) : (kept lines).Sublist (nonblank lines) := by
  rw [kept, ← map_fst_shown]
  split
  · exact (withoutGuard_sublist _).map _
  · exact List.Sublist.refl _

theorem kept_of_not (h : ¬ isGuard (codeLines lines)) : kept lines = nonblank lines := by
  rw [kept, if_neg h, map_fst_shown]

/-- The logical line in front is the first of the guard, and that at the end the last. -/
theorem withoutGuard_cons {before body : List (Text × Option Text)} {x z : Text × Option Text}
    (hbefore : ∀ line ∈ before, ¬ hasCode line) (hx : hasCode x) (hz : hasCode z) :
    (withoutGuard (before ++ (x :: (body ++ [z])))).Sublist (before ++ body) := by
  rw [withoutGuard, List.eraseP_append_right _ hbefore, List.eraseP_cons_of_pos hx,
    List.eraseP_append_right _ hbefore, List.eraseP_append]
  split
  · rw [← List.append_assoc, List.reverse_concat, List.eraseP_cons_of_pos hz, List.reverse_reverse]
    exact (List.Sublist.refl _).append List.eraseP_sublist
  · rw [List.eraseP_cons_of_pos hz, List.append_nil, ← List.reverse_reverse (before ++ body)]
    refine List.Sublist.reverse (List.eraseP_sublist.trans ?_)
    rw [List.reverse_reverse]

/-- The same, with the second line. -/
theorem withoutGuard_cons_cons {before body : List (Text × Option Text)} {x y z : Text × Option Text}
    (hbefore : ∀ line ∈ before, ¬ hasCode line) (hx : hasCode x) (hy : hasCode y) (hz : hasCode z) :
    withoutGuard (before ++ (x :: y :: (body ++ [z]))) = before ++ body := by
  rw [withoutGuard, List.eraseP_append_right _ hbefore, List.eraseP_cons_of_pos hx,
    List.eraseP_append_right _ hbefore, List.eraseP_cons_of_pos hy, ← List.append_assoc,
    List.reverse_concat, List.eraseP_cons_of_pos hz, List.reverse_reverse]

/-- The header's own guard, and what it is around. -/
theorem isGuard_spec (h : isGuard lines) : ∃ first second inner last,
    lines = first :: second :: (inner ++ [last]) ∧ directiveName first = some ifndefText ∧
      directiveName second = some defineText ∧ directiveName last = some "endif".toList := by
  match lines, h with
  | first :: second :: lines, h =>
    rw [isGuard] at h
    split at h
    · next last hlast =>
      obtain ⟨hfirst, hsecond, -, -, hend, -⟩ := of_decide_eq_true h
      refine ⟨first, second, lines.dropLast, last, ?_, hfirst, hsecond, hend⟩
      rw [List.dropLast_append_getLast? last hlast]
    · cases h

end Turf.Tidy
