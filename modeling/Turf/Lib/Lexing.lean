import Mathlib.Data.List.Basic
import Mathlib.Data.List.Induction

/-!
# Comments, literals and logical lines

The lexical rules of C++98 that decide what of a text is code. A comment counts as a space. A line
that ends with a backslash goes on in the next one, and so does a logical line that a block comment
reaches over. Physical lines are given without their endings.
-/
namespace Turf.Lib.Lexing

/-- What the lexer is in the middle of: a slash and a star can begin or end a comment. -/
inductive Mode where
  | code
  | slash
  | block
  | star
  | line
  | literal (quote : Char)
  | escape (quote : Char)
  deriving DecidableEq, Repr

namespace Mode

/-- The mode behind a character, and what becomes code with it. -/
def step : Mode → Char → Mode × List Char
  | code, c =>
    if c = '/' then (slash, [])
    else if c = '"' ∨ c = '\'' then (literal c, [c])
    else (code, [c])
  | slash, c =>
    if c = '/' then (line, [' '])
    else if c = '*' then (block, [' '])
    else if c = '"' ∨ c = '\'' then (literal c, ['/', c])
    else (code, ['/', c])
  | block, c => (if c = '*' then star else block, [])
  | star, c => (if c = '/' then code else if c = '*' then star else block, [])
  | line, _ => (line, [])
  | literal quote, c =>
    (if c = '\\' then escape quote else if c = quote then code else literal quote, [c])
  | escape quote, c => (literal quote, [c])

def run : Mode → List Char → Mode × List Char
  | m, [] => (m, [])
  | m, c :: text => ((run (m.step c).1 text).1, (m.step c).2 ++ (run (m.step c).1 text).2)

/-- The quote of the literal that the lexer is in. -/
def opening : Mode → List Char
  | literal quote | escape quote => [quote]
  | _ => []

/-- At the end of a line only a block comment goes on. -/
def newline : Mode → Mode × List Char
  | slash => (code, ['/'])
  | block | star => (block, [])
  | code | line | literal _ | escape _ => (code, [])

end Mode

/-- What the lexer makes of a physical line: the mode behind it, the code that it adds, and whether the
logical line ends with it. -/
structure Lexed where
  mode : Mode
  code : List Char
  ended : Bool
  deriving DecidableEq, Repr

def readLine (m : Mode) (line : List Char) : Lexed :=
  if line.getLast? = some '\\' then
    ⟨(m.run line.dropLast).1, (m.run line.dropLast).2, false⟩
  else
    let (m', rest) := (m.run line).1.newline
    ⟨m', (m.run line).2 ++ rest, m' = .code⟩

def modeAfter (m : Mode) (lines : List (List Char)) : Mode :=
  lines.foldl (fun m line => (readLine m line).mode) m

/-- The code on each physical line. A line in the middle of a literal begins with its quote. -/
def codes : Mode → List (List Char) → List (List Char)
  | _, [] => []
  | m, line :: lines =>
    (m.opening ++ (readLine m line).code) :: codes (readLine m line).mode lines

/-! ## Logical lines -/

/-- Between physical lines: the mode, and whether the logical line has no code yet. -/
structure State where
  mode : Mode
  fresh : Bool
  deriving DecidableEq, Repr

namespace State

def start : State := ⟨.code, true⟩

/-- `blank` tells which code is none. -/
def next (blank : List Char → Bool) (st : State) (line : List Char) : State :=
  let r := readLine st.mode line
  ⟨r.mode, r.ended || st.fresh && blank r.code⟩

def after (blank : List Char → Bool) (st : State) (lines : List (List Char)) : State :=
  lines.foldl (next blank) st

end State

/-- The code that the logical line in front of the physical lines goes on with, and for each physical
line the logical line whose code begins on it. -/
def marks (blank : List Char → Bool) : State → List (List Char) → List Char × List (Option (List Char))
  | _, [] => ([], [])
  | st, line :: lines =>
    let r := readLine st.mode line
    let rest := marks blank (st.next blank line) lines
    let code := r.code ++ if r.ended then [] else rest.1
    if st.fresh && !blank r.code then ([], some code :: rest.2) else (code, none :: rest.2)

variable {blank : List Char → Bool} {m : Mode} {st : State} {a b text line : List Char}
  {lines lines' : List (List Char)}

/-! ## Characters -/

namespace Mode

theorem run_append (m : Mode) (a b : List Char) : m.run (a ++ b) =
    (((m.run a).1.run b).1, (m.run a).2 ++ ((m.run a).1.run b).2) := by
  induction a generalizing m with
  | nil => rfl
  | cons c a ih =>
    rw [List.cons_append, run, ih, run]
    simp only [List.append_assoc]

/-- Neither a slash nor a quote. -/
def Plain (c : Char) : Prop := c ≠ '/' ∧ c ≠ '"' ∧ c ≠ '\''

instance (c : Char) : Decidable (Plain c) := inferInstanceAs (Decidable (_ ∧ _))

theorem step_plain {c : Char} (h : Plain c) : code.step c = (code, [c]) := by
  rw [step, if_neg h.1, if_neg (not_or.mpr h.2)]

/-- Plain text is code as it stands. -/
theorem run_plain (h : ∀ c ∈ text, Plain c) : code.run text = (code, text) := by
  induction text with
  | nil => rfl
  | cons c text ih =>
    obtain ⟨hc, htext⟩ := List.forall_mem_cons.mp h
    rw [run, step_plain hc, ih htext]
    rfl

/-- A line comment goes on to the end. -/
theorem run_line (text : List Char) : Mode.line.run text = (.line, []) := by
  induction text with
  | nil => rfl
  | cons c text ih =>
    rw [run, step, ih]
    rfl

theorem mem_step {c d : Char} (h : d ∈ (m.step c).2) : d = c ∨ d = '/' ∨ d = ' ' := by
  cases m with
  | code | slash =>
    rw [step] at h
    grind
  | literal quote | escape quote => exact .inl (List.mem_singleton.mp h)
  | block | star | line => cases h

/-- What becomes code is in the text, but for the slash that could have begun a comment and the space
that a comment counts as. -/
theorem mem_run {d : Char} (h : d ∈ (m.run text).2) : d ∈ text ∨ d = '/' ∨ d = ' ' := by
  induction text generalizing m with
  | nil => cases h
  | cons c text ih =>
    rw [run, List.mem_append] at h
    rcases h with h | h
    · exact (mem_step h).imp_left fun heq => by rw [heq]; exact List.mem_cons_self ..
    · exact (ih h).imp_left (List.mem_cons_of_mem c)

/-- A literal goes on where its quote does not come. -/
theorem run_quoted {quote : Char} (h : quote ∉ text) :
    ((literal quote).run text).2 = text ∧ ((escape quote).run text).2 = text ∧
      (((literal quote).run text).1 = literal quote ∨ ((literal quote).run text).1 = escape quote) ∧
      (((escape quote).run text).1 = literal quote ∨ ((escape quote).run text).1 = escape quote) := by
  induction text with
  | nil => exact ⟨rfl, rfl, .inl rfl, .inr rfl⟩
  | cons c text ih =>
    rw [List.mem_cons, not_or] at h
    obtain ⟨hcode, hcode', hmode, hmode'⟩ := ih h.2
    rw [run, run, step, step]
    by_cases hc : c = '\\'
    · rw [if_pos hc]
      exact ⟨congrArg (c :: ·) hcode', congrArg (c :: ·) hcode, hmode', hmode⟩
    · rw [if_neg hc, if_neg (Ne.symm h.1)]
      exact ⟨congrArg (c :: ·) hcode, congrArg (c :: ·) hcode, hmode, hmode⟩

/-- Where no block comment begins, none is open at the end of the line. -/
theorem run_unopened (h : ¬ ['/', '*'] <:+: text) (hm : m.newline.1 = .code)
    (hslash : m = .slash → text.head? ≠ some '*') : (m.run text).1.newline.1 = .code := by
  induction text generalizing m with
  | nil => exact hm
  | cons c text ih =>
    have hstep : (m.step c).1.newline.1 = .code ∧ ((m.step c).1 = .slash → c = '/') := by
      cases m with
      | code | literal quote => rw [step]; grind [newline]
      | slash =>
        have hc : c ≠ '*' := fun hc => hslash rfl (congrArg some hc)
        rw [step]
        grind [newline]
      | line | escape quote => exact ⟨rfl, fun h => by cases h⟩
      | block | star => cases hm
    refine ih (fun hwithin => h (hwithin.trans (List.suffix_cons c text).isInfix)) hstep.1 fun hslash' hstar => h ?_
    obtain ⟨rest, rfl⟩ : ∃ rest, text = '*' :: rest := List.head?_eq_some_iff.mp hstar
    rw [hstep.2 hslash']
    exact (List.prefix_append ['/', '*'] rest).isInfix

/-- Where no block comment ends, one that is open goes on. -/
theorem run_unclosed (h : ¬ ['*', '/'] <:+: text)
    (hm : m = .block ∨ m = .star ∧ text.head? ≠ some '/') :
    ((m.run text).1 = .block ∨ (m.run text).1 = .star) ∧ (m.run text).2 = [] := by
  induction text generalizing m with
  | nil => exact ⟨hm.imp_right And.left, rfl⟩
  | cons c text ih =>
    have hstep : ((m.step c).1 = .block ∨ (m.step c).1 = .star ∧ c = '*') ∧ (m.step c).2 = [] := by
      rcases hm with rfl | ⟨rfl, hc⟩
      · rw [step]
        grind
      · have hne : c ≠ '/' := fun hc' => hc (congrArg some hc')
        rw [step]
        grind
    obtain ⟨hmode, hcode⟩ := hstep
    have hrest : ¬ ['*', '/'] <:+: text := fun hwithin => h (hwithin.trans (List.suffix_cons c text).isInfix)
    obtain ⟨hmode', hcode'⟩ := ih hrest (hmode.imp_right fun ⟨hstar, hc⟩ => ⟨hstar, fun hslash => h (by
      obtain ⟨rest, rfl⟩ : ∃ rest, text = '/' :: rest := List.head?_eq_some_iff.mp hslash
      rw [hc]
      exact (List.prefix_append ['*', '/'] rest).isInfix)⟩)
    rw [run, hcode, hcode']
    exact ⟨hmode', rfl⟩

end Mode

/-! ## Physical lines -/

theorem readLine_of_not (h : line.getLast? ≠ some '\\') : readLine m line =
    ⟨(m.run line).1.newline.1, (m.run line).2 ++ (m.run line).1.newline.2,
      (m.run line).1.newline.1 = .code⟩ := by
  rw [readLine, if_neg h]

theorem readLine_nil (m : Mode) : readLine m [] = ⟨m.newline.1, m.newline.2, m.newline.1 = .code⟩ := rfl

/-- A line is read on behind a text from the mode that the text leads to. -/
theorem readLine_behind (h : b ≠ [] ∨ a.getLast? ≠ some '\\') : readLine m (a ++ b) =
    { readLine (m.run a).1 b with code := (m.run a).2 ++ (readLine (m.run a).1 b).code } := by
  by_cases hb : b = []
  · have ha : a.getLast? ≠ some '\\' := h.resolve_left fun hne => hne hb
    rw [hb, List.append_nil, readLine_of_not ha, readLine_nil]
  · have hlast : (a ++ b).getLast? = b.getLast? := List.getLast?_append_of_ne_nil a hb
    by_cases hsplice : b.getLast? = some '\\'
    · rw [readLine, if_pos (hlast.trans hsplice), readLine, if_pos hsplice, List.dropLast_append_of_ne_nil hb,
        Mode.run_append]
    · rw [readLine_of_not (by rwa [hlast]), readLine_of_not hsplice, Mode.run_append]
      simp only [List.append_assoc]

/-- A plain line is code and ends. -/
theorem readLine_plain (h : ∀ c ∈ line, Mode.Plain c) (hlast : line.getLast? ≠ some '\\') :
    readLine .code line = ⟨.code, line, true⟩ := by
  rw [readLine_of_not hlast, Mode.run_plain h]
  simp [Mode.newline]

/-- Plain text at the beginning of a line is code as it stands, whether or not the line goes on. -/
theorem readLine_append {c : Char} (h : ∀ d ∈ a ++ [c], Mode.Plain d) (hlast : c ≠ '\\') (b : List Char) :
    ∃ more, (readLine .code (a ++ c :: b)).code = a ++ c :: more := by
  have hsplit : ∀ b : List Char, Mode.code.run (a ++ c :: b) =
      ((Mode.code.run b).1, a ++ c :: (Mode.code.run b).2) := by
    intro b
    have hcons : a ++ c :: b = (a ++ [c]) ++ b := by simp
    rw [hcons, Mode.run_append, Mode.run_plain h]
    simp
  cases b using List.reverseRecOn with
  | nil =>
    rw [readLine_of_not (by simpa using hlast), hsplit]
    exact ⟨_, by simp; rfl⟩
  | append_singleton b d =>
    by_cases hd : (a ++ c :: (b ++ [d])).getLast? = some '\\'
    · have hdrop : (a ++ c :: (b ++ [d])).dropLast = a ++ c :: b := by
        rw [← List.cons_append, ← List.append_assoc, List.dropLast_concat]
      rw [readLine, if_pos hd, hdrop, hsplit]
      exact ⟨_, rfl⟩
    · rw [readLine_of_not hd, hsplit]
      exact ⟨_, by simp; rfl⟩

theorem modeAfter_append (m : Mode) (lines lines' : List (List Char)) :
    modeAfter m (lines ++ lines') = modeAfter (modeAfter m lines) lines' := List.foldl_append

/-! ## Cuts between logical lines -/

theorem State.after_append (st : State) (lines lines' : List (List Char)) :
    st.after blank (lines ++ lines') = (st.after blank lines).after blank lines' := List.foldl_append

theorem State.mode_after (st : State) (lines : List (List Char)) :
    (st.after blank lines).mode = modeAfter st.mode lines := by
  induction lines generalizing st with
  | nil => rfl
  | cons line lines ih => exact ih (st.next blank line)

theorem length_marks (st : State) (lines : List (List Char)) :
    (marks blank st lines).2.length = lines.length := by
  induction lines generalizing st with
  | nil => rfl
  | cons line lines ih =>
    rw [marks]
    split
    · simp only [List.length_cons, ih]
    · simp only [List.length_cons, ih]

/-- Where no logical line goes on, lines are read apart from those above. -/
theorem marks_append_aux (h : (st.after blank lines).fresh) (lines' : List (List Char)) :
    (marks blank st (lines ++ lines')).2 =
        (marks blank st lines).2 ++ (marks blank (st.after blank lines) lines').2 ∧
      (st.fresh = false → (marks blank st (lines ++ lines')).1 = (marks blank st lines).1) := by
  induction lines generalizing st with
  | nil =>
    refine ⟨rfl, fun hfresh => ?_⟩
    have hfresh' : st.fresh = true := h
    rw [hfresh] at hfresh'
    cases hfresh'
  | cons line lines ih =>
    have hrest : ((st.next blank line).after blank lines).fresh := h
    obtain ⟨hmarks, hcode⟩ := ih hrest
    -- What the logical line goes on with matters only if it goes on.
    have hsame : st.fresh = false ∨ blank (readLine st.mode line).code = false →
        (readLine st.mode line).ended = false → (marks blank (st.next blank line) (lines ++ lines')).1 =
          (marks blank (st.next blank line) lines).1 := by
      intro hopen hended
      apply hcode
      show ((readLine st.mode line).ended || st.fresh && blank (readLine st.mode line).code) = false
      rcases hopen with hopen | hopen <;> simp [hended, hopen]
    rw [List.cons_append, marks, marks]
    refine ⟨?_, fun hfresh => ?_⟩
    · cases hended : (readLine st.mode line).ended with
      | true =>
        simp only [if_true]
        split
        · simp only [hmarks, List.cons_append]
          rfl
        · simp only [hmarks, List.cons_append]
          rfl
      | false =>
        split
        · next hbegin =>
          rw [Bool.and_eq_true, Bool.not_eq_true'] at hbegin
          rw [hsame (.inr hbegin.2) hended]
          simp only [hmarks, List.cons_append]
          rfl
        · simp only [hmarks, List.cons_append]
          rfl
    · rw [hfresh]
      simp only [Bool.false_and, Bool.false_eq_true, if_false]
      cases hended : (readLine st.mode line).ended with
      | true => rfl
      | false => rw [hsame (.inl hfresh) hended]

theorem marks_append (h : st.after blank lines = .start) (lines' : List (List Char)) :
    (marks blank st (lines ++ lines')).2 = (marks blank st lines).2 ++ (marks blank .start lines').2 := by
  have hfresh : (st.after blank lines).fresh := by rw [h]; rfl
  rw [(marks_append_aux hfresh lines').1, h]

/-- A line with code that is one logical line. -/
theorem marks_whole (h : State.start.next blank line = .start) (hcode : blank (readLine .code line).code = false)
    (lines : List (List Char)) : (marks blank .start (line :: lines)).2 =
      some (readLine .code line).code :: (marks blank .start lines).2 := by
  have hended : (readLine .code line).ended = true := by
    have hfresh := congrArg State.fresh h
    have hfresh : ((readLine .code line).ended || true && blank (readLine .code line).code) = true := hfresh
    simpa [hcode] using hfresh
  rw [marks, h]
  show (if true && !blank (readLine .code line).code then _ else _ : List Char × List (Option (List Char))).2 = _
  simp [hcode, hended, State.start]

/-- A line without code. -/
theorem marks_blank (h : State.start.next blank line = .start) (hcode : blank (readLine .code line).code)
    (lines : List (List Char)) :
    (marks blank .start (line :: lines)).2 = none :: (marks blank .start lines).2 := by
  rw [marks, h]
  show (if true && !blank (readLine .code line).code then _ else _ : List Char × List (Option (List Char))).2 = _
  simp [hcode]

end Turf.Lib.Lexing
