import Turf.Tidy.TraceLines

/-!
# Lines with an id

What the second pass writes where the pattern of the statements is found, be the line a statement or
a comment about one.
-/
namespace Turf.Tidy

open Turf.Lib.Pattern

variable {line before ws args msg tail name : Text} {s : Statement} {id : Nat}

/-- What the pattern of the statements takes of a line. -/
structure Found (line before ws args msg tail : Text) : Prop where
  eq : line = before ++ (keyword ++ (ws ++ '(' :: (args ++ '"' :: (msg ++ '"' :: tail))))
  dots : ∀ c ∈ msg, isDot c
  msg : '"' ∉ msg

theorem no_quote_of_first {k : Text → Option Match} {b : Text}
    (hfirst : ∀ a₁ a₂, args = a₁ ++ a₂ → a₂ ≠ [] → k (a₂ ++ b) = none)
    (hk : ∀ a₁ a₂, args = a₁ ++ '"' :: a₂ → (k ('"' :: (a₂ ++ b))).isSome) : '"' ∉ args := by
  intro hmem
  obtain ⟨a₁, a₂, heq⟩ := List.append_of_mem hmem
  have hsome := hk a₁ a₂ heq
  rw [← List.cons_append, hfirst a₁ ('"' :: a₂) heq (List.cons_ne_nil _ _)] at hsome
  cases hsome

theorem found_of_search {m : Match} (h : search tracePattern line = some (before, m)) :
    ∃ ws args msg tail, Found line before ws args msg tail ∧
      m = [keyword, ws, ['('], args, ['"'], msg, ['"']] := by
  obtain ⟨b, rfl, hmatch, -⟩ := search_spec h
  obtain ⟨s₁, m₁, rfl, h₁, rfl⟩ := matchItems_text_spec hmatch
  obtain ⟨ws, s₂, m₂, rfl, -, h₂, rfl⟩ := greedyRun_spec h₁
  obtain ⟨s₃, m₃, rfl, h₃, rfl⟩ := matchItems_text_spec h₂
  obtain ⟨args, s₄, m₄, rfl, -, h₄, rfl, -⟩ := reluctantRun_first h₃
  obtain ⟨s₅, m₅, rfl, h₅, rfl⟩ := matchItems_text_spec h₄
  obtain ⟨msg, s₆, m₆, rfl, hmsg, h₆, rfl, hleast⟩ := reluctantRun_first h₅
  obtain ⟨tail, m₇, rfl, h₇, rfl⟩ := matchItems_text_spec h₆
  cases h₇
  refine ⟨ws, args, msg, tail, ⟨rfl, hmsg, ?_⟩, rfl⟩
  apply no_quote_of_first hleast
  intro a₁ a₂ heq
  rw [matchItems_char]
  rfl

/-- What the second pass writes. -/
def rewritten (name : Text) (id : Nat) (before msg tail : Text) : Text :=
  before ++ (keyword ++ '(' :: (argsText name id ++ '"' :: (msg ++ '"' :: tail)))

theorem Found.second (h : Found line before ws args msg tail) (expected : Ending) (orig : Log)
    (name : Text) (id : Nat) : (Pass.second expected orig).statement name id line
      (before, [keyword, ws, ['('], args, ['"'], msg, ['"']]) = rewritten name id before msg tail := by
  have heq : line = before ++ [keyword, ws, ['('], args, ['"'], msg, ['"']].flatten ++ tail := by
    rw [h.eq]
    simp only [List.flatten_cons, List.flatten_nil, List.append_assoc, List.cons_append,
      List.nil_append, List.append_nil]
  show before ++ "TURF_TRACE(".toList ++ argsText name id ++ ['"'] ++ msg ++ ['"'] ++ line.drop _ = _
  conv_lhs => rw [heq]
  rw [List.drop_left]
  show before ++ (keyword ++ ['(']) ++ _ ++ _ ++ _ ++ _ ++ _ = _
  simp only [rewritten, List.append_assoc, List.cons_append, List.nil_append]

theorem argsText_dot (hname : IsName name) (id : Nat) : ∀ c ∈ argsText name id, isDot c := by
  intro c hc
  rw [isDot, bne_iff_ne]
  intro heq
  rw [heq, argsText, List.mem_append, List.mem_append, List.mem_append] at hc
  rcases hc with ((hc | hc) | hc) | hc
  · exact absurd (hname.word _ hc) (by decide)
  · exact absurd hc (by decide)
  · exact absurd (Nat.isDigit_of_mem_toDigits (by omega) (by omega) hc) (by decide)
  · exact absurd hc (by decide)

/-! ## Ends of lines -/

/-- What follows a quote has the line feed. -/
theorem FeedLine.behind {front behind : Text} (h : FeedLine (front ++ '"' :: behind)) :
    '\n' ∉ front ∧ ∃ rest : Text, '\n' ∉ rest ∧ behind = rest ++ ['\n'] := by
  obtain ⟨content, hfeed, heq⟩ := h
  have hlast := congrArg List.getLast? heq
  cases behind using List.reverseRecOn with
  | nil =>
    rw [List.getLast?_concat, List.getLast?_concat] at hlast
    cases hlast
  | append_singleton rest c =>
    rw [List.getLast?_concat, ← List.cons_append, ← List.append_assoc, List.getLast?_concat] at hlast
    cases hlast
    rw [← List.cons_append, ← List.append_assoc, List.append_left_inj] at heq
    rw [← heq, List.mem_append, List.mem_cons, not_or, not_or] at hfeed
    exact ⟨hfeed.1, rest, hfeed.2.2, rfl⟩

theorem Found.feedLine (h : Found line before ws args msg tail) (hline : FeedLine line)
    (hname : IsName name) (id : Nat) : FeedLine (rewritten name id before msg tail) := by
  have hfront : line = (before ++ (keyword ++ (ws ++ '(' :: (args ++ '"' :: msg)))) ++ '"' :: tail := by
    rw [h.eq]
    simp only [List.append_assoc, List.cons_append]
  rw [hfront] at hline
  obtain ⟨hfeed, rest, hrest, rfl⟩ := hline.behind
  refine ⟨before ++ (keyword ++ '(' :: (argsText name id ++ '"' :: (msg ++ '"' :: rest))), ?_, ?_⟩
  · have hargs : '\n' ∉ argsText name id := fun hmem => absurd (argsText_dot hname id _ hmem) (by decide)
    simp only [List.mem_append, List.mem_cons, not_or] at hfeed ⊢
    exact ⟨hfeed.1, hfeed.2.1, by decide, hargs, by decide, hfeed.2.2.2.2.2.2, by decide, hrest⟩
  · simp only [rewritten, List.append_assoc, List.cons_append]

variable {expected : Ending} {line' front front' rest : Text}

/-- What follows a quote has the ending of the line. -/
theorem IsLine.behind (h : IsLine expected (front ++ '"' :: rest)) (hfront : '\n' ∉ front') :
    IsLine expected (front' ++ '"' :: rest) := by
  obtain ⟨content, hcontent, heq⟩ := h
  rcases List.append_eq_append_iff.mp heq with ⟨c, rfl, hbehind⟩ | ⟨c, rfl, hending⟩
  · cases c with
    | nil =>
      have hquote : '"' ∈ expected.text := by
        rw [← (show '"' :: rest = expected.text from hbehind)]
        exact List.mem_cons_self ..
      exact absurd (ending_return _ hquote) (by decide)
    | cons d c =>
      obtain ⟨rfl, hrest⟩ := List.cons.inj hbehind
      refine ⟨front' ++ '"' :: c, ⟨?_, ?_⟩, ?_⟩
      · have hfeed := hcontent.no_feed
        rw [List.mem_append, not_or] at hfeed ⊢
        exact ⟨hfront, hfeed.2⟩
      · intro d hd
        apply hcontent.last d
        rw [List.getLast?_append_of_ne_nil _ (List.cons_ne_nil _ c)] at hd ⊢
        exact hd
      · rw [show rest = c ++ expected.text from hrest]
        simp only [List.append_assoc, List.cons_append]
  · have hquote : '"' ∈ expected.text := by
      rw [hending]
      exact List.mem_append_right _ (List.mem_cons_self ..)
    exact absurd (ending_return _ hquote) (by decide)

/-- The second pass leaves a line as it is or rewrites it where the pattern is found. -/
inductive Written (name : Text) : Text → Text → Prop
  | same {line : Text} (h : search tracePattern line = none) : Written name line line
  | rewritten {line before ws args msg tail : Text} (id : Nat)
    (hsearch : search tracePattern line = some (before, [keyword, ws, ['('], args, ['"'], msg, ['"']]))
    (h : Found line before ws args msg tail) :
    Written name line (rewritten name id before msg tail)

namespace Written

theorem eq_of_none (h : Written name line line') (hnone : search tracePattern line = none) :
    line' = line := by
  cases h with
  | same => rfl
  | rewritten id hsearch _ =>
    rw [hnone] at hsearch
    cases hsearch

theorem feedLine (h : Written name line line') (hname : IsName name) (hline : FeedLine line) :
    FeedLine line' := by
  cases h with
  | same => exact hline
  | rewritten id _ h => exact h.feedLine hline hname id

theorem isLine {expected : LineEnding} (h : Written name line line') (hname : IsName name)
    (hline : IsLine expected line) :
    IsLine expected line' := by
  cases h with
  | same => exact hline
  | @rewritten before ws args msg tail id _ h =>
    have hfront : line = (before ++ (keyword ++ (ws ++ '(' :: args))) ++ '"' :: (msg ++ '"' :: tail) := by
      rw [h.eq]
      simp only [List.append_assoc, List.cons_append]
    have hfeed := (hfront ▸ hline.feedLine).behind.1
    rw [hfront] at hline
    have hnew : '\n' ∉ before ++ (keyword ++ '(' :: argsText name id) := by
      have hargs : '\n' ∉ argsText name id :=
        fun hmem => absurd (argsText_dot hname id _ hmem) (by decide)
      simp only [List.mem_append, List.mem_cons, not_or] at hfeed ⊢
      exact ⟨hfeed.1, hfeed.2.1, by decide, hargs⟩
    have hbehind := hline.behind hnew
    simpa only [Turf.Tidy.rewritten, List.append_assoc, List.cons_append] using hbehind

end Written

/-- A statement is found, and it is written with its id. -/
theorem search_statement (hline : OneLine line) (h : statementOf line = some s) :
    ∃ before m, search tracePattern line = some (before, m) ∧ group m 5 = taken s.literal ∧
      ∀ expected orig name id, (Pass.second expected orig).statement name id line (before, m) =
        restate name id line := by
  obtain ⟨indent, ws, rest, h⟩ := isStatement_of_statementOf h
  exact ⟨indent, _, h.search_eq hline, rfl, fun expected orig name id => h.second expected orig id⟩

theorem Written.restate_eq (h : Written name line line') (hline : OneLine line)
    (hs : statementOf line = some s) : ∃ id, line' = restate name id line := by
  obtain ⟨front, m, hsearch, -, hwrite⟩ := search_statement hline hs
  cases h with
  | same hnone =>
    rw [hnone] at hsearch
    cases hsearch
  | rewritten id hfound h =>
    rw [hfound] at hsearch
    cases hsearch
    exact ⟨id, by rw [← hwrite LineEnding.unix .start, h.second]⟩

end Turf.Tidy
