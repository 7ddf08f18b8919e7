import Turf.Tidy.Views

/-!
# Quotes around messages

When the quotes that the message of an `#error` gets leave the comments, the statements and the ending
of its line as they are.
-/
namespace Turf.Tidy

open Turf.Lib.Pattern
open Turf.Lib.Lexing

variable {line msg text front t r : Text} {expected : LineEnding} {x : Mode × Text} {m : Mode}

def InQuotes (msg : Text) : Prop := msg.head? = some '"' ∧ msg.getLast? = some '"'

/-- A message that can get quotes: they go in front of the line ending, no comment begins or ends in the
line, neither it nor the line above goes on in the next one, and a line about traces has no quote yet. -/
structure Unquoted (expected : LineEnding) (x : Mode × Text) (msg : Text) : Prop where
  ending : isBlank msg = false ∨ expected.returns = 0
  mode : x.1 = .code ∨ x.1 = .block
  opens : ¬ ['/', '*'] <:+: x.2
  closes : ¬ ['*', '/'] <:+: x.2
  splice : (withoutEnding x.2).getLast? ≠ some '\\'
  trace : keyword <:+: x.2 → '"' ∉ x.2

/-- If the line is an `#error`, its message is in quotes or can get them. -/
def Quotable (expected : LineEnding) (x : Mode × Text) : Prop :=
  ∀ msg, errorMessage x.2 = some msg → InQuotes msg ∨ Unquoted expected x msg

instance (msg : Text) : Decidable (InQuotes msg) := inferInstanceAs (Decidable (_ ∧ _))

instance (expected : LineEnding) (x : Mode × Text) (msg : Text) : Decidable (Unquoted expected x msg) :=
  decidable_of_iff ((isBlank msg = false ∨ expected.returns = 0) ∧ (x.1 = .code ∨ x.1 = .block) ∧
      ¬ ['/', '*'] <:+: x.2 ∧ ¬ ['*', '/'] <:+: x.2 ∧ (withoutEnding x.2).getLast? ≠ some '\\' ∧
        (keyword <:+: x.2 → '"' ∉ x.2))
    ⟨fun h => ⟨h.1, h.2.1, h.2.2.1, h.2.2.2.1, h.2.2.2.2.1, h.2.2.2.2.2⟩,
      fun h => ⟨h.ending, h.mode, h.opens, h.closes, h.splice, h.trace⟩⟩

instance (expected : LineEnding) (x : Mode × Text) : Decidable (Quotable expected x) :=
  match h : errorMessage x.2 with
  | none => .isTrue fun msg hmsg => by rw [h] at hmsg; cases hmsg
  | some msg => decidable_of_iff (InQuotes msg ∨ Unquoted expected x msg)
      ⟨fun hquoted msg' hmsg => by rw [h] at hmsg; cases hmsg; exact hquoted, fun hquoted => hquoted msg h⟩

/-! ## Messages in their lines -/

/-- Quotes are added in front and behind. -/
theorem quoted_eq (msg : Text) : ∃ a b, quoted msg = a ++ (msg ++ b) ∧ (a = [] ∨ a = ['"']) ∧ (b = [] ∨ b = ['"']) := by
  rw [quoted]
  by_cases hhead : msg.head? = some '"'
  · rw [if_pos hhead]
    split
    · exact ⟨[], [], by simp, .inl rfl, .inl rfl⟩
    · exact ⟨[], ['"'], by simp, .inl rfl, .inr rfl⟩
  · rw [if_neg hhead]
    split
    · exact ⟨['"'], [], by simp, .inr rfl, .inl rfl⟩
    · exact ⟨['"'], ['"'], by simp, .inr rfl, .inr rfl⟩

/-- A text without a quote that is in the line with the quotes was in it without them. -/
theorem infix_of_quoted (ht : '"' ∉ t) (h : t <:+: front ++ (quoted msg ++ r)) : t <:+: front ++ (msg ++ r) := by
  obtain ⟨a, b, hquoted, ha, hb⟩ := quoted_eq msg
  rw [hquoted] at h
  have hback : t <:+: msg ++ (b ++ r) → t <:+: msg ++ r := by
    intro hwithin
    rcases hb with rfl | rfl
    · exact hwithin
    · rcases infix_of_not_mem ht hwithin with hleft | hright
      · exact hleft.trans (List.prefix_append msg r).isInfix
      · exact hright.trans (List.suffix_append msg r).isInfix
  rw [List.append_assoc, List.append_assoc] at h
  rcases ha with rfl | rfl
  · obtain ⟨a', b', heq⟩ := h
    rcases hb with rfl | rfl
    · exact ⟨a', b', heq⟩
    · have hsplit : front ++ ([] ++ (msg ++ (['"'] ++ r))) = (front ++ msg) ++ '"' :: r := by simp
      rw [hsplit] at heq
      rw [← List.append_assoc]
      rcases infix_of_not_mem ht ⟨a', b', heq⟩ with hleft | hright
      · exact hleft.trans (List.prefix_append (front ++ msg) r).isInfix
      · exact hright.trans (List.suffix_append (front ++ msg) r).isInfix
  · rcases infix_of_not_mem ht h with hleft | hright
    · exact hleft.trans (List.prefix_append front _).isInfix
    · exact (hback hright).trans (List.suffix_append front _).isInfix

/-- What is in front of the message of an `#error`. -/
structure IsFront (front : Text) : Prop where
  inert : ∀ text, Inert (front ++ text)
  no_keyword : 'T' ∉ front
  no_quote : '"' ∉ front

theorem isFront_error {ws ws' ws'' tail : Text} (h : Around ws ws' ws'' tail) :
    IsFront (ws ++ '#' :: (ws' ++ ("error".toList ++ ws''))) := by
  have hnot : ∀ {c : Char}, isSpace c = false → c ≠ '#' → c ∉ "error".toList →
      c ∉ ws ++ '#' :: (ws' ++ ("error".toList ++ ws'')) := by
    intro c hspace hhash herror hmem
    have hws : ∀ {u : Text}, (∀ d ∈ u, isSpace d) → c ∉ u := fun hu hc => by rw [hu c hc] at hspace; cases hspace
    rw [List.mem_append, List.mem_cons, List.mem_append, List.mem_append] at hmem
    rcases hmem with hc | hc | hc | hc | hc
    · exact hws h.before hc
    · exact hhash hc
    · exact hws h.hash hc
    · exact herror hc
    · exact hws h.error hc
  refine ⟨fun text => ?_, hnot rfl (by decide) (by decide), hnot rfl (by decide) (by decide)⟩
  rw [List.append_assoc]
  exact inert_hash h.before _

/-- The message is in front of the ending of its line. -/
theorem message_site (hmsg : errorMessage line = some msg) (hline : IsLine expected line)
    (hending : isBlank msg = false ∨ expected.returns = 0) : ∃ front t, IsFront front ∧ (∀ c ∈ t, isSpace c) ∧
      IsContent (front ++ (msg ++ t)) ∧ line = front ++ (msg ++ t) ++ expected.text ∧
      fixError line = front ++ (quoted msg ++ t) ++ expected.text := by
  obtain ⟨ws, ws', ws'', tail, haround, hdots, hne, hlast, heq, hfixed⟩ := errorMessage_spec hmsg
  obtain ⟨content, hcontent, hsplit⟩ := hline
  have herror : ∀ msg, errorLine ws ws' ws'' msg tail = (ws ++ '#' :: (ws' ++ ("error".toList ++ ws''))) ++ (msg ++ tail) := by
    intro msg
    simp only [errorLine, List.append_assoc, List.cons_append]
  have hfront := isFront_error haround
  rw [herror] at heq hfixed
  generalize ws ++ '#' :: (ws' ++ ("error".toList ++ ws'')) = front at *
  obtain ⟨t, hbefore, htail⟩ : ∃ t, content = front ++ (msg ++ t) ∧ tail = t ++ expected.text := by
    have happend : content ++ expected.text = (front ++ msg) ++ tail := by
      rw [← hsplit, heq, List.append_assoc]
    rcases List.append_eq_append_iff.mp happend with ⟨u, hmessage, htext⟩ | ⟨u, hbefore, htail⟩
    · cases u using List.reverseRecOn with
      | nil =>
        rw [List.append_nil] at hmessage
        exact ⟨[], by rw [List.append_nil, hmessage], htext.symm⟩
      | append_singleton u c =>
        -- The message does not end in the line ending.
        have hc : msg.getLast? = some c := by
          have hend := congrArg List.getLast? hmessage
          rwa [List.getLast?_append_of_ne_nil _ hne, ← List.append_assoc, List.getLast?_concat] at hend
        have hmem : c ∈ expected.text := by rw [htext]; simp
        rcases hending with hblank | hreturns
        · have hspace := hlast hblank c hc
          rw [ending_space c hmem] at hspace
          cases hspace
        · rw [expected.text_eq, hreturns, List.replicate_zero, List.nil_append, List.mem_singleton] at hmem
          have hdot := hdots c (List.mem_of_getLast? hc)
          rw [hmem] at hdot
          cases hdot
    · exact ⟨u, by rw [hbefore, List.append_assoc], htail⟩
  refine ⟨front, t, hfront, fun c hc => haround.behind c ?_, hbefore ▸ hcontent, hbefore ▸ hsplit, ?_⟩
  · rw [htail]
    exact List.mem_append_left _ hc
  · rw [hfixed, htail]
    simp only [List.append_assoc]

/-! ## Lines that no comment begins or ends in -/

/-- A directive or a blank line of its own, in which no comment begins or ends. -/
structure Steady (x : Mode × Text) : Prop where
  mode : x.1 = .code ∨ x.1 = .block
  inert : Inert x.2
  opens : ¬ ['/', '*'] <:+: withoutEnding x.2
  closes : ¬ ['*', '/'] <:+: withoutEnding x.2
  splice : (withoutEnding x.2).getLast? ≠ some '\\'

theorem newline_block (h : m = .block ∨ m = .star) : m.newline = (.block, []) := by
  rcases h with rfl | rfl <;> rfl

theorem Steady.read (h : Steady x) : modeAt x = x.1 ∧ Untraced (codeAt x) := by
  obtain ⟨m, line⟩ := x
  rw [modeAt, readLine_of_not h.splice]
  rcases h.mode with hm | hm
  · obtain rfl : m = .code := hm
    exact ⟨Mode.run_unopened h.opens rfl (fun hslash => by cases hslash), (inert_codeAt h.inert).untraced⟩
  · obtain rfl : m = .block := hm
    obtain ⟨hmode, hcode⟩ := Mode.run_unclosed h.closes (m := .block) (.inl rfl)
    have hnil : codeAt (.block, line) = [] := by
      rw [codeAt, readLine_of_not h.splice, hcode, newline_block hmode]
      rfl
    rw [newline_block hmode, hnil]
    exact ⟨rfl, (inert_of_blank rfl).untraced⟩

/-- A line with a quoted message ends in a quote, or as before. -/
theorem last_quoted {c : Char} (hc : (front ++ (quoted msg ++ t)).getLast? = some c) :
    c = '"' ∨ t.getLast? = some c := by
  cases t using List.reverseRecOn with
  | nil =>
    have hne : quoted msg ≠ [] := fun hnil => by simpa [hnil] using quoted_last msg
    rw [List.append_nil, List.getLast?_append_of_ne_nil _ hne, quoted_last] at hc
    exact .inl (Option.some.inj hc).symm
  | append_singleton t d =>
    rw [← List.append_assoc, ← List.append_assoc, List.getLast?_concat] at hc
    exact .inr (by rw [← hc, List.getLast?_concat])

theorem isContent_quoted (h : IsContent (front ++ (msg ++ t))) : IsContent (front ++ (quoted msg ++ t)) := by
  refine ⟨fun hmem => h.no_feed ?_, fun c hc => ?_⟩
  · rw [List.mem_append, List.mem_append] at hmem ⊢
    exact hmem.imp_right fun hmem => hmem.imp_left fun hmem => (quoted_mem hmem).resolve_right (by decide)
  · rcases last_quoted hc with rfl | hlast
    · rfl
    · apply h.last
      rw [List.getLast?_append, List.getLast?_append, hlast]
      rfl

/-- The line stays as it is, or it was and is a directive of its own, with its ending. -/
theorem Quotable.cases (h : Quotable expected x) (hline : IsLine expected x.2) : fixError x.2 = x.2 ∨
    ∃ front msg t, IsFront front ∧ x.2 = front ++ (msg ++ t) ++ expected.text ∧
      fixError x.2 = front ++ (quoted msg ++ t) ++ expected.text ∧ Unquoted expected x msg ∧
      Steady x ∧ Steady (x.1, fixError x.2) ∧ IsLine expected (fixError x.2) := by
  cases hmsg : errorMessage x.2 with
  | none => exact .inl (fixError_of_none hmsg)
  | some msg =>
    rcases h msg hmsg with ⟨hhead, hlast⟩ | hunquoted
    · obtain ⟨ws, ws', ws'', tail, -, -, -, -, heq, hfixed⟩ := errorMessage_spec hmsg
      rw [quoted_eq_self hhead hlast, ← heq] at hfixed
      exact .inl hfixed
    obtain ⟨front, t, hfront, hspace, hcontent, heq, hfixed⟩ := message_site hmsg hline hunquoted.ending
    have hwithout : withoutEnding x.2 = front ++ (msg ++ t) := by
      rw [heq, withoutEnding_append hcontent ending_return]
    have hnew := isContent_quoted hcontent
    have hwithout' : withoutEnding (fixError x.2) = front ++ (quoted msg ++ t) := by
      rw [hfixed, withoutEnding_append hnew ending_return]
    have hsame : ∀ {u : Text}, '"' ∉ u → ¬ u <:+: x.2 → ¬ u <:+: withoutEnding (fixError x.2) := by
      intro u hu hnot hwithin
      rw [hwithout'] at hwithin
      apply hnot
      rw [heq]
      exact (infix_of_quoted hu hwithin).trans (List.prefix_append _ _).isInfix
    have hsub : withoutEnding x.2 <:+: x.2 := by
      rw [hwithout, heq]
      exact (List.prefix_append _ _).isInfix
    refine .inr ⟨front, msg, t, hfront, heq, hfixed, hunquoted, ?_, ?_, ⟨_, hnew, hfixed⟩⟩
    · refine ⟨hunquoted.mode, ?_, fun hwithin => hunquoted.opens (hwithin.trans hsub),
        fun hwithin => hunquoted.closes (hwithin.trans hsub), hunquoted.splice⟩
      rw [heq, List.append_assoc]
      exact hfront.inert _
    · refine ⟨hunquoted.mode, ?_, hsame (by decide) hunquoted.opens, hsame (by decide) hunquoted.closes, ?_⟩
      · show Inert (fixError x.2)
        rw [hfixed, List.append_assoc]
        exact hfront.inert _
      · show (withoutEnding (fixError x.2)).getLast? ≠ some '\\'
        rw [hwithout']
        intro hsplice
        rcases last_quoted hsplice with hquote | hlast
        · cases hquote
        · cases hspace _ (List.mem_of_getLast? hlast)

theorem takeWhile_quote {a : Text} (h : '"' ∉ a) (b : Text) : (a ++ '"' :: b).takeWhile (· != '"') = a := by
  apply (dropWhile_of_head _ _).1
  · exact fun c hc => bne_iff_ne.mpr fun heq => h (heq ▸ hc)
  · intro c hc
    cases hc
    rfl

/-- A text without quotes has two around it at most. -/
theorem count_quoted (h : '"' ∉ msg) : (quoted msg).count '"' ≤ 2 := by
  obtain ⟨a, b, hquoted, ha, hb⟩ := quoted_eq msg
  have hone : ∀ {u : Text}, u = [] ∨ u = ['"'] → u.count '"' ≤ 1 := by
    rintro u (rfl | rfl) <;> decide
  rw [hquoted, List.count_append, List.count_append, List.count_eq_zero_of_not_mem h]
  have := hone ha
  have := hone hb
  omega

namespace Quotable

theorem mode_eq (h : Quotable expected x) (hline : IsLine expected x.2) : modeAt (x.1, fixError x.2) = modeAt x := by
  rcases h.cases hline with heq | ⟨front, msg, t, -, -, -, -, hsteady, hsteady', -⟩
  · rw [heq]
  · rw [hsteady.read.1, hsteady'.read.1]

/-- Without comments the line reads as before, unless it has no traces. -/
theorem code (h : Quotable expected x) (hline : IsLine expected x.2) :
    fixError x.2 = x.2 ∨ Untraced (codeAt x) ∧ Untraced (codeAt (x.1, fixError x.2)) := by
  rcases h.cases hline with heq | ⟨front, msg, t, -, -, -, -, hsteady, hsteady', -⟩
  · exact .inl heq
  · exact .inr ⟨hsteady.read.2, hsteady'.read.2⟩

theorem isLine (h : Quotable expected x) (hline : IsLine expected x.2) : IsLine expected (fixError x.2) := by
  rcases h.cases hline with heq | ⟨front, msg, t, -, -, -, -, -, -, hisLine⟩
  · rwa [heq]
  · exact hisLine

/-- The quotes are not those of a statement. -/
theorem search_none (h : Quotable expected x) (hline : IsLine expected x.2) (hnone : search tracePattern x.2 = none) :
    search tracePattern (fixError x.2) = none := by
  rcases h.cases hline with heq | ⟨front, msg, t, hfront, heq, hfixed, hunquoted, -⟩
  · rwa [heq]
  cases hfound : search tracePattern (fixError x.2) with
  | none => rfl
  | some found =>
    exfalso
    obtain ⟨ws, args, msg', tail, hfound, -⟩ := found_of_search hfound
    have hwithin : keyword <:+: x.2 := by
      rw [heq, List.append_assoc, List.append_assoc]
      apply infix_of_quoted keyword_no_quote
      rw [← List.append_assoc (quoted msg), ← List.append_assoc front, ← hfixed, hfound.eq]
      exact ⟨found.1, _, (List.append_assoc ..).trans rfl⟩
    have hquote := hunquoted.trace hwithin
    rw [heq, List.mem_append, List.mem_append, List.mem_append, not_or, not_or, not_or] at hquote
    obtain ⟨⟨-, hmsg, ht⟩, hending⟩ := hquote
    -- The only two quotes are those around the message.
    have hcount : (fixError x.2).count '"' ≤ 2 := by
      have hquoted := count_quoted hmsg
      rw [hfixed]
      simp only [List.count_append, List.count_eq_zero_of_not_mem hfront.no_quote,
        List.count_eq_zero_of_not_mem ht, List.count_eq_zero_of_not_mem hending]
      omega
    have hbefore : '"' ∉ found.1 ++ (keyword ++ (ws ++ '(' :: args)) := by
      rw [← List.count_eq_zero]
      rw [hfound.eq] at hcount
      simp only [List.count_append, List.count_cons, beq_self_eq_true, if_true] at hcount ⊢
      omega
    obtain ⟨rest, hrest⟩ : ∃ rest, quoted msg ++ t ++ expected.text = '"' :: rest := by
      obtain ⟨rest, hrest⟩ := List.head?_eq_some_iff.mp (quoted_head msg)
      exact ⟨rest ++ t ++ expected.text, by rw [hrest]; rfl⟩
    have hfront' : front = found.1 ++ (keyword ++ (ws ++ '(' :: args)) := by
      have hline' : front ++ '"' :: rest = (found.1 ++ (keyword ++ (ws ++ '(' :: args))) ++ '"' :: (msg' ++ '"' :: tail) := by
        rw [← hrest, ← List.append_assoc, ← hfixed, hfound.eq]
        simp only [List.append_assoc, List.cons_append]
      rw [← takeWhile_quote hfront.no_quote rest, hline', takeWhile_quote hbefore]
    apply hfront.no_keyword
    rw [hfront']
    exact List.mem_append_right _ (List.mem_append_left _ (by decide))

end Quotable

end Turf.Tidy
