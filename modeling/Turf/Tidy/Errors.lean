import Turf.Tidy.TraceLines

/-!
# Messages of `#error`

What the sweeper finds behind an `#error`, and why it finds nothing to change in what it has written.
-/
namespace Turf.Tidy

open Turf.Lib.Pattern

variable {line ws ws' ws'' msg tail : Text} {expected : Ending}

/-- A line with an `#error`. -/
def errorLine (ws ws' ws'' msg tail : Text) : Text :=
  ws ++ '#' :: (ws' ++ ("error".toList ++ (ws'' ++ (msg ++ tail))))

theorem inert_errorLine (hws : ∀ c ∈ ws, isSpace c) : Inert (errorLine ws ws' ws'' msg tail) :=
  inert_hash hws _

/-- What surrounds the message in such a line, where it is one. -/
structure Around (ws ws' ws'' tail : Text) : Prop where
  before : ∀ c ∈ ws, isSpace c
  hash : ∀ c ∈ ws', isSpace c
  error : ∀ c ∈ ws'', isSpace c
  behind : ∀ c ∈ tail, isSpace c

/-- The message of an `#error`. -/
def errorMessage (line : Text) : Option Text := (matchItems errorPattern line).map fun m => group m 5

/-- As few characters as possible are in the message, so it does not end with a space. -/
theorem last_of_message {m : Match} {s : Text}
    (h : reluctantRun isDot (matchItems [.greedy isSpace, .atEnd]) 1 s = some m) : ∃ msg tail m', s = msg ++ tail ∧
      m = msg :: m' ∧ (∀ c ∈ msg, isDot c) ∧ msg ≠ [] ∧ (∀ c ∈ tail, isSpace c) ∧
        (isBlank msg = false → ∀ c, msg.getLast? = some c → isSpace c = false) := by
  have hall : ∀ {t : Text} {m' : Match}, matchItems [.greedy isSpace, .atEnd] t = some m' → ∀ c ∈ t, isSpace c := by
    intro t m' ht
    rw [matchItems_rest rfl] at ht
    split at ht
    · next hspace => exact List.all_eq_true.mp hspace
    · cases ht
  cases s with
  | nil => cases h
  | cons c s =>
    rw [reluctantRun] at h
    split at h
    · next hc =>
      obtain ⟨m₁, hrun, rfl⟩ := Option.map_eq_some_iff.mp h
      obtain ⟨msg, tail, m', rfl, hmsg, htail, rfl, hfirst⟩ := reluctantRun_first hrun
      refine ⟨c :: msg, tail, m', rfl, rfl, List.forall_mem_cons.mpr ⟨hc, hmsg⟩, List.cons_ne_nil _ _, hall htail, ?_⟩
      intro hblank d hd
      by_contra hnot
      have hspace : isSpace d = true := by simpa using hnot
      cases msg using List.reverseRecOn with
      | nil =>
        obtain rfl : c = d := Option.some.inj hd
        rw [isBlank, List.all_cons, hspace] at hblank
        cases hblank
      | append_singleton msg e =>
        rw [← List.cons_append, List.getLast?_concat] at hd
        cases hd
        have hnone := hfirst msg [d] rfl (List.cons_ne_nil _ _)
        rw [matchItems_rest rfl, if_pos] at hnone
        · cases hnone
        · rw [List.all_append, List.all_eq_true.mpr (hall htail), Bool.and_true, List.all_cons, List.all_nil,
            Bool.and_true, hspace]
    · cases h

/-- A message of an `#error` is put in quotes where it is. -/
theorem errorMessage_spec (h : errorMessage line = some msg) : ∃ ws ws' ws'' tail : Text,
    Around ws ws' ws'' tail ∧ (∀ c ∈ msg, isDot c) ∧ msg ≠ [] ∧
      (isBlank msg = false → ∀ c, msg.getLast? = some c → isSpace c = false) ∧
      line = errorLine ws ws' ws'' msg tail ∧ fixError line = errorLine ws ws' ws'' (quoted msg) tail := by
  obtain ⟨m, hm, hmsg⟩ := Option.map_eq_some_iff.mp h
  rw [fixError, hm]
  obtain ⟨ws, s₁, m₁, rfl, hws, h₁, rfl⟩ := greedyRun_spec hm
  obtain ⟨s₂, m₂, rfl, h₂, rfl⟩ := matchItems_text_spec h₁
  obtain ⟨ws', s₃, m₃, rfl, hws', h₃, rfl⟩ := greedyRun_spec h₂
  obtain ⟨s₄, m₄, rfl, h₄, rfl⟩ := matchItems_text_spec h₃
  obtain ⟨ws'', s₅, m₅, rfl, hws'', h₅, rfl⟩ := greedyRun_spec h₄
  obtain ⟨msg', tail, m₆, rfl, rfl, hdots, hne, htail, hlast⟩ := last_of_message h₅
  obtain rfl : msg' = msg := hmsg
  refine ⟨ws, ws', ws'', tail, ⟨hws, hws', hws'', htail⟩, hdots, hne, hlast, rfl, ?_⟩
  have hline : ws ++ (['#'] ++ (ws' ++ ("error".toList ++ (ws'' ++ (msg' ++ tail))))) =
      [ws, ['#'], ws', "error".toList, ws''].flatten ++ (msg' ++ tail) := by
    simp only [List.flatten_cons, List.flatten_nil, List.append_assoc, List.append_nil]
  show List.take [ws, ['#'], ws', "error".toList, ws''].flatten.length _ ++ quoted msg' ++
    List.drop ([ws, ['#'], ws', "error".toList, ws''].flatten.length + msg'.length) _ = _
  rw [hline, List.take_left, ← List.append_assoc, ← List.length_append, List.drop_left]
  simp only [errorLine, List.flatten_cons, List.flatten_nil, List.append_assoc, List.append_nil,
    List.cons_append, List.nil_append]

theorem fixError_of_none (h : errorMessage line = none) : fixError line = line := by
  rw [fixError, Option.map_eq_none_iff.mp h]

theorem fixError_spec (line : Text) : fixError line = line ∨ ∃ ws ws' ws'' msg tail : Text,
    Around ws ws' ws'' tail ∧ (∀ c ∈ msg, isDot c) ∧ msg ≠ [] ∧
      line = errorLine ws ws' ws'' msg tail ∧ fixError line = errorLine ws ws' ws'' (quoted msg) tail := by
  cases h : errorMessage line with
  | none => exact .inl (fixError_of_none h)
  | some msg =>
    obtain ⟨ws, ws', ws'', tail, haround, hdots, hne, -, hline, hfixed⟩ := errorMessage_spec h
    exact .inr ⟨ws, ws', ws'', msg, tail, haround, hdots, hne, hline, hfixed⟩

/-- Only directives are changed, and they stay directives. -/
theorem fixError_cases (line : Text) : fixError line = line ∨ Inert line ∧ Inert (fixError line) := by
  rcases fixError_spec line with h | ⟨ws, ws', ws'', msg, tail, haround, -, -, hline, hfixed⟩
  · exact .inl h
  · rw [hfixed, hline]
    exact .inr ⟨inert_errorLine haround.before, inert_errorLine haround.before⟩

/-- Another directive has no message. -/
theorem errorMessage_of_directive {c d : Char} {rest : Text} (hc : isSpace c = false)
    (hother : c ≠ 'e' ∨ d ≠ 'r') : errorMessage ('#' :: c :: d :: rest) = none := by
  by_contra hsome
  obtain ⟨msg, hmsg⟩ := Option.ne_none_iff_exists'.mp hsome
  obtain ⟨ws, ws', ws'', tail, haround, -, -, -, hline, -⟩ := errorMessage_spec hmsg
  obtain ⟨t, herror⟩ : ∃ t, "error".toList = 'e' :: 'r' :: t := ⟨"ror".toList, by decide⟩
  rw [errorLine, herror] at hline
  cases ws with
  | cons e ws =>
    have he := haround.before e (List.mem_cons_self ..)
    rw [← (List.cons.inj hline).1] at he
    cases he
  | nil =>
    have hrest := (List.cons.inj hline).2
    cases ws' with
    | cons e ws' =>
      have he := haround.hash e (List.mem_cons_self ..)
      rw [← (List.cons.inj hrest).1, hc] at he
      cases he
    | nil =>
      have htwo := List.cons.inj hrest
      rcases hother with hne | hne
      · exact hne htwo.1
      · exact hne (List.cons.inj htwo.2).1

/-- Nor has any of the lines of a new guard. -/
theorem errorMessage_new (expected : Ending) (guard : Text) : errorMessage (ifndefLine expected guard) = none ∧
    errorMessage (defineLine expected guard) = none ∧ errorMessage expected.text = none ∧
      errorMessage (endifGuardLine expected guard) = none := by
  refine ⟨errorMessage_of_directive (c := 'i') (d := 'f') rfl (by decide),
    errorMessage_of_directive (c := 'd') (d := 'e') rfl (by decide), ?_,
    errorMessage_of_directive (c := 'e') (d := 'n') rfl (by decide)⟩
  by_contra hsome
  obtain ⟨msg, hmsg⟩ := Option.ne_none_iff_exists'.mp hsome
  obtain ⟨ws, ws', ws'', tail, -, -, -, -, hline, -⟩ := errorMessage_spec hmsg
  have hhash : '#' ∈ expected.text := by
    rw [hline, errorLine]
    exact List.mem_append_right _ (List.mem_cons_self ..)
  exact absurd (ending_return _ hhash) (by decide)

theorem quoted_mem {c : Char} {msg : Text} (h : c ∈ quoted msg) : c ∈ msg ∨ c = '"' := by
  have hback : ∀ t : Text, c ∈ (if t.getLast? = some '"' then t else t ++ ['"']) →
      c ∈ t ∨ c = '"' := by
    intro t hc
    split at hc
    · exact .inl hc
    · rcases List.mem_append.mp hc with hc | hc
      · exact .inl hc
      · exact .inr (List.mem_singleton.mp hc)
  rcases hback _ h with h | h
  · split at h
    · exact .inl h
    · exact (List.mem_cons.mp h).symm
  · exact .inr h

theorem quoted_head (msg : Text) : (quoted msg).head? = some '"' := by
  have hfront : ∀ t : Text, t.head? = some '"' →
      (if t.getLast? = some '"' then t else t ++ ['"']).head? = some '"' := by
    intro t ht
    split
    · exact ht
    · rw [List.head?_append, ht]
      rfl
  apply hfront
  split
  · next h => exact h
  · rfl

theorem quoted_last (msg : Text) : (quoted msg).getLast? = some '"' := by
  have hback : ∀ t : Text, (if t.getLast? = some '"' then t else t ++ ['"']).getLast? = some '"' := by
    intro t
    split
    · next h => exact h
    · rw [List.getLast?_concat]
  exact hback _

theorem quoted_eq_self (hhead : msg.head? = some '"') (hlast : msg.getLast? = some '"') :
    quoted msg = msg := by
  rw [quoted, if_pos hhead, if_pos hlast]

/-- An `#error` with quotes around its message. -/
def IsQuoted (line : Text) : Prop :=
  ∃ ws ws' ws'' msg tail : Text, Around ws ws' ws'' tail ∧ (∀ c ∈ msg, isDot c) ∧
    msg.head? = some '"' ∧ msg.getLast? = some '"' ∧ line = errorLine ws ws' ws'' msg tail

theorem fixError_eq_or_isQuoted (line : Text) : fixError line = line ∨ IsQuoted (fixError line) := by
  rcases fixError_spec line with h | ⟨ws, ws', ws'', msg, tail, haround, hmsg, -, -, hfixed⟩
  · exact .inl h
  · refine .inr ⟨ws, ws', ws'', quoted msg, tail, haround, fun c hc => ?_, quoted_head msg,
      quoted_last msg, hfixed⟩
    rcases quoted_mem hc with hc | rfl
    · exact hmsg c hc
    · rfl

/-- The message is found as it is. -/
theorem IsQuoted.fixError_eq (h : IsQuoted line) : fixError line = line := by
  obtain ⟨ws, ws', ws'', msg, tail, haround, hmsg, hhead, hlast, rfl⟩ := h
  have hend : matchItems [.greedy isSpace, .atEnd] tail = some [tail, []] := by
    rw [matchItems_rest rfl, if_pos (List.all_eq_true.mpr haround.behind)]
  have hne : msg ≠ [] := by
    intro hnil
    rw [hnil] at hhead
    cases hhead
  have hmessage : matchItems [.reluctant isDot 1, .greedy isSpace, .atEnd] (msg ++ tail) =
      some [msg, tail, []] := by
    apply reluctantRun_some hmsg (List.length_pos_iff.mpr hne) hend
    intro a₁ a₂ heq _ hne
    rw [matchItems_rest rfl, if_neg]
    intro hall
    have hquote : '"' ∈ a₂ := by
      rw [heq, List.getLast?_append_of_ne_nil _ hne] at hlast
      exact List.mem_of_getLast? hlast
    have hspace := List.all_eq_true.mp hall '"' (List.mem_append_left _ hquote)
    cases hspace
  have hfirst : ∀ c, (msg ++ tail).head? = some c → isSpace c = false := by
    intro c hc
    rw [List.head?_append, hhead] at hc
    cases hc
    rfl
  have hbehind := greedyRun_some haround.error hfirst hmessage
  obtain ⟨c, word, hword, hc⟩ : ∃ c word, "error".toList = c :: word ∧ isSpace c = false :=
    ⟨'e', "rror".toList, by decide, rfl⟩
  have herror : matchItems [.text "error".toList, .greedy isSpace, .reluctant isDot 1, .greedy isSpace,
      .atEnd] ("error".toList ++ (ws'' ++ (msg ++ tail))) =
        some ["error".toList, ws'', msg, tail, []] := by
    rw [matchItems_text]
    exact congrArg (Option.map _) hbehind
  have hhash := greedyRun_some haround.hash (by
    intro d hd
    rw [hword] at hd
    cases hd
    exact hc) herror
  have hline : matchItems errorPattern (errorLine ws ws' ws'' msg tail) =
      some [ws, ['#'], ws', "error".toList, ws'', msg, tail, []] := by
    apply greedyRun_some haround.before
    · intro d hd
      cases hd
      rfl
    · rw [matchItems_char]
      exact congrArg (Option.map _) hhash
  rw [fixError, hline]
  show List.take [ws, ['#'], ws', "error".toList, ws''].flatten.length _ ++ quoted msg ++
    List.drop ([ws, ['#'], ws', "error".toList, ws''].flatten.length + msg.length) _ = _
  have hsplit : errorLine ws ws' ws'' msg tail =
      [ws, ['#'], ws', "error".toList, ws''].flatten ++ (msg ++ tail) := by
    simp only [errorLine, List.flatten_cons, List.flatten_nil, List.append_assoc, List.append_nil,
      List.cons_append, List.nil_append]
  rw [hsplit, List.take_left, ← List.append_assoc, ← List.length_append, List.drop_left,
    quoted_eq_self hhead hlast]

/-- The next run finds nothing to change. -/
theorem fixError_fixError (line : Text) : fixError (fixError line) = fixError line := by
  rcases fixError_eq_or_isQuoted line with h | h
  · rw [h, h]
  · exact h.fixError_eq

theorem FeedLine.fixError (h : FeedLine line) : FeedLine (fixError line) := by
  rcases fixError_spec line with heq | ⟨ws, ws', ws'', msg, tail, -, hmsg, hne, hline, hfixed⟩
  · rw [heq]
    exact h
  · obtain ⟨before, hfeed, heq⟩ := h
    have hlast : line.getLast? = some '\n' := by rw [heq, List.getLast?_concat]
    -- The line feed is behind the message.
    obtain ⟨tail', rfl⟩ : ∃ tail', tail = tail' ++ ['\n'] := by
      have hfront : line = (ws ++ '#' :: (ws' ++ ("error".toList ++ ws''))) ++ msg ++ tail := by
        rw [hline]
        simp only [errorLine, List.append_assoc, List.cons_append]
      cases tail with
      | nil =>
        rw [hfront, List.append_nil, List.getLast?_append_of_ne_nil _ hne] at hlast
        have hdot := hmsg _ (List.mem_of_getLast? hlast)
        cases hdot
      | cons c tail =>
        rw [hfront, List.getLast?_append_of_ne_nil _ (List.cons_ne_nil c tail)] at hlast
        exact List.getLast?_eq_some_iff.mp hlast
    have hbefore : before = errorLine ws ws' ws'' msg tail' := by
      rw [hline] at heq
      rw [← List.append_left_inj ['\n'], ← heq]
      simp only [errorLine, List.append_assoc, List.cons_append]
    refine ⟨errorLine ws ws' ws'' (quoted msg) tail', ?_, ?_⟩
    · intro hmem
      apply hfeed
      rw [hbefore]
      simp only [errorLine, List.mem_append, List.mem_cons] at hmem ⊢
      rcases hmem with hmem | hmem | hmem | hmem | hmem | hmem | hmem
      · exact .inl hmem
      · exact .inr (.inl hmem)
      · exact .inr (.inr (.inl hmem))
      · exact .inr (.inr (.inr (.inl hmem)))
      · exact .inr (.inr (.inr (.inr (.inl hmem))))
      · rcases quoted_mem hmem with hmem | hmem
        · exact .inr (.inr (.inr (.inr (.inr (.inl hmem)))))
        · cases hmem
      · exact .inr (.inr (.inr (.inr (.inr (.inr hmem)))))
    · rw [hfixed]
      simp only [errorLine, List.append_assoc, List.cons_append]

end Turf.Tidy
