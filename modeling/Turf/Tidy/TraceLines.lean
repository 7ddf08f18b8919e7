import Turf.Tidy.Statements

/-!
# What the sweeper finds in a line

The patterns of declarations and statements on lines with a statement, on lines that a guard or an
`#error` is about, and on the lines that the sweeper writes.
-/
namespace Turf.Tidy

open Turf.Lib.Pattern

variable {line name text rest r r' ws indent content : Text} {s : Statement} {is : List Item}

/-- The patterns of whole lines skip the space first. -/
theorem matchItems_skip {c : Char} {t : Text} (hc : isSpace c = false) (line : Text) :
    matchItems (.greedy isSpace :: .text (c :: t) :: is) line =
      (matchItems (.text (c :: t) :: is) (line.dropWhile isSpace)).map
        (line.takeWhile isSpace :: ·) := by
  have hhead : ∀ d, (line.dropWhile isSpace).head? = some d → isSpace d = false := by
    intro d hd
    have hnot := List.head?_dropWhile_not isSpace line
    rw [hd] at hnot
    exact hnot
  have hspace : ∀ d s, isSpace d → matchItems (.text (c :: t) :: is) (d :: s) = none := by
    intro d s hd
    apply matchItems_text_head
    intro heq
    rw [heq, hd] at hc
    cases hc
  have hrun := greedyRun_eq (b := line.dropWhile isSpace)
    (fun d (hd : d ∈ line.takeWhile isSpace) => List.mem_takeWhile_imp hd) hhead hspace
  rw [List.takeWhile_append_dropWhile] at hrun
  exact hrun

/-! ## Lines without traces -/

/-- A blank line or a directive. -/
def Inert (line : Text) : Prop := ∀ c, (line.dropWhile isSpace).head? = some c → c = '#'

theorem Inert.no_match {t : Text} (h : Inert line) :
    matchItems (.greedy isSpace :: .text ('T' :: t) :: is) line = none := by
  rw [matchItems_skip rfl]
  cases hdrop : line.dropWhile isSpace with
  | nil => rw [matchItems_text_none (by simp), Option.map_none]
  | cons c rest =>
    have hc : c = '#' := h c (by rw [hdrop]; rfl)
    rw [hc, matchItems_text_head (by decide), Option.map_none]

theorem Inert.no_declare (h : Inert line) : declareLine line = none :=
  Option.map_eq_none_iff.mpr h.no_match

theorem Inert.no_begin (h : Inert line) : beginLine line = none :=
  Option.map_eq_none_iff.mpr h.no_match

theorem Inert.no_end (h : Inert line) : isEnd line = false :=
  Option.isSome_eq_false_iff.mpr (Option.isNone_iff_eq_none.mpr h.no_match)

theorem inert_hash (h : ∀ c ∈ ws, isSpace c) (text : Text) : Inert (ws ++ '#' :: text) := by
  intro c hc
  rw [(dropWhile_of_head h (by intro c hc; cases hc; rfl)).2] at hc
  cases hc
  rfl

/-- The first word in a line with a statement. -/
theorem IsStatement.skip_eq (h : IsStatement line s indent ws rest) : line.dropWhile isSpace =
    keyword ++ (ws ++ '(' :: (s.args ++ '"' :: (s.literal ++ '"' :: rest))) := by
  rw [h.eq]
  apply (dropWhile_of_head h.indent _).2
  intro c hc
  cases hc
  rfl

theorem Inert.no_statement (h : Inert line) : statementOf line = none := by
  cases hs : statementOf line with
  | none => rfl
  | some s =>
    obtain ⟨indent, ws, rest, hs⟩ := isStatement_of_statementOf hs
    exact absurd (h 'T' (by rw [hs.skip_eq]; rfl)) (by decide)

/-! ## Lines with a statement -/

/-- The name of the macro of a statement does not go on. -/
theorem IsStatement.no_match {t : Text} (h : IsStatement line s indent ws rest) :
    matchItems (.greedy isSpace :: .text ('T' :: ("URF_TRACE".toList ++ '_' :: t)) :: is) line =
      none := by
  have hstart : ¬ keyword ++ '_' :: t <+: line.dropWhile isSpace := by
    rw [h.skip_eq, List.prefix_append_right_inj]
    intro hstart
    cases ws with
    | nil => exact absurd (List.cons_prefix_cons.mp hstart).1 (by decide)
    | cons c ws =>
      have hc := h.ws c (List.mem_cons_self ..)
      rw [← (List.cons_prefix_cons.mp hstart).1] at hc
      cases hc
  rw [matchItems_skip rfl, Option.map_eq_none_iff]
  exact matchItems_text_none hstart

theorem no_declaration_of_statement (h : statementOf line = some s) :
    declareLine line = none ∧ beginLine line = none ∧ isEnd line = false := by
  obtain ⟨indent, ws, rest, h⟩ := isStatement_of_statementOf h
  exact ⟨Option.map_eq_none_iff.mpr h.no_match, Option.map_eq_none_iff.mpr h.no_match,
    Option.isSome_eq_false_iff.mpr (Option.isNone_iff_eq_none.mpr h.no_match)⟩

/-- The part of a message that the sweeper takes. -/
def taken (literal : Text) : Text := literal.takeWhile (· != '"')

theorem taken_eq_self : taken text = text ↔ '"' ∉ text := by
  rw [taken, List.takeWhile_eq_self_iff]
  constructor
  · intro h hmem
    simpa using h _ hmem
  · intro h c hc
    exact bne_iff_ne.mpr fun heq => h (heq ▸ hc)

theorem taken_no_quote : '"' ∉ taken text := by
  intro hmem
  have hne := List.mem_takeWhile_imp hmem
  simp at hne

/-- What the sweeper takes is in front of a quote as well. -/
theorem exists_taken (literal rest : Text) :
    ∃ tail, literal ++ '"' :: rest = taken literal ++ '"' :: tail := by
  have hsplit : literal = taken literal ++ literal.dropWhile (· != '"') :=
    List.takeWhile_append_dropWhile.symm
  cases hdrop : literal.dropWhile (· != '"') with
  | nil =>
    rw [hdrop, List.append_nil] at hsplit
    exact ⟨rest, by rw [← hsplit]⟩
  | cons c tail =>
    obtain rfl := dropWhile_quote hdrop
    refine ⟨tail ++ '"' :: rest, ?_⟩
    conv_lhs => rw [hsplit, hdrop]
    rw [List.append_assoc, List.cons_append]

/-- A line has its line feed at the end. -/
def OneLine (line : Text) : Prop := '\n' ∉ line.dropLast

/-- Nothing in front of a quote is a line feed. -/
theorem OneLine.dot {front : Text} (h : OneLine (front ++ '"' :: rest)) : ∀ c ∈ front, isDot c := by
  intro c hc
  rw [isDot, bne_iff_ne]
  intro heq
  apply h
  rw [List.dropLast_append_of_ne_nil (List.cons_ne_nil _ _), ← heq]
  exact List.mem_append_left _ hc

/-- A part without quotes is taken up to the next quote. -/
theorem reluctant_quote {k : Text → Option Match} {part tail : Text} {m : Match}
    (hdot : ∀ c ∈ part, isDot c) (hquote : '"' ∉ part)
    (hk : ∀ c t, c ≠ '"' → k (c :: t) = none) (h : k ('"' :: tail) = some m) :
    reluctantRun isDot k 0 (part ++ '"' :: tail) = some (part :: m) := by
  apply reluctantRun_some hdot (Nat.zero_le _) h
  intro a₁ a₂ heq _ hne
  obtain ⟨c, a, rfl⟩ := List.exists_cons_of_ne_nil hne
  apply hk
  intro hc
  apply hquote
  rw [heq, hc]
  simp

/-- What the sweeper finds in a line with a statement. -/
theorem IsStatement.search_eq (h : IsStatement line s indent ws rest) (hline : OneLine line) :
    search tracePattern line =
      some (indent, [keyword, ws, ['('], s.args, ['"'], taken s.literal, ['"']]) := by
  obtain ⟨tail, htail⟩ := exists_taken s.literal rest
  have heq := h.eq
  rw [htail] at heq
  have hquote : ∀ c t, c ≠ '"' → matchItems [.text ['"']] (c :: t) = none :=
    fun c t hc => matchItems_text_head hc.symm
  have hquote' : ∀ c t, c ≠ '"' →
      matchItems [.text ['"'], .reluctant isDot 0, .text ['"']] (c :: t) = none :=
    fun c t hc => matchItems_text_head hc.symm
  have hdot : ∀ c ∈ taken s.literal, isDot c := by
    have hfront : line = indent ++ (keyword ++ (ws ++ '(' :: (s.args ++ '"' :: taken s.literal))) ++
        '"' :: tail := by
      rw [heq]
      simp only [List.append_assoc, List.cons_append]
    rw [hfront] at hline
    intro c hc
    apply hline.dot c
    simp [hc]
  have hdot' : ∀ c ∈ s.args, isDot c := by
    have hfront : line = indent ++ (keyword ++ (ws ++ '(' :: s.args)) ++
        '"' :: (taken s.literal ++ '"' :: tail) := by
      rw [heq]
      simp only [List.append_assoc, List.cons_append]
    rw [hfront] at hline
    intro c hc
    apply hline.dot c
    simp [hc]
  have hmessage : matchItems [.reluctant isDot 0, .text ['"']] (taken s.literal ++ '"' :: tail) =
      some [taken s.literal, ['"']] :=
    reluctant_quote hdot taken_no_quote hquote (matchItems_text ['"'] tail [])
  have hargs : matchItems [.reluctant isDot 0, .text ['"'], .reluctant isDot 0, .text ['"']]
      (s.args ++ '"' :: (taken s.literal ++ '"' :: tail)) =
        some [s.args, ['"'], taken s.literal, ['"']] := by
    apply reluctant_quote hdot' h.args hquote'
    rw [matchItems_char, hmessage]
    rfl
  have hparen : matchItems [.text ['('], .reluctant isDot 0, .text ['"'], .reluctant isDot 0,
      .text ['"']] ('(' :: (s.args ++ '"' :: (taken s.literal ++ '"' :: tail))) =
        some [['('], s.args, ['"'], taken s.literal, ['"']] := by
    rw [matchItems_char, hargs]
    rfl
  have hkeyword : matchItems tracePattern
      (keyword ++ (ws ++ '(' :: (s.args ++ '"' :: (taken s.literal ++ '"' :: tail)))) =
        some [keyword, ws, ['('], s.args, ['"'], taken s.literal, ['"']] := by
    have hws := greedyRun_some h.ws (by intro c hc; cases hc; rfl) hparen
    show matchItems (.text keyword :: _) _ = _
    rw [matchItems_text]
    exact congrArg (Option.map (keyword :: ·)) hws
  rw [heq]
  apply search_append hkeyword
  intro a₁ a₂ hsplit hne
  obtain ⟨c, a, rfl⟩ := List.exists_cons_of_ne_nil hne
  have hc : isSpace c := h.indent c (by rw [hsplit]; simp)
  apply matchItems_text_head
  intro heq
  rw [← heq] at hc
  cases hc

/-- The second pass gives a statement its id and leaves the rest of the line as it is. -/
theorem IsStatement.second (h : IsStatement line s indent ws rest) (expected : Ending)
    (orig : Log) (id : Nat) :
    (Pass.second expected orig).statement name id line
      (indent, [keyword, ws, ['('], s.args, ['"'], taken s.literal, ['"']]) =
        restate name id line := by
  obtain ⟨tail, htail⟩ := exists_taken s.literal rest
  have heq : line = indent ++ [keyword, ws, ['('], s.args, ['"'], taken s.literal, ['"']].flatten ++
      tail := by
    have hline := h.eq
    rw [htail] at hline
    rw [hline]
    simp
  show indent ++ "TURF_TRACE(".toList ++ argsText name id ++ ['"'] ++ taken s.literal ++ ['"'] ++
    line.drop _ = _
  rw [restate, h.takeWhile_eq, h.dropWhile_eq, htail]
  conv_lhs => rw [heq]
  rw [List.drop_left]
  show indent ++ (keyword ++ ['(']) ++ _ ++ _ ++ _ ++ _ ++ _ = _
  simp only [List.append_assoc, List.cons_append, List.nil_append]

/-! ## Line endings -/

theorem not_return {t : Text} (h : (t.all fun c => !isReturn c) = true) : ∀ c ∈ t, isReturn c = false :=
  fun c hc => by simpa using List.all_eq_true.mp h c hc

theorem closed_categoryPattern {t : Text} (h : (t.all fun c => !isReturn c) = true) :
    Closed isReturn (categoryPattern t) :=
  ⟨not_return h, not_return (by decide), List.cons_ne_nil _ _, not_return (by decide)⟩

theorem declareLine_ending (hr : ∀ c ∈ r, isReturn c) (hr' : ∀ c ∈ r', isReturn c) :
    declareLine (content ++ r) = declareLine (content ++ r') :=
  congrArg (Option.map _) (matchItems_closed (closed_categoryPattern (by decide)) hr hr' content)

theorem beginLine_ending (hr : ∀ c ∈ r, isReturn c) (hr' : ∀ c ∈ r', isReturn c) :
    beginLine (content ++ r) = beginLine (content ++ r') :=
  congrArg (Option.map _) (matchItems_closed (closed_categoryPattern (by decide)) hr hr' content)

theorem isEnd_ending (hr : ∀ c ∈ r, isReturn c) (hr' : ∀ c ∈ r', isReturn c) :
    isEnd (content ++ r) = isEnd (content ++ r') :=
  congrArg Option.isSome
    (matchItems_closed (show Closed isReturn endPattern from
      ⟨List.cons_ne_nil _ _, not_return (by decide)⟩) hr hr' content)

/-! ## Lines of files -/

/-- A line that ends with its one line feed. -/
def FeedLine (line : Text) : Prop := ∃ before : Text, '\n' ∉ before ∧ line = before ++ ['\n']

theorem FeedLine.oneLine (h : FeedLine line) : OneLine line := by
  obtain ⟨before, hfeed, rfl⟩ := h
  rw [OneLine, List.dropLast_concat]
  exact hfeed

theorem IsLine.feedLine {expected : LineEnding} (h : IsLine expected line) : FeedLine line := by
  obtain ⟨content, hcontent, rfl⟩ := h
  refine ⟨content ++ List.replicate expected.returns '\r', ?_, ?_⟩
  · rw [List.mem_append, not_or]
    refine ⟨hcontent.no_feed, fun hmem => ?_⟩
    cases List.eq_of_mem_replicate hmem
  · rw [expected.text_eq, List.append_assoc]

theorem oneLine_of_mem_readlines {file : Text} (h : line ∈ readlines file) : OneLine line := by
  obtain ⟨before, hfeed, rfl | rfl⟩ := feed_of_mem_readlines h
  · exact fun hmem => hfeed (List.dropLast_subset _ hmem)
  · exact FeedLine.oneLine ⟨before, hfeed, rfl⟩

theorem readlines_of_feedLines {lines : List Text} (h : ∀ line ∈ lines, FeedLine line) :
    readlines lines.flatten = lines := by
  induction lines with
  | nil => rfl
  | cons line lines ih =>
    obtain ⟨⟨before, hfeed, rfl⟩, hlines⟩ := List.forall_mem_cons.mp h
    have hread := readlines_line hfeed lines.flatten
    rw [ih hlines] at hread
    rw [List.flatten_cons]
    simpa using hread

/-! ## Names of categories -/

/-- What `\w+?` finds. -/
structure IsName (name : Text) : Prop where
  ne_nil : name ≠ []
  word : ∀ c ∈ name, isWord c

theorem isName_of_category {t : Text} {m : Match} (h : matchItems (categoryPattern t) line = some m) :
    IsName (group m 5) := by
  obtain ⟨ws, s₁, m₁, rfl, -, h₁, rfl⟩ := greedyRun_spec h
  obtain ⟨s₂, m₂, rfl, h₂, rfl⟩ := matchItems_text_spec h₁
  obtain ⟨ws', s₃, m₃, rfl, -, h₃, rfl⟩ := greedyRun_spec h₂
  obtain ⟨s₄, m₄, rfl, h₄, rfl⟩ := matchItems_text_spec h₃
  obtain ⟨ws'', s₅, m₅, rfl, -, h₅, rfl⟩ := greedyRun_spec h₄
  obtain ⟨name, tail, m₆, rfl, hword, hlen, -, rfl⟩ := reluctantRun_spec h₅
  exact ⟨List.length_pos_iff.mp hlen, hword⟩

theorem isName_of_declareLine (h : declareLine line = some name) : IsName name := by
  obtain ⟨m, hm, rfl⟩ := Option.map_eq_some_iff.mp h
  exact isName_of_category hm

theorem isName_of_beginLine (h : beginLine line = some name) : IsName name := by
  obtain ⟨m, hm, rfl⟩ := Option.map_eq_some_iff.mp h
  exact isName_of_category hm

/-! ## Lines that the sweeper writes -/

theorem greedyRun_nil {p : Char → Bool} {k : Text → Option Match} {c : Char} {t : Text} {m : Match}
    (hc : p c = false) (h : k (c :: t) = some m) : greedyRun p k (c :: t) = some ([] :: m) := by
  rw [greedyRun_of_stop (by intro d hd; cases hd; exact hc), h, Option.map_some]

theorem category_found {c : Char} {t : Text} (hc : isSpace c = false) (hname : IsName name)
    (tail : Text) : matchItems (categoryPattern (c :: t)) ((c :: t) ++ '(' :: (name ++ ',' :: tail)) =
      some [[], c :: t, [], ['('], [], name, [], [',']] := by
  have hcomma : matchItems [.greedy isSpace, .text [',']] (',' :: tail) = some [[], [',']] :=
    greedyRun_nil rfl (matchItems_char ',' tail [])
  have hword : matchItems [.reluctant isWord 1, .greedy isSpace, .text [',']] (name ++ ',' :: tail) =
      some [name, [], [',']] := by
    apply reluctantRun_some hname.word (List.length_pos_iff.mpr hname.ne_nil) hcomma
    intro a₁ a₂ heq _ hne
    obtain ⟨d, a, rfl⟩ := List.exists_cons_of_ne_nil hne
    have hd : isWord d := hname.word d (by rw [heq]; simp)
    have hstop : ∀ e, ((d :: a) ++ ',' :: tail).head? = some e → isSpace e = false := by
      intro e he
      cases he
      exact isWord_not_space hd
    show greedyRun isSpace _ _ = none
    rw [greedyRun_of_stop hstop, List.cons_append, matchItems_text_head]
    · rfl
    · intro heq
      rw [← heq] at hd
      cases hd
  obtain ⟨d, a, rfl⟩ := List.exists_cons_of_ne_nil hname.ne_nil
  have hfirst : matchItems [.greedy isSpace, .reluctant isWord 1, .greedy isSpace, .text [',']]
      ((d :: a) ++ ',' :: tail) = some [[], d :: a, [], [',']] :=
    greedyRun_nil (isWord_not_space (hname.word d (List.mem_cons_self ..))) hword
  have hparen : matchItems [.greedy isSpace, .text ['('], .greedy isSpace, .reluctant isWord 1,
      .greedy isSpace, .text [',']] ('(' :: ((d :: a) ++ ',' :: tail)) =
        some [[], ['('], [], d :: a, [], [',']] := by
    apply greedyRun_nil rfl
    rw [matchItems_char, hfirst]
    rfl
  have hkeyword := matchItems_text (c :: t) ('(' :: ((d :: a) ++ ',' :: tail))
    [.greedy isSpace, .text ['('], .greedy isSpace, .reluctant isWord 1, .greedy isSpace,
      .text [',']]
  rw [hparen, Option.map_some] at hkeyword
  exact greedyRun_nil hc hkeyword

/-- The same for a line that the sweeper writes. -/
theorem category_of_eq {c : Char} {t word : Text} (hword : word = c :: t) (hc : isSpace c = false)
    (hname : IsName name) (tail : Text) (heq : line = word ++ '(' :: (name ++ ',' :: tail)) :
    (matchItems (categoryPattern word) line).map (fun m => group m 5) = some name := by
  subst hword heq
  rw [category_found hc hname]
  rfl

theorem written_eq (word name number close ending : Text) :
    word ++ ['('] ++ name ++ [',', ' '] ++ number ++ close ++ ending =
      word ++ '(' :: (name ++ ',' :: (' ' :: (number ++ (close ++ ending)))) := by
  simp only [List.append_assoc, List.cons_append, List.nil_append]

variable {expected : Ending} {count : Nat}

theorem declareText_eq : declareText expected name count = "TURF_TRACE_DECLARE".toList ++
    '(' :: (name ++ ',' :: (' ' :: (decimal count ++ (")".toList ++ expected.text)))) := by
  have hopen : "TURF_TRACE_DECLARE(".toList = "TURF_TRACE_DECLARE".toList ++ ['('] := by decide
  have hcomma : ", ".toList = [',', ' '] := by decide
  have heq := written_eq "TURF_TRACE_DECLARE".toList name (decimal count) ")".toList expected.text
  rw [← hopen, ← hcomma] at heq
  exact heq

theorem beginText_eq : beginText expected name count = "TURF_TRACE_DEFINE_BEGIN".toList ++
    '(' :: (name ++ ',' :: (' ' :: (decimal count ++
      (") // autogenerated by TidySource.py".toList ++ expected.text)))) := by
  have hopen : "TURF_TRACE_DEFINE_BEGIN(".toList = "TURF_TRACE_DEFINE_BEGIN".toList ++ ['('] := by
    decide
  have hcomma : ", ".toList = [',', ' '] := by decide
  have heq := written_eq "TURF_TRACE_DEFINE_BEGIN".toList name (decimal count)
    ") // autogenerated by TidySource.py".toList expected.text
  rw [← hopen, ← hcomma] at heq
  exact heq

theorem declareLine_declareText (hname : IsName name) :
    declareLine (declareText expected name count) = some name :=
  category_of_eq (show "TURF_TRACE_DECLARE".toList = 'T' :: "URF_TRACE_DECLARE".toList by decide)
    rfl hname _ declareText_eq

theorem beginLine_begin (hname : IsName name) (tail : Text) :
    beginLine ("TURF_TRACE_DEFINE_BEGIN".toList ++ '(' :: (name ++ ',' :: tail)) = some name :=
  category_of_eq
    (show "TURF_TRACE_DEFINE_BEGIN".toList = 'T' :: "URF_TRACE_DEFINE_BEGIN".toList by decide)
    rfl hname tail rfl

theorem beginLine_beginText (hname : IsName name) :
    beginLine (beginText expected name count) = some name := by
  rw [beginText_eq]
  exact beginLine_begin hname _

/-- A line that starts with the name of another macro. -/
def IsMacro (line : Text) : Prop := ∃ rest, line = keyword ++ '_' :: rest

theorem IsMacro.skip_eq (h : IsMacro line) : line.dropWhile isSpace = line := by
  obtain ⟨rest, rfl⟩ := h
  apply (dropWhile_of_head (a := []) (fun c hc => by cases hc) _).2
  intro c hc
  cases hc
  rfl

theorem isMacro_of_eq {word tail : Text} (rest : Text) (hword : word = keyword ++ '_' :: rest) :
    IsMacro (word ++ tail) :=
  ⟨rest ++ tail, by rw [hword, List.append_assoc, List.cons_append]⟩

variable {desc : Text}

theorem entryText_eq : entryText expected desc =
    "TURF_TRACE_DEFINE(\"".toList ++ (desc ++ ("\")".toList ++ expected.text)) :=
  (List.append_assoc ..).trans (List.append_assoc ..)

theorem endText_eq : endText expected name count = "TURF_TRACE_DEFINE_END".toList ++
    '(' :: (name ++ ',' :: (' ' :: (decimal count ++ (")".toList ++ expected.text)))) := by
  have hopen : "TURF_TRACE_DEFINE_END(".toList = "TURF_TRACE_DEFINE_END".toList ++ ['('] := by decide
  have hcomma : ", ".toList = [',', ' '] := by decide
  have heq := written_eq "TURF_TRACE_DEFINE_END".toList name (decimal count) ")".toList expected.text
  rw [← hopen, ← hcomma] at heq
  exact heq

theorem isMacro_declareText : IsMacro (declareText expected name count) := by
  rw [declareText_eq]
  exact isMacro_of_eq "DECLARE".toList (by decide)

theorem isMacro_beginText : IsMacro (beginText expected name count) := by
  rw [beginText_eq]
  exact isMacro_of_eq "DEFINE_BEGIN".toList (by decide)

theorem isMacro_entryText : IsMacro (entryText expected desc) := by
  rw [entryText_eq]
  exact isMacro_of_eq "DEFINE(\"".toList (by decide)

theorem isMacro_endText : IsMacro (endText expected name count) := by
  rw [endText_eq]
  exact isMacro_of_eq "DEFINE_END".toList (by decide)

/-- No other literal starts the line. -/
theorem not_starts {word literal tail : Text} (h : ¬ word <+: literal) (h' : ¬ literal <+: word) :
    ¬ word <+: literal ++ tail := fun hstart =>
  (List.prefix_or_prefix_of_prefix hstart (List.prefix_append literal tail)).elim h h'

theorem declareLine_begin (tail : Text) : declareLine ("TURF_TRACE_DEFINE_BEGIN".toList ++ tail) = none := by
  have hword : "TURF_TRACE_DECLARE".toList = 'T' :: "URF_TRACE_DECLARE".toList := by decide
  have hskip := (isMacro_of_eq "DEFINE_BEGIN".toList (by decide) :
    IsMacro ("TURF_TRACE_DEFINE_BEGIN".toList ++ tail)).skip_eq
  rw [declareLine, categoryPattern, hword, matchItems_skip rfl, hskip, ← hword,
    matchItems_text_none (not_starts (by decide) (by decide))]
  rfl

theorem declareLine_beginText : declareLine (beginText expected name count) = none := by
  rw [beginText_eq]
  exact declareLine_begin _

theorem beginLine_declareText : beginLine (declareText expected name count) = none := by
  have hword : "TURF_TRACE_DEFINE_BEGIN".toList = 'T' :: "URF_TRACE_DEFINE_BEGIN".toList := by decide
  have hskip := (isMacro_declareText : IsMacro (declareText expected name count)).skip_eq
  rw [beginLine, categoryPattern, hword, matchItems_skip rfl, hskip, ← hword, declareText_eq,
    matchItems_text_none (not_starts (by decide) (by decide))]
  rfl

theorem isEnd_entryText : isEnd (entryText expected desc) = false := by
  have hword : "TURF_TRACE_DEFINE_END".toList = 'T' :: "URF_TRACE_DEFINE_END".toList := by decide
  have hskip := (isMacro_entryText : IsMacro (entryText expected desc)).skip_eq
  rw [isEnd, endPattern, hword, matchItems_skip rfl, hskip, ← hword, entryText_eq,
    matchItems_text_none (not_starts (by decide) (by decide))]
  rfl

theorem isEnd_of_prefix (tail : Text) : isEnd ("TURF_TRACE_DEFINE_END".toList ++ tail) := by
  generalize hword : "TURF_TRACE_DEFINE_END".toList = word
  rw [isEnd, endPattern, hword]
  have hmatch : (matchItems [.text word] (word ++ tail)).isSome := by
    rw [matchItems_text]
    rfl
  exact greedyRun_isSome (a := []) (fun c hc => by cases hc) hmatch

theorem isEnd_endText : isEnd (endText expected name count) := by
  rw [endText_eq]
  exact isEnd_of_prefix _

end Turf.Tidy
