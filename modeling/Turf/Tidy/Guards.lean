import Turf.Tidy.GuardLines

/-!
# Include guards

What the two loops find, and when the rewrite of the guard keeps the header in order.
-/
namespace Turf.Tidy

open Turf.Lib.Pattern

/-! ## Loops over lines -/

section Scan

variable {body : Guards → Text → Option Guards} {got got' : Guards} {passed rest lines : List Text}

/-- A loop breaks at a nonblank line that it does not pass. -/
def Stops (body : Guards → Text → Option Guards) (got : Guards) (rest : List Text) : Prop :=
  ∀ line, rest.head? = some line → isBlank line = false ∧ body got line = none

/-- A loop goes through the nonblank lines in order. -/
theorem scan_spec (body : Guards → Text → Option Guards) (got : Guards) (lines : List Text) :
    ∃ passed, lines = passed ++ (scan body got lines).2 ∧
      (nonblank passed).foldlM body got = some (scan body got lines).1 ∧
      Stops body (scan body got lines).1 (scan body got lines).2 := by
  induction lines generalizing got with
  | nil => exact ⟨[], rfl, rfl, fun line hline => by cases hline⟩
  | cons line lines ih =>
    rw [scan]
    split
    · next hblank =>
      obtain ⟨passed, heq, hfold, hstop⟩ := ih got
      refine ⟨line :: passed, congrArg (line :: ·) heq, ?_, hstop⟩
      rw [nonblank, List.filter_cons_of_neg (by simp [hblank])]
      exact hfold
    · next hblank =>
      have hline : isBlank line = false := by simpa using hblank
      split
      · next got' hbody =>
        obtain ⟨passed, heq, hfold, hstop⟩ := ih got'
        refine ⟨line :: passed, congrArg (line :: ·) heq, ?_, hstop⟩
        rw [nonblank_cons_of_not hline, List.foldlM_cons, hbody]
        exact hfold
      · next hbody =>
        refine ⟨[], rfl, rfl, ?_⟩
        intro _ hhead
        cases hhead
        exact ⟨hline, hbody⟩

/-- Where the loop ends is determined by the lines. -/
theorem scan_eq (hfold : (nonblank passed).foldlM body got = some got')
    (hstop : Stops body got' rest) : scan body got (passed ++ rest) = (got', rest) := by
  induction passed generalizing got with
  | nil =>
    cases hfold
    cases rest with
    | nil => rfl
    | cons line rest =>
      obtain ⟨hblank, hbody⟩ := hstop line rfl
      rw [List.nil_append, scan, hblank, hbody]
      rfl
  | cons line passed ih =>
    rw [List.cons_append, scan]
    split
    · next hblank =>
      rw [nonblank, List.filter_cons_of_neg (by simp [hblank])] at hfold
      exact ih hfold
    · next hblank =>
      rw [nonblank_cons_of_not (by simpa using hblank), List.foldlM_cons] at hfold
      obtain ⟨got₁, hbody, hfold⟩ := Option.bind_eq_some_iff.mp hfold
      rw [hbody]
      exact ih hfold

end Scan

/-! ## The first loop -/

variable {got got' : Guards} {line first : Text} {lines rest top inner bottom body : List Text}

theorem top_define {text : Text} {ifndef : Option Text} (h : guardLine line = some (defineText, text)) :
    Guards.top ⟨ifndef, none, none⟩ line = some ⟨ifndef, some text, none⟩ := by
  simp [Guards.top, h]

theorem top_ifndef {text : Text} {define : Option Text} (h : guardLine line = some (ifndefText, text)) :
    Guards.top ⟨none, define, none⟩ line = some ⟨some text, define, none⟩ := by
  have hne : ifndefText ≠ defineText := by decide
  simp [Guards.top, h, hne]

theorem top_full {ifndef define : Text} : Guards.top ⟨some ifndef, some define, none⟩ line = none := by
  rw [Guards.top, if_neg (by simp)]
  split
  · rfl
  · simp

/-- The lines that the first loop passes: no directive twice. -/
inductive TopRun : List Text → Guards → Prop
  | nil : TopRun [] .start
  | define {line text : Text} (h : guardLine line = some (defineText, text)) :
    TopRun [line] ⟨none, some text, none⟩
  | ifndef {line text : Text} (h : guardLine line = some (ifndefText, text)) :
    TopRun [line] ⟨some text, none, none⟩
  | defineIfndef {line line' text text' : Text} (h : guardLine line = some (defineText, text))
    (h' : guardLine line' = some (ifndefText, text')) :
    TopRun [line, line'] ⟨some text', some text, none⟩
  | ifndefDefine {line line' text text' : Text} (h : guardLine line = some (ifndefText, text))
    (h' : guardLine line' = some (defineText, text')) :
    TopRun [line, line'] ⟨some text, some text', none⟩

theorem top_some {ifndef define : Option Text} (h : Guards.top ⟨ifndef, define, none⟩ line = some got) :
    (∃ text, guardLine line = some (defineText, text) ∧ define = none ∧
        got = ⟨ifndef, some text, none⟩) ∨
      ∃ text, guardLine line = some (ifndefText, text) ∧ ifndef = none ∧
        got = ⟨some text, define, none⟩ := by
  rw [Guards.top, if_neg (by simp)] at h
  split at h
  · cases h
  · next directive text hline =>
    split at h
    · next hdefine =>
      obtain ⟨rfl, hnone⟩ := hdefine
      cases h
      exact .inl ⟨text, hline, hnone, rfl⟩
    · split at h
      · next hifndef =>
        obtain ⟨rfl, hnone⟩ := hifndef
        cases h
        exact .inr ⟨text, hline, hnone, rfl⟩
      · cases h

theorem topRun_iff : lines.foldlM Guards.top .start = some got ↔ TopRun lines got := by
  constructor
  · intro h
    match lines, h with
    | [], h =>
      cases h
      exact .nil
    | line :: lines, h =>
      rw [List.foldlM_cons] at h
      obtain ⟨got₁, hline, h⟩ := Option.bind_eq_some_iff.mp h
      rcases top_some hline with ⟨text, hguard, -, rfl⟩ | ⟨text, hguard, -, rfl⟩
      · match lines, h with
        | [], h =>
          cases h
          exact .define hguard
        | line' :: lines, h =>
          rw [List.foldlM_cons] at h
          obtain ⟨got₂, hline', h⟩ := Option.bind_eq_some_iff.mp h
          rcases top_some hline' with ⟨_, -, hnone, -⟩ | ⟨text', hguard', -, rfl⟩
          · cases hnone
          · match lines, h with
            | [], h =>
              cases h
              exact .defineIfndef hguard hguard'
            | _ :: _, h =>
              rw [List.foldlM_cons, top_full] at h
              cases h
      · match lines, h with
        | [], h =>
          cases h
          exact .ifndef hguard
        | line' :: lines, h =>
          rw [List.foldlM_cons] at h
          obtain ⟨got₂, hline', h⟩ := Option.bind_eq_some_iff.mp h
          rcases top_some hline' with ⟨text', hguard', -, rfl⟩ | ⟨_, -, hnone, -⟩
          · match lines, h with
            | [], h =>
              cases h
              exact .ifndefDefine hguard hguard'
            | _ :: _, h =>
              rw [List.foldlM_cons, top_full] at h
              cases h
          · cases hnone
  · intro h
    cases h with
    | nil => rfl
    | define h => rw [List.foldlM_cons, Guards.start, top_define h]; rfl
    | ifndef h => rw [List.foldlM_cons, Guards.start, top_ifndef h]; rfl
    | defineIfndef h h' =>
      show (Guards.top ⟨none, none, none⟩ _).bind _ = _
      rw [top_define h, Option.bind_some, List.foldlM_cons, top_ifndef h']
      rfl
    | ifndefDefine h h' =>
      show (Guards.top ⟨none, none, none⟩ _).bind _ = _
      rw [top_ifndef h, Option.bind_some, List.foldlM_cons, top_define h']
      rfl

theorem TopRun.endif (h : TopRun lines got) : got.endif = none := by
  cases h <;> rfl

/-! ## The second loop -/

theorem bottom_of_none (h : got.endif = none) : Guards.bottom got line =
    (endifLine line).map fun text => { got with endif := some text } := by
  rw [Guards.bottom, if_pos h]

theorem bottom_of_some {text : Text} (h : got.endif = some text) : Guards.bottom got line = none := by
  rw [Guards.bottom, if_neg (by rw [h]; exact Option.some_ne_none text)]

/-- The second loop passes at most one line that is not blank. -/
theorem bottomRun (h : got.endif = none) (hfold : lines.foldlM Guards.bottom got = some got') :
    lines = [] ∧ got' = got ∨ ∃ line text, lines = [line] ∧ endifLine line = some text ∧
      got' = { got with endif := some text } := by
  match lines, hfold with
  | [], hfold =>
    cases hfold
    exact .inl ⟨rfl, rfl⟩
  | line :: lines, hfold =>
    rw [List.foldlM_cons, bottom_of_none h] at hfold
    obtain ⟨got₁, hline, hfold⟩ := Option.bind_eq_some_iff.mp hfold
    obtain ⟨text, htext, rfl⟩ := Option.map_eq_some_iff.mp hline
    match lines, hfold with
    | [], hfold =>
      cases hfold
      exact .inr ⟨line, text, rfl, htext, rfl⟩
    | _ :: _, hfold =>
      rw [List.foldlM_cons, bottom_of_some rfl] at hfold
      cases hfold

theorem nonblank_reverse (lines : List Text) : nonblank lines.reverse = (nonblank lines).reverse :=
  List.filter_reverse ..

/-- The text that the second loop finds is that of the first nonblank line it comes to. -/
theorem scan_bottom_guards (h : got.endif = none) (lines : List Text) :
    (scan Guards.bottom got lines).1 =
      { got with endif := (nonblank lines).head?.bind endifLine } := by
  obtain ⟨passed, heq, hfold, hstop⟩ := scan_spec Guards.bottom got lines
  rcases bottomRun h hfold with ⟨hnil, hgot⟩ | ⟨line, text, hone, htext, hgot⟩
  · have hend : (nonblank lines).head?.bind endifLine = none := by
      rw [heq, nonblank_append, hnil, List.nil_append]
      cases hrest : (scan Guards.bottom got lines).2 with
      | nil => rfl
      | cons line rest =>
        obtain ⟨hblank, hnone⟩ := hstop line (by rw [hrest]; rfl)
        rw [hgot, bottom_of_none h, Option.map_eq_none_iff] at hnone
        rw [nonblank_cons_of_not hblank]
        exact hnone
    rw [hgot, hend, ← h]
  · rw [hgot, heq, nonblank_append, hone]
    show _ = Guards.mk _ _ (endifLine line)
    rw [htext]

theorem scanBack_guards (h : got.endif = none) (rest : List Text) : (scanBack got rest).1 =
    { got with endif := (nonblank rest.tail).getLast?.bind endifLine } := by
  match rest with
  | [] | [_] =>
    show got = { got with endif := none }
    rw [← h]
  | first :: second :: more =>
    show (scan Guards.bottom got (second :: more).reverse).1 = _
    rw [scan_bottom_guards h, nonblank_reverse, List.head?_reverse]
    rfl

/-- How the lines below the first one of the body end: with a nonblank line, or one line below it,
and below them is at most the `#endif` of a guard. -/
structure Ends (inner bottom : List Text) : Prop where
  ne_nil : inner ≠ []
  below : nonblank bottom = [] ∨ ∃ line, nonblank bottom = [line] ∧ endifLine line ≠ none
  last : inner.length = 1 ∨ ∃ last, inner.getLast? = some last ∧ isBlank last = false ∧
    (nonblank bottom = [] → endifLine last = none)

/-- What the second loop does at the last line of the body. -/
theorem stops_last {last : Text} (h : got.endif = none)
    (hfold : (nonblank bottom.reverse).foldlM Guards.bottom got = some got') :
    Guards.bottom got' last = none ↔ (nonblank bottom = [] → endifLine last = none) := by
  rw [nonblank_reverse] at hfold
  rcases bottomRun h hfold with ⟨hnil, rfl⟩ | ⟨line, text, hone, htext, rfl⟩
  · rw [bottom_of_none h, Option.map_eq_none_iff]
    exact ⟨fun hnone _ => hnone, fun himp => himp (List.reverse_eq_nil_iff.mp hnil)⟩
  · refine ⟨fun _ hnil => ?_, fun _ => bottom_of_some rfl⟩
    rw [hnil] at hone
    cases hone

theorem bottom_fold (h : got.endif = none) :
    (∃ got', (nonblank bottom.reverse).foldlM Guards.bottom got = some got') ↔
      nonblank bottom = [] ∨ ∃ line, nonblank bottom = [line] ∧ endifLine line ≠ none := by
  rw [nonblank_reverse]
  constructor
  · intro hexists
    obtain ⟨got', hfold⟩ := hexists
    rcases bottomRun h hfold with ⟨hnil, -⟩ | ⟨line, text, hone, htext, -⟩
    · exact .inl (List.reverse_eq_nil_iff.mp hnil)
    · exact .inr ⟨line, by simpa using congrArg List.reverse hone, by rw [htext]; exact Option.some_ne_none text⟩
  · rintro (hnil | ⟨line, hone, htext⟩)
    · exact ⟨got, by rw [hnil]; rfl⟩
    · obtain ⟨text, htext⟩ := Option.ne_none_iff_exists'.mp htext
      refine ⟨{ got with endif := some text }, ?_⟩
      rw [hone]
      show (Guards.bottom got line).bind _ = _
      rw [bottom_of_none h, htext]
      rfl

/-- The body ends where the second loop ends. -/
theorem scanBack_body (h : got.endif = none) (rest : List Text) : (scanBack got rest).2 = some body ↔
    ∃ first inner bottom, rest = first :: inner ++ bottom ∧ body = first :: inner ∧
      Ends inner bottom := by
  constructor
  · intro hbody
    match rest, hbody with
    | first :: second :: more, hbody =>
      obtain ⟨passed, heq, hfold, hstop⟩ := scan_spec Guards.bottom got (second :: more).reverse
      have hbody : first :: (if (scan Guards.bottom got (second :: more).reverse).2 = [] then
          [second] else (scan Guards.bottom got (second :: more).reverse).2.reverse) = body :=
        Option.some.inj hbody
      revert hbody
      split
      · next habove =>
        intro hsame
        subst hsame
        rw [habove, List.append_nil, List.reverse_cons] at heq
        rw [← heq, nonblank_append, List.foldlM_append] at hfold
        obtain ⟨got', hfold, -⟩ := Option.bind_eq_some_iff.mp hfold
        exact ⟨first, [second], more, rfl, rfl, List.cons_ne_nil _ _,
          (bottom_fold h).mp ⟨got', hfold⟩, .inl rfl⟩
      · next habove =>
        intro hsame
        subst hsame
        have hsplit := congrArg List.reverse heq
        rw [List.reverse_reverse, List.reverse_append] at hsplit
        rw [← List.reverse_reverse passed] at hfold
        refine ⟨first, _, passed.reverse, congrArg (first :: ·) hsplit, rfl, ?_,
          (bottom_fold h).mp ⟨_, hfold⟩, .inr ?_⟩
        · exact fun hnil => habove (List.reverse_eq_nil_iff.mp hnil)
        · obtain ⟨last, above, hlast⟩ := List.exists_cons_of_ne_nil habove
          obtain ⟨hblank, hnone⟩ := hstop last (by rw [hlast]; rfl)
          refine ⟨last, ?_, hblank, (stops_last h hfold).mp hnone⟩
          rw [List.getLast?_reverse, hlast]
          rfl
  · intro hexists
    obtain ⟨first, inner, bottom, rfl, rfl, hends⟩ := hexists
    obtain ⟨got', hfold⟩ := (bottom_fold h).mpr hends.below
    obtain ⟨second, more, rfl⟩ := List.exists_cons_of_ne_nil hends.ne_nil
    have hreverse : (second :: (more ++ bottom)).reverse =
        bottom.reverse ++ (second :: more).reverse := by
      rw [← List.reverse_append]
      rfl
    show some (first :: if (scan Guards.bottom got (second :: (more ++ bottom)).reverse).2 = [] then
      [second] else (scan Guards.bottom got (second :: (more ++ bottom)).reverse).2.reverse) = _
    rw [hreverse]
    by_cases hstop : Stops Guards.bottom got' (second :: more).reverse
    · rw [scan_eq hfold hstop, if_neg (by simp), List.reverse_reverse]
    · rcases hends.last with hone | ⟨last, hlast, hblank, hend⟩
      · -- The one line is passed as well, and is the body's last one all the same.
        obtain rfl : more = [] := List.eq_nil_of_length_eq_zero (Nat.succ.inj hone)
        have hpassed : ∃ got'', (nonblank (bottom.reverse ++ [second])).foldlM Guards.bottom got =
            some got'' := by
          rw [nonblank_append, List.foldlM_append, hfold]
          by_cases hblank : isBlank second
          · exact ⟨got', by simp [nonblank, hblank]⟩
          · have hblank : isBlank second = false := by simpa using hblank
            rw [nonblank_cons_of_not hblank]
            cases hline : Guards.bottom got' second with
            | some got'' =>
              refine ⟨got'', ?_⟩
              show (Guards.bottom got' second).bind _ = _
              rw [hline]
              rfl
            | none =>
              refine absurd ?_ hstop
              intro _ hhead
              cases hhead
              exact ⟨hblank, hline⟩
        obtain ⟨got'', hpassed⟩ := hpassed
        have hnil : Stops Guards.bottom got'' [] := fun line hline => by cases hline
        have hscan := scan_eq hpassed hnil
        rw [List.append_nil] at hscan
        rw [List.reverse_singleton, hscan]
        rfl
      · refine absurd ?_ hstop
        intro line hline
        rw [List.head?_reverse, hlast] at hline
        cases hline
        exact ⟨hblank, (stops_last h hfold).mpr hend⟩

/-! ## The check -/

variable {guard : Text} {expected : Ending}

/-- The pattern of the guards finds a directive in the line. -/
def Finds (directive line : Text) : Prop := ∃ text, guardLine line = some (directive, text)

/-- The first two nonblank lines are `#ifndef` and `#define` of the name, in any order, the last one
is the `#endif` with the name, and there is one between. -/
def HasGuard (guard : Text) (lines : List Text) : Prop :=
  ∃ line line' first inner last, nonblank lines = [line, line'] ++ (first :: inner ++ [last]) ∧
    (guardLine line = some (ifndefText, guard) ∧ guardLine line' = some (defineText, guard) ∨
      guardLine line = some (defineText, guard) ∧ guardLine line' = some (ifndefText, guard)) ∧
    endifLine last = some ("// ".toList ++ guard)

/-- The first nonblank line is a `#define`, and the next one no `#ifndef`. -/
def DefinesFirst (lines : List Text) : Prop :=
  ∃ line more, nonblank lines = line :: more ∧ Finds defineText line ∧
    ∀ next, more.head? = some next → ¬ Finds ifndefText next

/-- The header is left as it is. -/
def Accepts (guard : Text) (lines : List Text) : Prop := HasGuard guard lines ∨ DefinesFirst lines

theorem nonblank_split {xs ys : List Text} (h : nonblank lines = xs ++ ys) :
    ∃ top rest, lines = top ++ rest ∧ nonblank top = xs ∧ nonblank rest = ys ∧
      ∀ line, rest.head? = some line → isBlank line = false := by
  obtain ⟨top, rest, rfl, htop, hrest⟩ := List.filter_eq_append_iff.mp h
  have hblank : nonblank (rest.takeWhile isBlank) = [] := by
    rw [nonblank, List.filter_eq_nil_iff]
    intro line hline
    simp [List.mem_takeWhile_imp hline]
  have hsplit : rest = rest.takeWhile isBlank ++ rest.dropWhile isBlank :=
    (List.takeWhile_append_dropWhile).symm
  refine ⟨top ++ rest.takeWhile isBlank, rest.dropWhile isBlank, ?_, ?_, ?_, ?_⟩
  · rw [List.append_assoc, ← hsplit]
  · rw [nonblank_append, hblank, List.append_nil]
    exact htop
  · have hsame : nonblank rest = ys := hrest
    rwa [hsplit, nonblank_append, hblank, List.nil_append] at hsame
  · intro line hline
    cases hdrop : rest.dropWhile isBlank with
    | nil => rw [hdrop] at hline; cases hline
    | cons first more =>
      rw [hdrop] at hline
      cases hline
      have hhead := List.head?_dropWhile_not isBlank rest
      rw [hdrop] at hhead
      simpa using hhead

theorem findGuards_eq (htop : TopRun (nonblank top) got) (hstop : Stops Guards.top got rest)
    (hne : top ++ rest ≠ []) : findGuards (top ++ rest) = some (scanBack got rest) := by
  rw [findGuards, if_neg hne, scan_eq (topRun_iff.mpr htop) hstop]

theorem findGuards_spec (hne : lines ≠ []) : ∃ top rest got, lines = top ++ rest ∧
    TopRun (nonblank top) got ∧ Stops Guards.top got rest ∧
      findGuards lines = some (scanBack got rest) := by
  obtain ⟨top, heq, hfold, hstop⟩ := scan_spec Guards.top .start lines
  refine ⟨top, _, _, heq, topRun_iff.mp hfold, hstop, ?_⟩
  rw [findGuards, if_neg hne]

/-- A nonblank rest starts with its first nonblank line. -/
theorem nonblank_rest {next : Text} {more : List Text} (hstop : ∀ line, rest.head? = some line →
    isBlank line = false) (h : nonblank rest = next :: more) :
    rest.head? = some next ∧ nonblank rest.tail = more := by
  cases rest with
  | nil => cases h
  | cons line rest =>
    rw [nonblank_cons_of_not (hstop line rfl)] at h
    cases h
    exact ⟨rfl, rfl⟩

theorem ne_nil_of_nonblank {x : Text} {xs : List Text} (h : nonblank lines = x :: xs) :
    lines ≠ [] := by
  intro hsame
  subst hsame
  cases h

theorem HasGuard.found (h : HasGuard guard lines) :
    ∃ got body, findGuards lines = some (got, body) ∧ got.areOf guard := by
  obtain ⟨line, line', first, inner, last, heq, hkinds, hlast⟩ := h
  obtain ⟨top, rest, rfl, htop, hrest, hhead⟩ := nonblank_split heq
  have hrun : TopRun (nonblank top) ⟨some guard, some guard, none⟩ := by
    rw [htop]
    rcases hkinds with ⟨hline, hline'⟩ | ⟨hline, hline'⟩
    · exact .ifndefDefine hline hline'
    · exact .defineIfndef hline hline'
  have hstop : Stops Guards.top ⟨some guard, some guard, none⟩ rest :=
    fun line hline => ⟨hhead line hline, top_full⟩
  refine ⟨_, _, findGuards_eq hrun hstop (ne_nil_of_nonblank heq), ?_⟩
  show (scanBack _ rest).1.areOf guard
  rw [scanBack_guards rfl, (nonblank_rest hhead hrest).2]
  exact ⟨rfl, rfl, by simp [hlast]⟩

theorem DefinesFirst.found (h : DefinesFirst lines) :
    ∃ got body, findGuards lines = some (got, body) ∧ got.startWithDefine := by
  obtain ⟨line, more, heq, ⟨text, hline⟩, hnext⟩ := h
  have hsplit : nonblank lines = [line] ++ more := heq
  obtain ⟨top, rest, rfl, htop, hrest, hhead⟩ := nonblank_split hsplit
  have hrun : TopRun (nonblank top) ⟨none, some text, none⟩ := by
    rw [htop]
    exact .define hline
  have hstop : Stops Guards.top ⟨none, some text, none⟩ rest := by
    intro next hrestHead
    refine ⟨hhead next hrestHead, ?_⟩
    cases htop : Guards.top ⟨none, some text, none⟩ next with
    | none => rfl
    | some got =>
      have hmore : more.head? = some next := by
        obtain ⟨tail, rfl⟩ : ∃ tail, rest = next :: tail := List.head?_eq_some_iff.mp hrestHead
        rw [nonblank_cons_of_not (hhead next rfl)] at hrest
        rw [← hrest]
        rfl
      rcases top_some htop with ⟨_, -, hnone, -⟩ | ⟨text', hfinds, -, -⟩
      · cases hnone
      · exact absurd ⟨text', hfinds⟩ (hnext next hmore)
  refine ⟨_, _, findGuards_eq hrun hstop (ne_nil_of_nonblank heq), ?_⟩
  show (scanBack _ rest).1.startWithDefine
  rw [scanBack_guards rfl]
  exact ⟨Option.some_ne_none text, rfl⟩

/-- The two conditions on the lines are what the tool checks. -/
theorem accepts_iff : Accepts guard lines ↔ ∃ got body, findGuards lines = some (got, body) ∧
    (got.areOf guard ∨ got.startWithDefine) := by
  constructor
  · intro h
    rcases h with h | h
    · obtain ⟨got, body, hfound, hgot⟩ := h.found
      exact ⟨got, body, hfound, .inl hgot⟩
    · obtain ⟨got, body, hfound, hgot⟩ := h.found
      exact ⟨got, body, hfound, .inr hgot⟩
  · intro hexists
    obtain ⟨got, body, hfound, hgot⟩ := hexists
    have hne : lines ≠ [] := by
      intro hsame
      subst hsame
      cases hfound
    obtain ⟨top, rest, got', rfl, hrun, hstop, hscan⟩ := findGuards_spec hne
    rw [hscan, Option.some.injEq] at hfound
    have hguards : got = { got' with endif := (nonblank rest.tail).getLast?.bind endifLine } := by
      rw [← scanBack_guards hrun.endif, hfound]
    subst hguards
    rcases hgot with ⟨hifndef, hdefine, hendif⟩ | ⟨hdefine, hifndef⟩
    · obtain ⟨last, hlast, htext⟩ := Option.bind_eq_some_iff.mp hendif
      obtain ⟨inner, hinner⟩ := List.getLast?_eq_some_iff.mp hlast
      obtain ⟨first, tail, rfl⟩ : ∃ first tail, rest = first :: tail := by
        cases rest with
        | nil => cases hlast
        | cons first tail => exact ⟨first, tail, rfl⟩
      have hrest : nonblank (first :: tail) = first :: inner ++ [last] := by
        rw [nonblank_cons_of_not (hstop first rfl).1]
        exact congrArg (first :: ·) hinner
      have htop : ∃ line line', nonblank top = [line, line'] ∧
          (guardLine line = some (ifndefText, guard) ∧ guardLine line' = some (defineText, guard) ∨
            guardLine line = some (defineText, guard) ∧
              guardLine line' = some (ifndefText, guard)) := by
        generalize nonblank top = shown at hrun
        cases hrun with
        | nil => cases hifndef
        | define h => cases hifndef
        | ifndef h => cases hdefine
        | defineIfndef h h' =>
          cases hifndef
          cases hdefine
          exact ⟨_, _, rfl, .inr ⟨h, h'⟩⟩
        | ifndefDefine h h' =>
          cases hifndef
          cases hdefine
          exact ⟨_, _, rfl, .inl ⟨h, h'⟩⟩
      obtain ⟨line, line', htop, hkinds⟩ := htop
      refine .inl ⟨line, line', first, inner, last, ?_, hkinds, htext⟩
      rw [nonblank_append, htop, hrest]
    · have htop : ∃ line text text', nonblank top = [line] ∧
          guardLine line = some (defineText, text) ∧ got' = ⟨none, some text', none⟩ := by
        generalize nonblank top = shown at hrun
        cases hrun with
        | nil => exact absurd rfl hdefine
        | define h => exact ⟨_, _, _, rfl, h, rfl⟩
        | ifndef h => cases hifndef
        | defineIfndef h h' => cases hifndef
        | ifndefDefine h h' => cases hifndef
      obtain ⟨line, text, text', htop, hline, rfl⟩ := htop
      refine .inr ⟨line, nonblank rest, ?_, ⟨text, hline⟩, ?_⟩
      · rw [nonblank_append, htop]
        rfl
      · rintro next hnext ⟨other, hother⟩
        obtain ⟨more, hmore⟩ := List.head?_eq_some_iff.mp hnext
        have hhead := (nonblank_rest (fun line hline => (hstop line hline).1) hmore).1
        have hnone := (hstop next hhead).2
        rw [top_ifndef hother] at hnone
        cases hnone

/-! ## The rewrite -/

theorem fixGuards_of_accepts (h : Accepts guard (lines.drop (preamble lines))) :
    fixGuards expected guard lines = some lines := by
  obtain ⟨got, body, hfound, hgot⟩ := accepts_iff.mp h
  rw [fixGuards, hfound, Option.bind_some]
  exact if_pos hgot

/-- A header that is not left as it is keeps the lines from the one where the first loop ends to
the one where the second loop ends. -/
theorem fixGuards_of_not (h : ¬ Accepts guard (lines.drop (preamble lines))) {fixed : List Text} :
    fixGuards expected guard lines = some fixed ↔ ∃ top first inner bottom got,
      lines.drop (preamble lines) = top ++ (first :: inner ++ bottom) ∧ TopRun (nonblank top) got ∧
        (isBlank first = false ∧ Guards.top got first = none) ∧ Ends inner bottom ∧
        fixed = lines.take (preamble lines) ++ guarded expected guard (first :: inner) := by
  rw [accepts_iff] at h
  rw [fixGuards]
  constructor
  · intro hfixed
    obtain ⟨⟨got, body⟩, hfound, hfixed⟩ := Option.bind_eq_some_iff.mp hfixed
    have hnot : ¬ (got.areOf guard ∨ got.startWithDefine) := fun hgot => h ⟨got, body, hfound, hgot⟩
    dsimp only at hfixed
    rw [if_neg hnot] at hfixed
    obtain ⟨lines', hbody, rfl⟩ := Option.map_eq_some_iff.mp hfixed
    have hne : lines.drop (preamble lines) ≠ [] := by
      intro hnil
      rw [hnil] at hfound
      cases hfound
    obtain ⟨top, rest, got', heq, hrun, hstop, hscan⟩ := findGuards_spec hne
    rw [hscan, Option.some.injEq] at hfound
    have hbody : (scanBack got' rest).2 = some lines' := by
      rw [hfound]
      exact hbody
    obtain ⟨first, inner, bottom, rfl, rfl, hends⟩ := (scanBack_body hrun.endif rest).mp hbody
    exact ⟨top, first, inner, bottom, got', heq, hrun, hstop first rfl, hends, rfl⟩
  · intro hexists
    obtain ⟨top, first, inner, bottom, got, heq, hrun, hstop, hends, rfl⟩ := hexists
    have hstops : Stops Guards.top got (first :: inner ++ bottom) := by
      intro _ hhead
      cases hhead
      exact hstop
    have hfound := findGuards_eq hrun hstops (by simp)
    rw [← heq] at hfound
    have hbody := (scanBack_body hrun.endif _).mpr ⟨first, inner, bottom, rfl, rfl, hends⟩
    rw [hfound, Option.bind_some]
    generalize scanBack got (first :: inner ++ bottom) = found at hfound hbody
    dsimp only
    rw [if_neg fun hgot => h ⟨found.1, found.2, hfound, hgot⟩, hbody]
    rfl

end Turf.Tidy
