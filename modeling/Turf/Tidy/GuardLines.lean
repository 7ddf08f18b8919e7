import Turf.Tidy.Directives

/-!
# The lines of a guard

What the patterns of the guards find in the lines that the tool writes, what a compiler makes of
these, and that every line the patterns find begins with the directive in its code.
-/
namespace Turf.Tidy

open Turf.Lib.Pattern
open Turf.Lib.Lexing

variable {ws ws' rest text line : Text} {is : List Item} {expected : Ending}

/-! ## Parts of the patterns -/

/-- The `#` of a directive is in one place. -/
theorem matchItems_directive (hws : ∀ c ∈ ws, isSpace c) (hws' : ∀ c ∈ ws', isSpace c)
    (hrest : ∀ c, rest.head? = some c → isSpace c = false)
    (his : ∀ c s, isSpace c → matchItems is (c :: s) = none) :
    matchItems (.greedy isSpace :: .text ['#'] :: .greedy isSpace :: is)
        (ws ++ (['#'] ++ (ws' ++ rest))) =
      (matchItems is rest).map fun m => ws :: ['#'] :: ws' :: m := by
  have hinner : matchItems (.greedy isSpace :: is) (ws' ++ rest) =
      (matchItems is rest).map (ws' :: ·) := greedyRun_eq hws' hrest his
  have hhash : ∀ c s, isSpace c →
      matchItems (.text ['#'] :: .greedy isSpace :: is) (c :: s) = none := by
    intro c s hc
    apply matchItems_text_head
    intro h
    rw [← h] at hc
    cases hc
  have houter := greedyRun_eq (b := ['#'] ++ (ws' ++ rest)) hws
    (by rintro c ⟨⟩; rfl) hhash
  show greedyRun isSpace _ _ = _
  rw [houter, matchItems_text, hinner, Option.map_map, Option.map_map]
  rfl

theorem matchItems_ending {s : Text} : matchItems [.greedy isReturn, .atEnd] s =
    if s.all isReturn then some [s, []] else none := matchItems_rest rfl

/-- The text behind a directive goes to the last character that does not belong to the ending. -/
theorem matchItems_behind {c : Char} (hdot : ∀ d ∈ text ++ [c], isDot d)
    (hhead : ∀ d, (text ++ [c]).head? = some d → isSpace d = false) (hlast : isReturn c = false) :
    matchItems [.greedy isSpace, .reluctant isDot 1, .greedy isReturn, .atEnd]
      ([' '] ++ (text ++ [c] ++ expected.text)) =
        some [[' '], text ++ [c], expected.text, []] := by
  have hend : matchItems [.greedy isReturn, .atEnd] expected.text = some [expected.text, []] := by
    rw [matchItems_ending, if_pos (List.all_eq_true.mpr ending_return)]
  have htext : matchItems [.reluctant isDot 1, .greedy isReturn, .atEnd]
      (text ++ [c] ++ expected.text) = some [text ++ [c], expected.text, []] := by
    apply reluctantRun_some hdot (by simp) hend
    intro a₁ a₂ heq _ hne
    have hmem : c ∈ a₂ := by
      have hc : (a₁ ++ a₂).getLast? = some c := by rw [← heq]; simp
      rw [List.getLast?_append_of_ne_nil _ hne] at hc
      exact List.mem_of_getLast? hc
    rw [matchItems_ending, if_neg]
    intro hall
    rw [List.all_eq_true.mp hall c (List.mem_append_left _ hmem)] at hlast
    cases hlast
  have hspace : ∀ d ∈ [' '], isSpace d := by
    intro d hd
    rw [List.mem_singleton.mp hd]
    rfl
  apply greedyRun_some hspace _ htext
  intro d hd
  apply hhead d
  cases text with
  | nil => exact hd
  | cons _ _ => exact hd

theorem matchItems_define (is : List Item) (s : Text) :
    matchItems (.oneOf [defineText, ifndefText] :: is) (defineText ++ s) =
      (matchItems is s).map (defineText :: ·) := by
  have hother : ¬ ifndefText <+: defineText ++ s :=
    fun h => absurd (List.cons_prefix_cons.mp h).1 (by decide)
  rw [matchItems, List.findSome?_cons, if_pos (List.prefix_append _ s), List.drop_left,
    List.findSome?_cons, if_neg hother]
  cases matchItems is s <;> rfl

theorem matchItems_ifndef (is : List Item) (s : Text) :
    matchItems (.oneOf [defineText, ifndefText] :: is) (ifndefText ++ s) =
      (matchItems is s).map (ifndefText :: ·) := by
  have hother : ¬ defineText <+: ifndefText ++ s :=
    fun h => absurd (List.cons_prefix_cons.mp h).1 (by decide)
  rw [matchItems, List.findSome?_cons, if_neg hother, List.findSome?_cons,
    if_pos (List.prefix_append _ s), List.drop_left]
  cases matchItems is s <;> rfl

theorem matchItems_oneOf_none {s : Text} {c : Char} (hd : c ≠ 'd') (hi : c ≠ 'i') :
    matchItems (.oneOf [defineText, ifndefText] :: is) (c :: s) = none := by
  have hdefine : ¬ defineText <+: c :: s := fun h => hd (List.cons_prefix_cons.mp h).1.symm
  have hifndef : ¬ ifndefText <+: c :: s := fun h => hi (List.cons_prefix_cons.mp h).1.symm
  rw [matchItems, List.findSome?_cons, if_neg hdefine, List.findSome?_cons, if_neg hifndef]
  rfl

/-! ## The lines of a new guard -/

theorem isWord_not_return {c : Char} (h : isWord c) : isReturn c = false := by
  by_contra hr
  have hs := isReturn_space (by simpa using hr)
  rw [isWord_not_space h] at hs
  cases hs

theorem isWord_dot {c : Char} (h : isWord c) : isDot c := by
  rw [isDot, bne_iff_ne]
  intro hc
  rw [hc] at h
  cases h

namespace GuardName

variable (guard : GuardName)

/-- A name is not the end of a line: it has a last character that belongs to it. -/
theorem exists_concat : ∃ name c, guard.text = name ++ [c] ∧ isReturn c = false :=
  ⟨guard.text.dropLast, guard.text.getLast guard.ne_nil,
    (List.dropLast_append_getLast guard.ne_nil).symm,
    isWord_not_return (guard.word _ (List.getLast_mem _))⟩

theorem dot : ∀ c ∈ guard.text, isDot c := fun c hc => isWord_dot (guard.word c hc)

theorem head_not_space : ∀ c, guard.text.head? = some c → isSpace c = false :=
  fun c hc => isWord_not_space (guard.word c (List.mem_of_head? hc))

end GuardName

variable {guard : GuardName}

theorem matchItems_name : matchItems [.greedy isSpace, .reluctant isDot 1, .greedy isReturn, .atEnd]
    ([' '] ++ (guard.text ++ expected.text)) = some [[' '], guard.text, expected.text, []] := by
  have hdot := guard.dot
  have hhead := guard.head_not_space
  obtain ⟨name, c, heq, hlast⟩ := guard.exists_concat
  rw [heq] at hdot hhead ⊢
  exact matchItems_behind hdot hhead hlast

theorem matchItems_comment :
    matchItems [.greedy isSpace, .reluctant isDot 1, .greedy isReturn, .atEnd]
      ([' '] ++ ("// ".toList ++ guard.text ++ expected.text)) =
        some [[' '], "// ".toList ++ guard.text, expected.text, []] := by
  have hdot : ∀ c ∈ "// ".toList ++ guard.text, isDot c := by
    intro c hc
    rcases List.mem_append.mp hc with hc | hc
    · exact List.all_eq_true.mp (by decide : "// ".toList.all isDot) c hc
    · exact guard.dot c hc
  obtain ⟨name, c, heq, hlast⟩ := guard.exists_concat
  rw [heq, ← List.append_assoc] at hdot ⊢
  exact matchItems_behind hdot (by rintro d ⟨⟩; rfl) hlast

/-- A line that starts with `#` and a character that is no space. -/
theorem matchItems_hash {c : Char} {s : Text} (hc : isSpace c = false)
    (his : ∀ c s, isSpace c → matchItems is (c :: s) = none) :
    matchItems (.greedy isSpace :: .text ['#'] :: .greedy isSpace :: is) ('#' :: c :: s) =
      (matchItems is (c :: s)).map fun m => [] :: ['#'] :: [] :: m := by
  have hnil : ∀ d ∈ ([] : Text), isSpace d := fun d hd => by cases hd
  have hhead : ∀ d, (c :: s).head? = some d → isSpace d = false := by
    intro d hhead
    cases hhead
    exact hc
  exact matchItems_directive hnil hnil hhead his

theorem space_ne {c d : Char} (h : isSpace c) (hd : isSpace d = false) : c ≠ d := by
  intro hsame
  subst hsame
  rw [h] at hd
  cases hd

theorem matchItems_oneOf_space (c : Char) (s : Text) (h : isSpace c) :
    matchItems (.oneOf [defineText, ifndefText] :: is) (c :: s) = none :=
  matchItems_oneOf_none (space_ne h rfl) (space_ne h rfl)

theorem matchItems_endif_space (c : Char) (s : Text) (h : isSpace c) :
    matchItems (.text "endif".toList :: is) (c :: s) = none :=
  matchItems_text_head (space_ne h rfl).symm

theorem guardLine_ifndefLine :
    guardLine (ifndefLine expected guard.text) = some (ifndefText, guard.text) := by
  have hline : ifndefLine expected guard.text =
      '#' :: 'i' :: ("fndef".toList ++ ([' '] ++ (guard.text ++ expected.text))) := rfl
  rw [guardLine, hline, guardPattern, matchItems_hash (c := 'i') rfl matchItems_oneOf_space]
  show Option.map _ (Option.map _ (matchItems _ (ifndefText ++ _))) = _
  rw [matchItems_ifndef, matchItems_name]
  rfl

theorem guardLine_defineLine :
    guardLine (defineLine expected guard.text) = some (defineText, guard.text) := by
  have hline : defineLine expected guard.text =
      '#' :: 'd' :: ("efine".toList ++ ([' '] ++ (guard.text ++ expected.text))) := rfl
  rw [guardLine, hline, guardPattern, matchItems_hash (c := 'd') rfl matchItems_oneOf_space]
  show Option.map _ (Option.map _ (matchItems _ (defineText ++ _))) = _
  rw [matchItems_define, matchItems_name]
  rfl

theorem guardLine_endifGuardLine : guardLine (endifGuardLine expected guard.text) = none := by
  have hline : endifGuardLine expected guard.text =
      '#' :: 'e' :: ("ndif // ".toList ++ (guard.text ++ expected.text)) := rfl
  rw [guardLine, hline, guardPattern, matchItems_hash (c := 'e') rfl matchItems_oneOf_space,
    matchItems_oneOf_none (by decide) (by decide)]
  rfl

theorem endifLine_endifGuardLine :
    endifLine (endifGuardLine expected guard.text) = some ("// ".toList ++ guard.text) := by
  have hline : endifGuardLine expected guard.text =
      '#' :: 'e' :: ("ndif".toList ++ ([' '] ++ ("// ".toList ++ guard.text ++ expected.text))) := rfl
  rw [endifLine, hline, endifPattern, matchItems_hash (c := 'e') rfl matchItems_endif_space]
  show Option.map _ (Option.map _ (matchItems _ ("endif".toList ++ _))) = _
  rw [matchItems_text, matchItems_comment]
  rfl

theorem endifLine_ifndefLine : endifLine (ifndefLine expected guard.text) = none := by
  have hline : ifndefLine expected guard.text =
      '#' :: 'i' :: ("fndef ".toList ++ (guard.text ++ expected.text)) := rfl
  rw [endifLine, hline, endifPattern, matchItems_hash (c := 'i') rfl matchItems_endif_space]
  show Option.map _ (Option.map _ (matchItems (.text ('e' :: "ndif".toList) :: _) _)) = _
  rw [matchItems_text_head (by decide)]
  rfl

theorem endifLine_defineLine : endifLine (defineLine expected guard.text) = none := by
  have hline : defineLine expected guard.text =
      '#' :: 'd' :: ("efine ".toList ++ (guard.text ++ expected.text)) := rfl
  rw [endifLine, hline, endifPattern, matchItems_hash (c := 'd') rfl matchItems_endif_space]
  show Option.map _ (Option.map _ (matchItems (.text ('e' :: "ndif".toList) :: _) _)) = _
  rw [matchItems_text_head (by decide)]
  rfl

/-! ## Code of the lines -/

namespace GuardName

theorem isContent {directive : Text} (h : '\n' ∉ directive) : IsContent (directive ++ guard.text) := by
  obtain ⟨name, c, heq, hlast⟩ := guard.exists_concat
  refine ⟨?_, ?_⟩
  · rw [List.mem_append, not_or]
    exact ⟨h, fun hmem => absurd (guard.word _ hmem) (by decide)⟩
  · intro d hd
    rw [heq, ← List.append_assoc, List.getLast?_concat] at hd
    cases hd
    exact hlast

theorem last_not_splice {directive : Text} : (directive ++ guard.text).getLast? ≠ some '\\' := by
  rw [List.getLast?_append_of_ne_nil _ guard.ne_nil]
  intro hlast
  exact absurd (guard.word _ (List.mem_of_getLast? hlast)) (by decide)

/-- A new line above the body is code. -/
theorem readLine_directive {directive : Text} (hplain : ∀ c ∈ directive, Mode.Plain c)
    (hfeed : '\n' ∉ directive) (expected : Ending) (guard : GuardName) :
    readLine .code (withoutEnding (directive ++ guard.text ++ expected.text)) =
      ⟨.code, directive ++ guard.text, true⟩ := by
  rw [withoutEnding_append (isContent hfeed) ending_return]
  refine readLine_plain (fun c hc => ?_) last_not_splice
  rcases List.mem_append.mp hc with hc | hc
  · exact hplain c hc
  · exact plain_of_word (guard.word c hc)

/-- A comment behind the new `#endif` is none of its code. -/
theorem readLine_comment {directive code : Text} (hrun : Mode.code.run directive = (.line, code))
    (hfeed : '\n' ∉ directive) (expected : Ending) (guard : GuardName) :
    readLine .code (withoutEnding (directive ++ guard.text ++ expected.text)) = ⟨.code, code, true⟩ := by
  rw [withoutEnding_append (isContent hfeed) ending_return, readLine_of_not last_not_splice,
    Mode.run_append, hrun, Mode.run_line, List.append_nil]
  show Lexed.mk _ (code ++ []) _ = _
  rw [List.append_nil]
  rfl

end GuardName

theorem isBlank_ending : isBlank expected.text := List.all_eq_true.mpr ending_space

theorem nonblank_guarded (expected : Ending) (guard : Text) (body : List Text) :
    nonblank (guarded expected guard body) =
      [ifndefLine expected guard, defineLine expected guard] ++ nonblank body ++
        [endifGuardLine expected guard] := by
  have hblank : isBlank expected.text = true := isBlank_ending
  have hnil : nonblank [expected.text] = [] := by simp [nonblank, hblank]
  show nonblank ([_, _] ++ [_] ++ body ++ ([_] ++ [_])) = _
  simp only [nonblank_append, hnil, List.append_nil, List.nil_append]
  rfl

theorem plain_of_all (h : text.all fun c => decide (Mode.Plain c)) : ∀ c ∈ text, Mode.Plain c :=
  fun c hc => of_decide_eq_true (List.all_eq_true.mp h c hc)

/-- The new lines are whole, and their code is a directive. -/
theorem ifndefLine_code (expected : Ending) (guard : GuardName) : Whole [ifndefLine expected guard.text] ∧
    directiveName (codeOf (ifndefLine expected guard.text)) = some ifndefText := by
  have hplain : ∀ c ∈ "#ifndef ".toList, Mode.Plain c :=
    plain_of_all (by decide : "#ifndef ".toList.all fun c => decide (Mode.Plain c))
  have hread : readLine .code (withoutEnding (ifndefLine expected guard.text)) = _ :=
    GuardName.readLine_directive hplain (by decide) expected guard
  refine ⟨whole_of_readLine hread, ?_⟩
  rw [codeOf, hread]
  rfl

theorem defineLine_code (expected : Ending) (guard : GuardName) : Whole [defineLine expected guard.text] ∧
    directiveName (codeOf (defineLine expected guard.text)) = some defineText := by
  have hplain : ∀ c ∈ "#define ".toList, Mode.Plain c :=
    plain_of_all (by decide : "#define ".toList.all fun c => decide (Mode.Plain c))
  have hread : readLine .code (withoutEnding (defineLine expected guard.text)) = _ :=
    GuardName.readLine_directive hplain (by decide) expected guard
  refine ⟨whole_of_readLine hread, ?_⟩
  rw [codeOf, hread]
  rfl

theorem endifGuardLine_code (expected : Ending) (guard : GuardName) :
    Whole [endifGuardLine expected guard.text] ∧
      directiveName (codeOf (endifGuardLine expected guard.text)) = some "endif".toList := by
  have hrun : Mode.code.run "#endif // ".toList = (.line, "#endif  ".toList) := by decide
  have hread : readLine .code (withoutEnding (endifGuardLine expected guard.text)) = _ :=
    GuardName.readLine_comment hrun (by decide) expected guard
  refine ⟨whole_of_readLine hread, ?_⟩
  rw [codeOf, hread]
  rfl

theorem code_of_directive {name : Text} (h : directiveName line = some name) : isBlank line = false := by
  by_contra hblank
  rw [Bool.not_eq_false] at hblank
  rw [directiveName, directive, List.dropWhile_eq_nil_iff.mpr (List.all_eq_true.mp hblank)] at h
  cases h

/-- The guard opens one conditional around the lines and closes it. -/
theorem codeLines_guarded {body : List Text} (h : Whole body) :
    codeLines (guarded expected guard.text body) =
      [codeOf (ifndefLine expected guard.text), codeOf (defineLine expected guard.text)] ++
        codeLines body ++ [codeOf (endifGuardLine expected guard.text)] := by
  obtain ⟨hifndef, hcodeIfndef⟩ := ifndefLine_code expected guard
  obtain ⟨hdefine, hcodeDefine⟩ := defineLine_code expected guard
  obtain ⟨hendif, hcodeEndif⟩ := endifGuardLine_code expected guard
  have hending : Whole [expected.text] := whole_of_blank isBlank_ending
  have hnone : ∀ lines, codeLines (expected.text :: lines) = codeLines lines := by
    intro lines
    rw [codeLines, marked_blank hending (codeOf_blank isBlank_ending)]
    rfl
  have htop : Whole [ifndefLine expected guard.text, defineLine expected guard.text, expected.text] :=
    hifndef.cons.mpr (hdefine.cons.mpr hending)
  have hlast := codeLines_cons hendif (code_of_directive hcodeEndif) []
  rw [guarded, List.append_assoc, codeLines_append htop, codeLines_append h,
    codeLines_cons hifndef (code_of_directive hcodeIfndef),
    codeLines_cons hdefine (code_of_directive hcodeDefine), hnone, hnone, hlast, List.append_assoc]
  rfl

theorem depthFrom_guarded {body : List Text} (h : Whole body) (d : Nat) :
    depthFrom d (codeLines (guarded expected guard.text body)) = (depthFrom (d + 1) (codeLines body)).bind
      fun d => depthAfter d (codeOf (endifGuardLine expected guard.text)) := by
  rw [codeLines_guarded h, List.append_assoc, List.cons_append, depthFrom_cons,
    depthAfter_ifndef (ifndefLine_code expected guard).2, Option.bind_some, List.cons_append, depthFrom_cons,
    depthAfter_define (defineLine_code expected guard).2, Option.bind_some, List.nil_append, depthFrom_append]
  congr 1
  funext e
  rw [depthFrom_cons]
  cases depthAfter e (codeOf (endifGuardLine expected guard.text)) <;> rfl

/-- What a directive is made of that the patterns find. -/
theorem code_of_found {kind rest : Text} (hws : ∀ c ∈ ws, isSpace c) (hws' : ∀ c ∈ ws', isSpace c)
    (hkind : ∀ c ∈ kind, isWord c) (hne : kind ≠ []) (h : line = ws ++ '#' :: (ws' ++ (kind ++ rest))) :
    ∃ more, directiveName (codeOf line) = some (kind ++ more) := by
  obtain ⟨front, c, rfl⟩ : ∃ front c, kind = front ++ [c] :=
    ⟨_, _, (List.dropLast_append_getLast hne).symm⟩
  have hword : isWord c := hkind c (by simp)
  have hline : line = (ws ++ '#' :: (ws' ++ front)) ++ c :: rest := by
    rw [h]
    simp
  have hplain : ∀ d ∈ (ws ++ '#' :: (ws' ++ front)) ++ [c], Mode.Plain d := by
    intro d hd
    simp only [List.mem_append, List.mem_cons, List.not_mem_nil, or_false] at hd
    rcases hd with (hd | rfl | hd | hd) | rfl
    · exact plain_of_space (hws d hd)
    · decide
    · exact plain_of_space (hws' d hd)
    · exact plain_of_word (hkind d (List.mem_append_left _ hd))
    · exact plain_of_word hword
  have hsplice : c ≠ '\\' := by
    intro hc
    rw [hc] at hword
    cases hword
  obtain ⟨more, hmore⟩ := readLine_append hplain hsplice (withoutEnding rest)
  have hcode : codeOf line = ws ++ '#' :: (ws' ++ ((front ++ [c]) ++ more)) := by
    rw [codeOf, hline, withoutEnding_of_last (isWord_not_return hword), hmore]
    simp
  refine ⟨more.takeWhile isWord, ?_⟩
  rw [directiveName, directive, hcode, (dropWhile_of_head hws (by rintro d ⟨⟩; rfl)).2]
  show some (word _) = _
  have hhead : ∀ d, ((front ++ [c]) ++ more).head? = some d → isSpace d = false := by
    intro d hd
    apply isWord_not_space
    apply hkind d
    rw [List.head?_append_of_ne_nil _ hne] at hd
    exact List.mem_of_head? hd
  rw [word, (dropWhile_of_head hws' hhead).2, List.takeWhile_append_of_pos hkind]

/-- The code of a line that the pattern of the guards matches begins with the directive. -/
theorem code_of_guardLine {kind : Text} (h : guardLine line = some (kind, text)) :
    (kind = defineText ∨ kind = ifndefText) ∧
      ∃ more, directiveName (codeOf line) = some (kind ++ more) := by
  obtain ⟨m, hm, hgroups⟩ := Option.map_eq_some_iff.mp h
  obtain ⟨ws, s₁, m₁, rfl, hws, h₁, rfl⟩ := greedyRun_spec hm
  obtain ⟨s₂, m₂, rfl, h₂, rfl⟩ := matchItems_text_spec h₁
  obtain ⟨ws', s₃, m₃, rfl, hws', h₃, rfl⟩ := greedyRun_spec h₂
  obtain ⟨found, hmem, h₄⟩ := List.exists_of_findSome?_eq_some h₃
  split at h₄
  · next hprefix =>
    obtain ⟨rest, rfl⟩ := hprefix
    obtain ⟨m₄, -, rfl⟩ := Option.map_eq_some_iff.mp h₄
    obtain rfl : found = kind := (Prod.mk.inj hgroups).1
    have hkind : found = defineText ∨ found = ifndefText := by simpa using hmem
    have hword : found.all isWord ∧ found ≠ [] := by
      rcases hkind with rfl | rfl
      · decide
      · decide
    exact ⟨hkind, code_of_found hws hws' (List.all_eq_true.mp hword.1) hword.2 rfl⟩
  · cases h₄

theorem code_of_endifLine (h : endifLine line ≠ none) :
    ∃ more, directiveName (codeOf line) = some ("endif".toList ++ more) := by
  obtain ⟨m, hm⟩ := Option.ne_none_iff_exists'.mp fun hnone => h (Option.map_eq_none_iff.mpr hnone)
  obtain ⟨ws, s₁, m₁, rfl, hws, h₁, rfl⟩ := greedyRun_spec hm
  obtain ⟨s₂, m₂, rfl, h₂, rfl⟩ := matchItems_text_spec h₁
  obtain ⟨ws', s₃, m₃, rfl, hws', h₃, rfl⟩ := greedyRun_spec h₂
  obtain ⟨s₄, m₄, rfl, -, rfl⟩ := matchItems_text_spec h₃
  exact code_of_found hws hws' (List.all_eq_true.mp (by decide : "endif".toList.all isWord)) (by decide) rfl

end Turf.Tidy
