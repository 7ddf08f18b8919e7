import Turf.Tidy.Errors
import Turf.Tidy.Guards

/-!
# Readings of prepared lines

What the sweeper does to line endings, `#error` messages and guards leaves the declarations and the
statements of a file as they are.
-/
namespace Turf.Tidy

open Turf.Lib.Pattern

variable {line line' name : Text} {lines before after : List Text} {f : Text → Option Text}

/-! ## Definition blocks -/

/-- A block ends with the first line that ends one. -/
theorem blockLength_append {inner : List Text} (hinner : ∀ line ∈ inner, isEnd line = false)
    (hlast : isEnd line) : blockLength (inner ++ line :: after) = inner.length + 1 := by
  have hidx : (inner ++ line :: after).findIdx? isEnd = some inner.length := by
    rw [List.findIdx?_append, List.findIdx?_eq_none_iff.mpr hinner, Option.none_or,
      List.findIdx?_cons, if_pos hlast, Option.map_some, Nat.zero_add]
  rw [blockLength, hidx]

theorem blockLength_zero (h : ∀ line ∈ lines, isEnd line = false) : blockLength lines = 0 := by
  rw [blockLength, List.findIdx?_eq_none_iff.mpr h]

/-- The lines of a block behind its first one are those up to the first that ends one. -/
theorem block_cases (lines : List Text) : (∀ line ∈ lines, isEnd line = false) ∨
    ∃ inner last after, lines = inner ++ last :: after ∧ (∀ line ∈ inner, isEnd line = false) ∧
      isEnd last := by
  cases h : lines.find? isEnd with
  | none => exact .inl fun line hline => by simpa using List.find?_eq_none.mp h line hline
  | some last =>
    obtain ⟨hlast, inner, after, heq, hinner⟩ := List.find?_eq_some_iff_append.mp h
    exact .inr ⟨inner, last, after, heq, fun line hline => by simpa using hinner line hline, hlast⟩

/-! ## Lines in a reading -/

theorem reading_declare (h : declareLine line = some name) (lines : List Text) :
    reading (line :: lines) = ⟨[], some (name, [line]), lines⟩ := by
  rw [reading, h]

theorem reading_begin (h : declareLine line = none) (hbegin : beginLine line = some name)
    (lines : List Text) : reading (line :: lines) =
      ⟨[], some (name, line :: lines.take (blockLength lines)), lines.drop (blockLength lines)⟩ := by
  rw [reading, h, hbegin]

/-- A block is read to its end. -/
theorem reading_block {entries : List Text} {last : Text} (h : declareLine line = none)
    (hbegin : beginLine line = some name) (hentries : ∀ line ∈ entries, isEnd line = false) (hlast : isEnd last)
    (after : List Text) : reading (line :: (entries ++ ([last] ++ after))) =
      ⟨[], some (name, line :: (entries ++ [last])), after⟩ := by
  have hlength : (entries ++ [last]).length = entries.length + 1 := by
    rw [List.length_append, List.length_singleton]
  have hblock : blockLength (entries ++ ([last] ++ after)) = (entries ++ [last]).length :=
    (blockLength_append hentries hlast).trans hlength.symm
  rw [reading_begin h hbegin, hblock, ← List.append_assoc, List.take_left, List.drop_left]

theorem reading_cons (h : declareLine line = none) (hbegin : beginLine line = none)
    (lines : List Text) : reading (line :: lines) =
      ⟨line :: (reading lines).before, (reading lines).declaration, (reading lines).after⟩ := by
  rw [reading, h, hbegin]

/-- The lines before the declaration are passed. -/
theorem reading_append (h : ∀ line ∈ before, declareLine line = none ∧ beginLine line = none)
    (lines : List Text) : reading (before ++ lines) =
      ⟨before ++ (reading lines).before, (reading lines).declaration, (reading lines).after⟩ := by
  induction before with
  | nil => rfl
  | cons line before ih =>
    obtain ⟨⟨hdeclare, hbegin⟩, hbefore⟩ := List.forall_mem_cons.mp h
    rw [List.cons_append, reading_cons hdeclare hbegin, ih hbefore]
    rfl

/-- The first line of a declaration, and whether it is that of a block. -/
theorem reading_spec (lines : List Text) :
    (∀ line ∈ (reading lines).before, declareLine line = none ∧ beginLine line = none) ∧
    ((reading lines).declaration = none ∧ lines = (reading lines).before ∧ (reading lines).after = [] ∨
      ∃ name first more, (reading lines).declaration = some (name, first :: more) ∧
        lines = (reading lines).before ++ (first :: more ++ (reading lines).after) ∧
        (declareLine first = some name ∧ more = [] ∨
          declareLine first = none ∧ beginLine first = some name ∧
            more.length = blockLength (more ++ (reading lines).after))) := by
  induction lines with
  | nil => exact ⟨List.forall_mem_nil _, .inl ⟨rfl, rfl, rfl⟩⟩
  | cons line lines ih =>
    cases hdeclare : declareLine line with
    | some name =>
      rw [reading_declare hdeclare]
      exact ⟨List.forall_mem_nil _, .inr ⟨name, line, [], rfl, rfl, .inl ⟨hdeclare, rfl⟩⟩⟩
    | none =>
      cases hbegin : beginLine line with
      | some name =>
        rw [reading_begin hdeclare hbegin]
        refine ⟨List.forall_mem_nil _, .inr ⟨name, line, _, rfl, ?_, .inr ⟨hdeclare, hbegin, ?_⟩⟩⟩
        · rw [List.nil_append, List.cons_append, List.take_append_drop]
        · rw [List.take_append_drop, List.length_take]
          apply Nat.min_eq_left
          rcases block_cases lines with hnone | ⟨inner, last, after, rfl, hinner, hlast⟩
          · rw [blockLength_zero hnone]
            exact Nat.zero_le _
          · rw [blockLength_append hinner hlast, List.length_append, List.length_cons]
            omega
      | none =>
        rw [reading_cons hdeclare hbegin]
        obtain ⟨hbefore, hrest⟩ := ih
        refine ⟨List.forall_mem_cons.mpr ⟨⟨hdeclare, hbegin⟩, hbefore⟩, ?_⟩
        rcases hrest with ⟨hnone, heq, hafter⟩ | ⟨name, first, more, hsome, heq, hfirst⟩
        · exact .inl ⟨hnone, congrArg (line :: ·) heq, hafter⟩
        · exact .inr ⟨name, first, more, hsome, congrArg (line :: ·) heq, hfirst⟩

/-- A block has a last line of its own. -/
theorem block_last {more : List Text} (h : more.length = blockLength (more ++ after)) (hne : more ≠ []) :
    ∃ inner last, more = inner ++ [last] ∧ (∀ line ∈ inner, isEnd line = false) ∧ isEnd last := by
  rcases block_cases (more ++ after) with hnone | ⟨inner, last, rest, heq, hinner, hlast⟩
  · rw [blockLength_zero hnone] at h
    exact absurd (List.length_eq_zero_iff.mp h) hne
  · rw [heq, blockLength_append hinner hlast] at h
    have hsplit : more ++ after = (inner ++ [last]) ++ rest := by
      rw [heq, List.append_assoc, List.cons_append, List.nil_append]
    have hlength : more.length = (inner ++ [last]).length := by rw [h, List.length_append, List.length_singleton]
    exact ⟨inner, last, (List.append_inj hsplit hlength).1, hinner, hlast⟩

theorem Reading.Closed.block_last {first : Text} {more : List Text} (h : (reading lines).Closed)
    (hsome : (reading lines).declaration = some (name, first :: more)) (hbegin : (beginLine first).isSome)
    (hlength : more.length = blockLength (more ++ after)) :
    ∃ inner last, more = inner ++ [last] ∧ (∀ line ∈ inner, isEnd line = false) ∧ isEnd last := by
  apply Turf.Tidy.block_last hlength
  rintro rfl
  rw [h name first hsome] at hbegin
  cases hbegin

/-! ## Other lines with the same traces -/

/-- Lines that declare, end and state the same. -/
structure Alike (line line' : Text) : Prop where
  declare : declareLine line' = declareLine line
  begins : beginLine line' = beginLine line
  ends : isEnd line' = isEnd line
  statement : statementOf line' = statementOf line

/-- A line that does none of it. -/
structure Untraced (line : Text) : Prop where
  declare : declareLine line = none
  begins : beginLine line = none
  ends : isEnd line = false
  statement : statementOf line = none

theorem Inert.untraced (h : Inert line) : Untraced line :=
  ⟨h.no_declare, h.no_begin, h.no_end, h.no_statement⟩

theorem Untraced.alike (h : Untraced line) (h' : Untraced line') : Alike line line' :=
  ⟨h'.declare.trans h.declare.symm, h'.begins.trans h.begins.symm, h'.ends.trans h.ends.symm,
    h'.statement.trans h.statement.symm⟩

/-- A line that goes has no traces, and one that stays keeps them. -/
def KeepsTraces (f : Text → Option Text) (line : Text) : Prop :=
  (f line = none ∧ Untraced line) ∨ ∃ line', f line = some line' ∧ Alike line line'

theorem block_filterMap (h : ∀ line ∈ lines, KeepsTraces f line) :
    (lines.filterMap f).take (blockLength (lines.filterMap f)) =
        (lines.take (blockLength lines)).filterMap f ∧
      (lines.filterMap f).drop (blockLength (lines.filterMap f)) =
        (lines.drop (blockLength lines)).filterMap f := by
  have hmap : ∀ {inner : List Text}, (∀ line ∈ inner, line ∈ lines) →
      (∀ line ∈ inner, isEnd line = false) → ∀ line ∈ inner.filterMap f, isEnd line = false := by
    intro inner hmem hinner line' hline'
    obtain ⟨line, hline, hf⟩ := List.mem_filterMap.mp hline'
    rcases h line (hmem line hline) with ⟨hnone, -⟩ | ⟨line'', hsome, hsame⟩
    · rw [hnone] at hf
      cases hf
    · rw [hsome] at hf
      cases hf
      exact hsame.ends.trans (hinner line hline)
  rcases block_cases lines with hnone | ⟨inner, last, after, rfl, hinner, hlast⟩
  · rw [blockLength_zero hnone, blockLength_zero (hmap (fun _ hline => hline) hnone)]
    exact ⟨rfl, rfl⟩
  · have hmem : last ∈ inner ++ last :: after := List.mem_append_right _ (List.mem_cons_self ..)
    rcases h last hmem with ⟨-, hlost⟩ | ⟨last', hsome, hsame⟩
    · rw [hlost.ends] at hlast
      cases hlast
    · have hinner' := hmap (fun _ hline => List.mem_append_left _ hline) hinner
      have heq : (inner ++ last :: after).filterMap f =
          inner.filterMap f ++ last' :: after.filterMap f := by
        rw [List.filterMap_append, List.filterMap_cons_some hsome]
      have hsplit : ∀ {xs ys : List Text} {x : Text},
          (xs ++ x :: ys).take (xs.length + 1) = xs ++ [x] ∧ (xs ++ x :: ys).drop (xs.length + 1) = ys := by
        intro xs ys x
        rw [← List.singleton_append, ← List.append_assoc, ← List.length_singleton (a := x),
          ← List.length_append]
        exact ⟨List.take_left, List.drop_left⟩
      rw [heq, blockLength_append hinner' (hsame.ends.trans hlast), blockLength_append hinner hlast,
        hsplit.1, hsplit.2, hsplit.1, hsplit.2, List.filterMap_append, List.filterMap_cons_some hsome]
      exact ⟨rfl, rfl⟩

namespace Reading

def filterMap (f : Text → Option Text) (r : Reading) : Reading :=
  ⟨r.before.filterMap f, r.declaration.map fun d => (d.1, d.2.filterMap f), r.after.filterMap f⟩

end Reading

/-- The lines are read as before. -/
theorem reading_filterMap (h : ∀ line ∈ lines, KeepsTraces f line) :
    reading (lines.filterMap f) = (reading lines).filterMap f := by
  induction lines with
  | nil => rfl
  | cons line lines ih =>
    obtain ⟨hline, hlines⟩ := List.forall_mem_cons.mp h
    rcases hline with ⟨hnone, hplain⟩ | ⟨line', hsome, hsame⟩
    · rw [List.filterMap_cons_none hnone, ih hlines, reading_cons hplain.declare hplain.begins,
        Reading.filterMap, Reading.filterMap, List.filterMap_cons_none hnone]
    · rw [List.filterMap_cons_some hsome]
      cases hdeclare : declareLine line with
      | some name =>
        rw [reading_declare (hsame.declare.trans hdeclare), reading_declare hdeclare, Reading.filterMap,
          Option.map_some, List.filterMap_cons_some hsome]
        rfl
      | none =>
        cases hbegin : beginLine line with
        | some name =>
          rw [reading_begin (hsame.declare.trans hdeclare) (hsame.begins.trans hbegin),
            reading_begin hdeclare hbegin, Reading.filterMap, Option.map_some,
            List.filterMap_cons_some hsome, (block_filterMap hlines).1, (block_filterMap hlines).2]
          rfl
        | none =>
          rw [reading_cons (hsame.declare.trans hdeclare) (hsame.begins.trans hbegin),
            reading_cons hdeclare hbegin, ih hlines, Reading.filterMap, Reading.filterMap,
            List.filterMap_cons_some hsome]

namespace Reading

instance (decl : List Text) : Decidable (IsBlock decl) := inferInstanceAs (Decidable (1 < decl.length))

/-- Files with the same category and the same statements. -/
structure Same (r r' : Reading) : Prop where
  name : r'.name = r.name
  isBlock : r'.isBlock = r.isBlock
  statements : r'.statements = r.statements
  closed : r'.Closed ↔ r.Closed

theorem Same.symm {r r' : Reading} (h : Same r r') : Same r' r :=
  ⟨h.name.symm, h.isBlock.symm, h.statements.symm, h.closed.symm⟩

theorem Same.trans {r r' r'' : Reading} (h : Same r r') (h' : Same r' r'') : Same r r'' :=
  ⟨h'.name.trans h.name, h'.isBlock.trans h.isBlock, h'.statements.trans h.statements,
    h'.closed.trans h.closed⟩

end Reading

theorem mem_lines_of_reading : (∀ line ∈ (reading lines).before, line ∈ lines) ∧
    (∀ name decl, (reading lines).declaration = some (name, decl) → ∀ line ∈ decl, line ∈ lines) ∧
    ∀ line ∈ (reading lines).after, line ∈ lines := by
  obtain ⟨-, ⟨hnone, heq, hafter⟩ | ⟨name, first, more, hsome, heq, -⟩⟩ := reading_spec lines
  · refine ⟨fun line hline => heq ▸ hline, fun name decl hdecl => ?_, fun line hline => ?_⟩
    · rw [hnone] at hdecl
      cases hdecl
    · rw [hafter] at hline
      cases hline
  · have hmem : ∀ line, line ∈ (reading lines).before ∨ line ∈ first :: more ∨
        line ∈ (reading lines).after → line ∈ lines := by
      intro line hline
      rw [heq, List.mem_append, List.mem_append]
      exact hline
    refine ⟨fun line hline => hmem line (.inl hline), fun name decl hdecl line hline => ?_,
      fun line hline => hmem line (.inr (.inr hline))⟩
    rw [hsome] at hdecl
    cases hdecl
    exact hmem line (.inr (.inl hline))

theorem statements_filterMap {part : List Text} (h : ∀ line ∈ part, KeepsTraces f line) :
    (part.filterMap f).filterMap statementOf = part.filterMap statementOf := by
  rw [List.filterMap_filterMap]
  apply List.filterMap_congr
  intro line hline
  rcases h line hline with ⟨hnone, hlost⟩ | ⟨line', hsome, hkept⟩
  · rw [hnone, hlost.statement]
    rfl
  · rw [hsome]
    exact hkept.statement

/-- A declaration is of the same kind. -/
theorem declaration_filterMap {first : Text} {more : List Text}
    (h : ∀ line ∈ lines, KeepsTraces f line) (hdecl : (reading lines).declaration = some (name, first :: more)) :
    ∃ first', (first :: more).filterMap f = first' :: more.filterMap f ∧ Alike first first' ∧
      (more.filterMap f = [] ↔ more = []) := by
  have hmem := mem_lines_of_reading.2.1 name _ hdecl
  obtain ⟨-, ⟨hnone, -, -⟩ | ⟨name', first', more', hsome, -, hkind⟩⟩ := reading_spec lines
  · rw [hnone] at hdecl
    cases hdecl
  · rw [hsome] at hdecl
    cases hdecl
    have hfirst : ∃ first', f first = some first' ∧ Alike first first' := by
      rcases h first (hmem first (List.mem_cons_self ..)) with ⟨-, hlost⟩ | hkept
      · rcases hkind with ⟨hdeclare, -⟩ | ⟨-, hbegin, -⟩
        · rw [hlost.declare] at hdeclare
          cases hdeclare
        · rw [hlost.begins] at hbegin
          cases hbegin
      · exact hkept
    obtain ⟨first', hf, hkept⟩ := hfirst
    refine ⟨first', List.filterMap_cons_some hf, hkept, fun hnil => ?_, fun hnil => by rw [hnil]; rfl⟩
    rcases hkind with ⟨-, hmore⟩ | ⟨-, -, hlength⟩
    · exact hmore
    · by_contra hne
      obtain ⟨inner, last, rfl, -, hlast⟩ := block_last hlength hne
      rcases h last (hmem last (by simp)) with ⟨-, hlost⟩ | ⟨last', hsome', -⟩
      · rw [hlost.ends] at hlast
        cases hlast
      · rw [List.filterMap_append, List.append_eq_nil_iff, List.filterMap_cons_some hsome'] at hnil
        cases hnil.2

theorem same_filterMap (h : ∀ line ∈ lines, KeepsTraces f line) :
    (reading lines).Same (reading (lines.filterMap f)) := by
  have hafter := (@mem_lines_of_reading lines).2.2
  have hfilter := reading_filterMap h
  have hkeeps : ∀ line ∈ (reading lines).after, KeepsTraces f line := fun line hline => h line (hafter line hline)
  constructor
  · rw [hfilter, Reading.name, Reading.filterMap, Option.map_map]
    rfl
  · rw [hfilter, Reading.isBlock, Reading.filterMap, Reading.isBlock]
    cases hd : (reading lines).declaration with
    | none => rfl
    | some d =>
      obtain ⟨name, decl⟩ := d
      cases decl with
      | nil => rfl
      | cons first more =>
        obtain ⟨first', heq, -, hmore⟩ := declaration_filterMap h hd
        show decide (1 < ((first :: more).filterMap f).length) = decide (1 < (first :: more).length)
        rw [heq, decide_eq_decide, List.length_cons, List.length_cons, Nat.lt_add_left_iff_pos,
          Nat.lt_add_left_iff_pos, List.length_pos_iff, List.length_pos_iff, ne_eq, ne_eq, hmore]
  · rw [hfilter]
    exact statements_filterMap hkeeps
  · rw [hfilter]
    constructor
    · intro hclosed name first hsome
      obtain ⟨first', heq, hsame, -⟩ := declaration_filterMap h hsome
      rw [← hsame.begins]
      apply hclosed name first'
      rw [Reading.filterMap, hsome, Option.map_some, heq]
      rfl
    · intro hclosed name first' hsome
      obtain ⟨⟨name', decl⟩, hsome', hpair⟩ := Option.map_eq_some_iff.mp hsome
      cases decl with
      | nil => cases hpair
      | cons first more =>
        obtain ⟨first'', heq, hsame, hmore⟩ := declaration_filterMap h hsome'
        have hlines := (Prod.mk.inj hpair).2
        rw [heq] at hlines
        obtain ⟨rfl, hnil⟩ := List.cons.inj hlines
        rw [hsame.begins]
        apply hclosed name' first
        rw [hsome', hmore.mp hnil]

/-! ## Preparation -/

variable {expected : Ending} {guard : GuardName} {fixed : List Text}

theorem same_map {g : Text → Text} (h : ∀ line ∈ lines, Alike line (g line)) :
    (reading lines).Same (reading (lines.map g)) := by
  rw [← List.filterMap_eq_map]
  exact same_filterMap fun line hline => .inr ⟨g line, rfl, h line hline⟩

theorem same_filter {q : Text → Bool} (h : ∀ line ∈ lines, q line = false → Untraced line) :
    (reading lines).Same (reading (lines.filter q)) := by
  rw [← List.filterMap_eq_filter]
  apply same_filterMap
  intro line hline
  cases hq : q line with
  | false => exact .inl ⟨Option.guard_eq_none_iff.mpr hq, h line hline hq⟩
  | true => exact .inr ⟨line, Option.guard_eq_some_iff.mpr ⟨rfl, hq⟩, ⟨rfl, rfl, rfl, rfl⟩⟩

theorem alike_fixLineEnding {file : Text} (hline : line ∈ readlines file) :
    Alike line (fixLineEnding expected line) := by
  obtain ⟨content, r, hcontent, hr, rfl⟩ := content_of_mem_readlines hline
  rw [fixLineEnding_append hcontent hr]
  exact ⟨declareLine_ending ending_return hr, beginLine_ending ending_return hr,
    isEnd_ending ending_return hr, statementOf_ending ending_return hr⟩

theorem same_fixLineEndings (expected : Ending) (file : Text) :
    (reading (readlines file)).Same (reading (fixLineEndings expected file)) :=
  same_map fun _ => alike_fixLineEnding

theorem alike_fixError (line : Text) : Alike line (fixError line) := by
  rcases fixError_cases line with heq | ⟨hinert, hfixed⟩
  · rw [heq]
    exact ⟨rfl, rfl, rfl, rfl⟩
  · exact hinert.untraced.alike hfixed.untraced

/-- Neither blank nor a directive. -/
def live (line : Text) : Bool := (line.dropWhile isSpace).head?.any (· != '#')

theorem live_eq_false : live line = false ↔ Inert line := by
  rw [live, Inert]
  cases (line.dropWhile isSpace).head? with
  | none => simp
  | some c => simp

theorem inert_of_blank (h : isBlank line) : Inert line := by
  intro c hc
  rw [List.dropWhile_eq_nil_iff.mpr (List.all_eq_true.mp h)] at hc
  cases hc

theorem inert_of_match {is : List Item} {m : Match}
    (h : matchItems (.greedy isSpace :: .text ['#'] :: is) line = some m) : Inert line := by
  obtain ⟨ws, s₁, m₁, rfl, hws, h₁, rfl⟩ := greedyRun_spec h
  obtain ⟨s₂, m₂, rfl, h₂, rfl⟩ := matchItems_text_spec h₁
  exact inert_hash hws s₂

theorem inert_of_guardLine (h : guardLine line ≠ none) : Inert line := by
  obtain ⟨g, hg⟩ := Option.ne_none_iff_exists'.mp h
  obtain ⟨m, hm, -⟩ := Option.map_eq_some_iff.mp hg
  exact inert_of_match hm

theorem inert_of_endifLine (h : endifLine line ≠ none) : Inert line := by
  obtain ⟨g, hg⟩ := Option.ne_none_iff_exists'.mp h
  obtain ⟨m, hm, -⟩ := Option.map_eq_some_iff.mp hg
  exact inert_of_match hm

theorem filter_live_nil (h : ∀ line ∈ nonblank lines, Inert line) : lines.filter live = [] := by
  rw [List.filter_eq_nil_iff]
  intro line hline
  rw [Bool.not_eq_true, live_eq_false]
  by_cases hblank : isBlank line
  · exact inert_of_blank hblank
  · exact h line (List.mem_filter.mpr ⟨hline, by simpa using hblank⟩)

theorem inert_of_topRun {got : Guards} (h : TopRun lines got) : ∀ line ∈ lines, Inert line := by
  have hguard : ∀ {line : Text} {g : Text × Text}, guardLine line = some g → Inert line :=
    fun hg => inert_of_guardLine (by rw [hg]; exact Option.some_ne_none _)
  cases h with
  | nil => exact List.forall_mem_nil _
  | define h | ifndef h => simpa using hguard h
  | defineIfndef h h' | ifndefDefine h h' => simpa using ⟨hguard h, hguard h'⟩

theorem inert_of_ends {inner bottom : List Text} (h : Ends inner bottom) :
    ∀ line ∈ nonblank bottom, Inert line := by
  rcases h.below with hnil | ⟨line, hone, hendif⟩
  · rw [hnil]
    exact List.forall_mem_nil _
  · rw [hone]
    simpa using inert_of_endifLine hendif

/-- The rewrite of a guard drops and adds blank lines and directives. -/
theorem filter_live_fixGuards (h : fixGuards expected guard.text lines = some fixed) :
    fixed.filter live = lines.filter live := by
  by_cases haccepts : Accepts guard.text (lines.drop (preamble lines))
  · rw [fixGuards_of_accepts haccepts] at h
    cases h
    rfl
  · obtain ⟨top, first, inner, bottom, got, heq, htop, -, hends, rfl⟩ := (fixGuards_of_not haccepts).mp h
    have hifndef : live (ifndefLine expected guard.text) = false :=
      live_eq_false.mpr (inert_of_guardLine (by rw [guardLine_ifndefLine]; exact Option.some_ne_none _))
    have hdefine : live (defineLine expected guard.text) = false :=
      live_eq_false.mpr (inert_of_guardLine (by rw [guardLine_defineLine]; exact Option.some_ne_none _))
    have hendif : live (endifGuardLine expected guard.text) = false :=
      live_eq_false.mpr (inert_of_endifLine (by rw [endifLine_endifGuardLine]; exact Option.some_ne_none _))
    have hblank : live expected.text = false :=
      live_eq_false.mpr (inert_of_blank (List.all_eq_true.mpr ending_space))
    conv_rhs => rw [← List.take_append_drop (preamble lines) lines, heq]
    simp only [guarded, List.filter_append, List.filter_cons, List.filter_nil, hifndef, hdefine, hendif,
      hblank, filter_live_nil (inert_of_topRun htop), filter_live_nil (inert_of_ends hends),
      List.nil_append, List.append_nil, Bool.false_eq_true, if_false]

theorem same_fixGuards (h : fixGuards expected guard.text lines = some fixed) :
    (reading lines).Same (reading fixed) := by
  have hlive : ∀ lines : List Text, (reading lines).Same (reading (lines.filter live)) :=
    fun lines => same_filter fun line _ hlive => (live_eq_false.mp hlive).untraced
  have hfixed := (hlive fixed).symm
  rw [filter_live_fixGuards h] at hfixed
  exact (hlive lines).trans hfixed

/-- A file is prepared without an effect on its traces. -/
theorem same_prepare {file : SourceFile} (h : prepare expected file = some lines) :
    (reading (readlines file.text)).Same (reading lines) := by
  have hendings := same_fixLineEndings expected file.text
  rw [prepare] at h
  split at h
  · cases h
    exact hendings.trans (same_map fun line _ => alike_fixError line)
  · obtain ⟨fixed, hfixed, rfl⟩ := Option.map_eq_some_iff.mp h
    exact (hendings.trans (same_fixGuards hfixed)).trans (same_map fun line _ => alike_fixError line)

end Turf.Tidy
