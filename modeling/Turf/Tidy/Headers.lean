import Mathlib.Data.List.Perm.Subperm
import Turf.Tidy.Guards

/-!
# Headers in their guards

When the rewrite of the include guard keeps the conditionals balanced and every line that is not
of the header's own guard, and is not undone by the next run.
-/
namespace Turf.Tidy

open Turf.Lib.Pattern

variable {expected : Ending} {guard : GuardName} {got : Guards} {first line : Text}
variable {lines top inner bottom body before : List Text} {d i : Nat}

/-! ## Finding the result again -/

theorem hasGuard_guarded (h : isBlank first = false) :
    HasGuard guard.text (guarded expected guard.text (first :: inner)) := by
  refine ⟨ifndefLine expected guard.text, defineLine expected guard.text, first, nonblank inner,
    endifGuardLine expected guard.text, ?_, .inl ⟨guardLine_ifndefLine, guardLine_defineLine⟩,
    endifLine_endifGuardLine⟩
  rw [nonblank_guarded, nonblank_cons_of_not h, List.append_assoc]

/-- The tool leaves a file as it is only because its check says so. -/
theorem fixGuards_self_iff : fixGuards expected guard.text lines = some lines ↔
    Accepts guard.text (lines.drop (preamble lines)) := by
  refine ⟨fun h => ?_, fixGuards_of_accepts⟩
  by_contra hnot
  obtain ⟨top, first, inner, bottom, got, -, -, ⟨hfirst, -⟩, -, heq⟩ := (fixGuards_of_not hnot).mp h
  have hdrop : lines.drop (preamble lines) = guarded expected guard.text (first :: inner) := by
    conv_lhs at heq => rw [← List.take_append_drop (preamble lines) lines]
    exact List.append_cancel_left heq
  rw [hdrop] at hnot
  exact hnot (.inl (hasGuard_guarded hfirst))

/-! ## The preamble of the result -/

theorem endsPreamble_of_not_mem (h : '*' ∉ line) : endsPreamble line = false := by
  rw [endsPreamble, decide_eq_false_iff_not]
  intro hwithin
  exact h (hwithin.subset (by decide))

theorem star_not_mem_ending : '*' ∉ expected.text := fun h => absurd (ending_return _ h) (by decide)

theorem star_not_mem {directive : Text} (h : '*' ∉ directive) :
    '*' ∉ directive ++ guard.text ++ expected.text := by
  rw [List.mem_append, List.mem_append, not_or, not_or]
  exact ⟨⟨h, fun hmem => absurd (guard.word _ hmem) (by decide)⟩, star_not_mem_ending⟩

/-- None of the new lines ends a preamble. -/
theorem not_endsPreamble (expected : Ending) (guard : GuardName) :
    endsPreamble (ifndefLine expected guard.text) = false ∧
      endsPreamble (defineLine expected guard.text) = false ∧
      endsPreamble expected.text = false ∧
      endsPreamble (endifGuardLine expected guard.text) = false :=
  ⟨endsPreamble_of_not_mem (star_not_mem (by decide)),
    endsPreamble_of_not_mem (star_not_mem (by decide)),
    endsPreamble_of_not_mem star_not_mem_ending,
    endsPreamble_of_not_mem (star_not_mem (by decide))⟩

theorem preamble_eq_add_two :
    preamble lines = i + 2 ↔ lines.findIdx? endsPreamble = some i ∧ i < 25 := by
  have htake : (lines.take 25).findIdx? endsPreamble = some i ↔
      lines.findIdx? endsPreamble = some i ∧ i < 25 := by
    rw [List.findIdx?_take, Option.bind_eq_some_iff]
    constructor
    · intro hexists
      obtain ⟨j, hfind, hguard⟩ := hexists
      obtain ⟨rfl, hj⟩ := Option.guard_eq_some_iff.mp hguard
      exact ⟨hfind, of_decide_eq_true hj⟩
    · intro hexists
      obtain ⟨hfind, hi⟩ := hexists
      exact ⟨i, hfind, Option.guard_eq_some_iff.mpr ⟨rfl, decide_eq_true hi⟩⟩
  rw [← htake, preamble]
  cases (lines.take 25).findIdx? endsPreamble with
  | none => simp
  | some j => simp

theorem preamble_cases (lines : List Text) : preamble lines = 0 ∨ ∃ i, preamble lines = i + 2 := by
  rw [preamble]
  split
  · next i _ => exact .inr ⟨i, rfl⟩
  · exact .inl rfl

/-- A preamble that was found is found again if the lines up to its end are kept. -/
theorem preamble_kept (hpre : preamble lines = i + 2) (rest : List Text) :
    preamble (lines.take (i + 2) ++ rest) = i + 2 := by
  obtain ⟨hfind, hi⟩ := preamble_eq_add_two.mp hpre
  refine preamble_eq_add_two.mpr ⟨?_, hi⟩
  have hguard : Option.guard (fun j => decide (j < i + 2)) i = some i :=
    Option.guard_eq_some_iff.mpr ⟨rfl, decide_eq_true (by omega)⟩
  rw [List.findIdx?_append, List.findIdx?_take, hfind, Option.bind_some, hguard, Option.some_or]

theorem findIdx?_guarded (expected : Ending) (guard : GuardName) (body : List Text) :
    (guarded expected guard.text body).findIdx? endsPreamble =
      (body.findIdx? endsPreamble).map (· + 3) := by
  obtain ⟨hifndef, hdefine, hending, hendif⟩ := not_endsPreamble expected guard
  have htop : [ifndefLine expected guard.text, defineLine expected guard.text,
      expected.text].findIdx? endsPreamble = none := by
    simp [List.findIdx?_cons, hifndef, hdefine, hending]
  have hbottom : [expected.text, endifGuardLine expected guard.text].findIdx? endsPreamble =
      none := by
    simp [List.findIdx?_cons, hending, hendif]
  rw [guarded, List.findIdx?_append, List.findIdx?_append, htop, hbottom]
  cases body.findIdx? endsPreamble <;> rfl

/-- A line of the body does not end a preamble of the new header in front of which the check does
not accept the lines. -/
def Stays (expected : Ending) (guard : Text) (body : List Text) : Prop :=
  ∀ i, i < 22 → body.findIdx? endsPreamble = some i →
    Accepts guard ((body ++ [expected.text, endifGuardLine expected guard]).drop (i + 2))

/-- When the next run leaves the new header as it is. -/
theorem fixGuards_result_iff (h : isBlank first = false) (hrest : lines.drop (preamble lines) ≠ []) :
    fixGuards expected guard.text
        (lines.take (preamble lines) ++ guarded expected guard.text (first :: inner)) =
      some (lines.take (preamble lines) ++ guarded expected guard.text (first :: inner)) ↔
    (preamble lines = 0 → Stays expected guard.text (first :: inner)) := by
  rw [fixGuards_self_iff]
  rcases preamble_cases lines with hpre | ⟨i, hpre⟩
  · rw [hpre, List.take_zero, List.nil_append]
    have hfind := findIdx?_guarded expected guard (first :: inner)
    constructor
    · intro haccepts _ i hi hbody
      rw [hbody, Option.map_some] at hfind
      have hpreamble := preamble_eq_add_two.mpr ⟨hfind, by omega⟩
      rw [hpreamble] at haccepts
      exact haccepts
    · intro hstays
      rcases preamble_cases (guarded expected guard.text (first :: inner)) with hnew | ⟨j, hnew⟩
      · rw [hnew, List.drop_zero]
        exact .inl (hasGuard_guarded h)
      · obtain ⟨hj, hlt⟩ := preamble_eq_add_two.mp hnew
        rw [hfind] at hj
        obtain ⟨i, hbody, rfl⟩ := Option.map_eq_some_iff.mp hj
        rw [hnew]
        exact hstays rfl i (by omega) hbody
  · rw [hpre] at hrest ⊢
    have hlength : (lines.take (i + 2)).length = i + 2 := by
      rw [List.length_take, Nat.min_eq_left]
      by_contra hshort
      exact hrest (List.drop_eq_nil_iff.mpr (by omega))
    rw [preamble_kept hpre, List.drop_append_of_le_length (by omega), List.drop_of_length_le (by omega)]
    exact ⟨fun _ hzero => absurd hzero (Nat.succ_ne_zero _), fun _ => .inl (hasGuard_guarded h)⟩

/-! ## When the rewrite is in order -/

/-- Where the two loops end behind the preamble: the body is from the line at which the first one
breaks to the one at which the second one does. -/
structure Cut (lines top : List Text) (first : Text) (inner bottom : List Text) : Prop where
  eq : lines.drop (preamble lines) = top ++ (first :: inner ++ bottom)
  first_nonblank : isBlank first = false
  stops : ∃ got, TopRun (nonblank top) got ∧ Guards.top got first = none
  ends : Ends inner bottom

/-- No comment and no continued line reaches over a cut. -/
structure Clear (lines top body bottom : List Text) : Prop where
  before : Whole (lines.take (preamble lines))
  top : ∀ line ∈ nonblank top, Whole [line]
  body : Whole body
  bottom : ∀ line ∈ nonblank bottom, Whole [line]

theorem Clear.top_whole (h : Clear lines top body bottom) : Whole top :=
  whole_of_forall (whole_of_nonblank h.top)

/-- What the rewrite drops: nothing, an `#ifndef` and an `#endif` that it writes as well, or lines of
the header's own guard, which is behind the preamble. -/
def Drops (expected : Ending) (guard : Text) (lines top bottom : List Text) : Prop :=
  nonblank top = [] ∧ nonblank bottom = [] ∨
  nonblank top = [ifndefLine expected guard] ∧ nonblank bottom = [endifGuardLine expected guard] ∨
  isGuard (codeLines lines) ∧ codeLines (lines.take (preamble lines)) = [] ∧
    nonblank top ≠ [] ∧ nonblank bottom ≠ []

/-- The header is left as it is, or what is dropped at its cuts may be, and the next run finds the
new guard. -/
def InOrder (expected : Ending) (guard : Text) (lines : List Text) : Prop :=
  Accepts guard (lines.drop (preamble lines)) ∨
  ∃ top first inner bottom, Cut lines top first inner bottom ∧
    Clear lines top (first :: inner) bottom ∧ Drops expected guard lines top bottom ∧
    (preamble lines = 0 → Stays expected guard (first :: inner))

/-- No comment and no continued line reaches over the cuts, and a guard of its own the header has
behind the preamble. -/
structure Uncrossed (lines : List Text) : Prop where
  clear : ∀ {top first inner bottom}, Cut lines top first inner bottom →
    Clear lines top (first :: inner) bottom
  guard : isGuard (codeLines lines) → codeLines (lines.take (preamble lines)) = []

/-! ## Code around the body -/

theorem TopRun.found (h : TopRun top got) : ∀ line ∈ top, ∃ kind text, guardLine line = some (kind, text) := by
  cases h with
  | nil => exact fun _ hline => by cases hline
  | define h | ifndef h => simpa using ⟨_, _, h⟩
  | defineIfndef h h' | ifndefDefine h h' => simpa using ⟨⟨_, _, h⟩, _, _, h'⟩

namespace Cut

/-- What is dropped is a directive each line. -/
theorem code (h : Cut lines top first inner bottom) (hclear : Clear lines top (first :: inner) bottom) :
    (∀ line ∈ nonblank top, Whole [line] ∧ isBlank (codeOf line) = false) ∧
      ∀ line ∈ nonblank bottom, Whole [line] ∧ isBlank (codeOf line) = false := by
  obtain ⟨got, hrun, -⟩ := h.stops
  refine ⟨fun line hline => ⟨hclear.top line hline, ?_⟩, fun line hline => ⟨hclear.bottom line hline, ?_⟩⟩
  · obtain ⟨kind, text, hfound⟩ := hrun.found line hline
    obtain ⟨-, more, hcode⟩ := code_of_guardLine hfound
    exact code_of_directive hcode
  · rcases h.ends.below with hnil | ⟨last, hone, hlast⟩
    · rw [hnil] at hline
      cases hline
    · rw [hone, List.mem_singleton] at hline
      obtain ⟨more, hcode⟩ := code_of_endifLine (hline ▸ hlast)
      exact code_of_directive hcode

theorem codeLines_eq (h : Cut lines top first inner bottom)
    (hclear : Clear lines top (first :: inner) bottom) : codeLines lines =
      codeLines (lines.take (preamble lines)) ++ ((nonblank top).map codeOf ++
        (codeLines (first :: inner) ++ (nonblank bottom).map codeOf)) := by
  obtain ⟨htop, hbottom⟩ := h.code hclear
  conv_lhs => rw [← List.take_append_drop (preamble lines) lines, h.eq, codeLines_append hclear.before,
    codeLines_append hclear.top_whole, codeLines_append hclear.body, (shown_whole htop).2,
    (shown_whole hbottom).2]

theorem shown_eq (h : Cut lines top first inner bottom) (hclear : Clear lines top (first :: inner) bottom) :
    shown lines = shown (lines.take (preamble lines)) ++
      ((nonblank top).map (fun line => (line, some (codeOf line))) ++
        (shown (first :: inner) ++ (nonblank bottom).map fun line => (line, some (codeOf line)))) := by
  obtain ⟨htop, hbottom⟩ := h.code hclear
  conv_lhs => rw [← List.take_append_drop (preamble lines) lines, h.eq, shown_append hclear.before,
    shown_append hclear.top_whole, shown_append hclear.body, (shown_whole htop).1, (shown_whole hbottom).1]

theorem nonblank_eq (h : Cut lines top first inner bottom) : nonblank lines =
    nonblank (lines.take (preamble lines)) ++
      (nonblank top ++ (nonblank (first :: inner) ++ nonblank bottom)) := by
  conv_lhs => rw [← List.take_append_drop (preamble lines) lines, h.eq, nonblank_append, nonblank_append,
    nonblank_append]

/-- The dropped lines that are of the header's own guard. -/
theorem own (h : Cut lines top first inner bottom) (hclear : Clear lines top (first :: inner) bottom)
    (hguard : isGuard (codeLines lines)) (hcode : codeLines (lines.take (preamble lines)) = []) :
    (nonblank top = [] ∨ ∃ x tops, nonblank top = x :: tops ∧ directiveName (codeOf x) = some ifndefText ∧
        (tops = [] ∨ ∃ y, tops = [y] ∧ directiveName (codeOf y) = some defineText)) ∧
      (nonblank bottom = [] ∨ ∃ z, nonblank bottom = [z] ∧ directiveName (codeOf z) = some "endif".toList) := by
  obtain ⟨line, line', within, last, hsplit, hline, hline', hlast⟩ := isGuard_spec hguard
  rw [h.codeLines_eq hclear, hcode, List.nil_append] at hsplit
  obtain ⟨got, hrun, -⟩ := h.stops
  constructor
  · generalize nonblank top = tops at hsplit hrun
    cases hrun with
    | nil => exact .inl rfl
    | define _ | ifndef _ =>
      refine .inr ⟨_, [], rfl, ?_, .inl rfl⟩
      rw [(List.cons.inj hsplit).1]
      exact hline
    | defineIfndef _ _ | ifndefDefine _ _ =>
      refine .inr ⟨_, _, rfl, ?_, .inr ⟨_, rfl, ?_⟩⟩
      · rw [(List.cons.inj hsplit).1]
        exact hline
      · rw [(List.cons.inj (List.cons.inj hsplit).2).1]
        exact hline'
  · rcases h.ends.below with hnil | ⟨z, hone, -⟩
    · exact .inl hnil
    · refine .inr ⟨z, hone, ?_⟩
      have hend := congrArg List.getLast? hsplit
      rw [hone, ← List.append_assoc, List.map_singleton, List.getLast?_concat, ← List.cons_append,
        ← List.cons_append, List.getLast?_concat, Option.some.injEq] at hend
      rw [hend]
      exact hlast

end Cut

/-- The lines around the body, one after the other. -/
theorem depthFrom_around {tops codes bottoms : List Text} (h : depthFrom d (tops ++ (codes ++ bottoms)) = some 0) :
    ∃ e f, depthFrom d tops = some e ∧ depthFrom e codes = some f ∧ depthFrom f bottoms = some 0 := by
  rw [depthFrom_append] at h
  obtain ⟨e, htop, h⟩ := Option.bind_eq_some_iff.mp h
  rw [depthFrom_append] at h
  obtain ⟨f, hbody, hbottom⟩ := Option.bind_eq_some_iff.mp h
  exact ⟨e, f, htop, hbody, hbottom⟩

theorem balanced_guarded (hwhole : Whole before) (hbody : Whole body)
    (hbefore : depthFrom 0 (codeLines before) = some d) :
    Balanced (before ++ guarded expected guard.text body) ↔ depthFrom (d + 1) (codeLines body) = some 1 := by
  rw [Balanced, codeLines_append hwhole, depthFrom_append, hbefore, Option.bind_some, depthFrom_guarded hbody]
  have hendif := (endifGuardLine_code expected guard).2
  constructor
  · intro h
    obtain ⟨e, hbody, hend⟩ := Option.bind_eq_some_iff.mp h
    match e, hend with
    | 0, hend =>
      rw [depthAfter_zero_endif hendif] at hend
      cases hend
    | e + 1, hend =>
      rw [depthAfter_endif hendif] at hend
      cases hend
      exact hbody
  · intro h
    rw [h, Option.bind_some, depthAfter_endif hendif]

/-- An `#endif` below the body closes what is open behind it. -/
theorem depthFrom_endif {z : Text} {f : Nat} (hz : directiveName z = some "endif".toList)
    (h : depthFrom f [z] = some 0) : f = 1 := by
  rw [depthFrom_cons] at h
  match f, h with
  | 0, h =>
    rw [depthAfter_zero_endif hz] at h
    cases h
  | f + 1, h =>
    rw [depthAfter_endif hz] at h
    cases h
    rfl

/-! ## Headers in order -/

/-- What the rewrite of the guard is to do. -/
def Keeps (expected : Ending) (guard : Text) (lines : List Text) : Prop :=
  ∃ fixed, fixGuards expected guard lines = some fixed ∧ Balanced fixed ∧
    (kept lines).Sublist fixed ∧ fixGuards expected guard fixed = some fixed

/-- With the new guard the body closes what the lines above have opened. -/
theorem depthFrom_body (hcut : Cut lines top first inner bottom)
    (hclear : Clear lines top (first :: inner) bottom) (hdrops : Drops expected guard.text lines top bottom)
    (hbefore : depthFrom 0 (codeLines (lines.take (preamble lines))) = some d)
    (hdepth : depthFrom d ((nonblank top).map codeOf ++
      (codeLines (first :: inner) ++ (nonblank bottom).map codeOf)) = some 0) :
    depthFrom (d + 1) (codeLines (first :: inner)) = some 1 := by
  obtain ⟨e, f, htop, hbody, hbottom⟩ := depthFrom_around hdepth
  rcases hdrops with ⟨hnil, hnil'⟩ | ⟨hone, hlast⟩ | ⟨hguard, hcode, htops, hbottoms⟩
  · rw [hnil] at htop
    rw [hnil'] at hbottom
    cases htop
    cases hbottom
    exact depthFrom_add hbody
  · rw [hone, List.map_singleton, depthFrom_cons, depthAfter_ifndef (ifndefLine_code expected guard).2] at htop
    cases htop
    rw [hlast] at hbottom
    obtain rfl := depthFrom_endif (endifGuardLine_code expected guard).2 hbottom
    exact hbody
  · obtain ⟨hown, hown'⟩ := hcut.own hclear hguard hcode
    obtain ⟨x, tops, hx, hifndef, hmore⟩ := hown.resolve_left htops
    obtain ⟨z, hz, hendif⟩ := hown'.resolve_left hbottoms
    rw [hz] at hbottom
    obtain rfl := depthFrom_endif hendif hbottom
    rw [hcode] at hbefore
    cases hbefore
    have he : e = 1 := by
      rw [hx, List.map_cons, depthFrom_cons, depthAfter_ifndef hifndef, Option.bind_some] at htop
      rcases hmore with rfl | ⟨y, rfl, hdefine⟩
      · cases htop
        rfl
      · rw [List.map_singleton, depthFrom_cons, depthAfter_define hdefine] at htop
        cases htop
        rfl
    rw [he] at hbody
    exact hbody

/-- Every line that is kept is in the new header. -/
theorem kept_sublist_guarded (hcut : Cut lines top first inner bottom)
    (hclear : Clear lines top (first :: inner) bottom) (hdrops : Drops expected guard.text lines top bottom) :
    (kept lines).Sublist (lines.take (preamble lines) ++ guarded expected guard.text (first :: inner)) := by
  have hguarded := nonblank_guarded expected guard.text (first :: inner)
  have hbody : (nonblank (first :: inner)).Sublist (guarded expected guard.text (first :: inner)) := by
    refine List.Sublist.trans ?_ (nonblank_sublist _)
    rw [hguarded]
    exact (List.sublist_append_right _ _).trans (List.sublist_append_left _ _)
  have hbefore := nonblank_sublist (lines.take (preamble lines))
  rcases hdrops with ⟨hnil, hnil'⟩ | ⟨hone, hlast⟩ | ⟨hguard, hcode, htops, hbottoms⟩
  · refine (kept_sublist lines).trans ?_
    rw [hcut.nonblank_eq, hnil, hnil', List.nil_append, List.append_nil]
    exact hbefore.append hbody
  · refine (kept_sublist lines).trans ?_
    rw [hcut.nonblank_eq, hone, hlast, ← List.append_assoc [_]]
    refine hbefore.append (List.Sublist.trans ?_ (nonblank_sublist _))
    rw [hguarded]
    exact ((List.sublist_append_left [ifndefLine expected guard.text] _).append
      (List.Sublist.refl _)).append (List.Sublist.refl _)
  · obtain ⟨hown, hown'⟩ := hcut.own hclear hguard hcode
    obtain ⟨x, tops, hx, -, hmore⟩ := hown.resolve_left htops
    obtain ⟨z, hz, -⟩ := hown'.resolve_left hbottoms
    have hwithout : (withoutGuard (shown lines)).Sublist
        (shown (lines.take (preamble lines)) ++ shown (first :: inner)) := by
      rw [hcut.shown_eq hclear, hx, hz, List.map_singleton]
      rcases hmore with rfl | ⟨y, rfl, -⟩
      · exact withoutGuard_cons (not_hasCode hcode) rfl rfl
      · rw [List.map_cons, List.map_singleton, List.cons_append, List.cons_append, List.nil_append,
          withoutGuard_cons_cons (not_hasCode hcode) rfl rfl rfl]
    have hkept := hwithout.map Prod.fst
    rw [List.map_append, map_fst_shown, map_fst_shown] at hkept
    rw [kept, if_pos hguard]
    exact hkept.trans (hbefore.append hbody)

theorem InOrder.keeps (hbalanced : Balanced lines) (h : InOrder expected guard.text lines) :
    Keeps expected guard.text lines := by
  by_cases haccepts : Accepts guard.text (lines.drop (preamble lines))
  · have hfixed : fixGuards expected guard.text lines = some lines := fixGuards_of_accepts haccepts
    exact ⟨lines, hfixed, hbalanced, (kept_sublist lines).trans (nonblank_sublist lines), hfixed⟩
  · obtain ⟨top, first, inner, bottom, hcut, hclear, hdrops, hstays⟩ := h.resolve_left haccepts
    obtain ⟨got, hrun, hstop⟩ := hcut.stops
    refine ⟨_, (fixGuards_of_not haccepts).mpr ⟨top, first, inner, bottom, got, hcut.eq, hrun,
      ⟨hcut.first_nonblank, hstop⟩, hcut.ends, rfl⟩, ?_, kept_sublist_guarded hcut hclear hdrops, ?_⟩
    · rw [Balanced, hcut.codeLines_eq hclear, depthFrom_append] at hbalanced
      obtain ⟨d, hbefore, hdepth⟩ := Option.bind_eq_some_iff.mp hbalanced
      exact (balanced_guarded hclear.before hclear.body hbefore).mpr
        (depthFrom_body hcut hclear hdrops hbefore hdepth)
    · exact (fixGuards_result_iff hcut.first_nonblank (by rw [hcut.eq]; simp)).mpr hstays

/-! ## Headers that are kept -/

/-- What the check has not accepted, in terms of the lines that the loops have passed. -/
theorem not_accepts (h : ¬ Accepts guard.text (top ++ (first :: inner ++ bottom)))
    (hrun : TopRun (nonblank top) got)
    (hstop : isBlank first = false ∧ Guards.top got first = none) :
    ¬ Guards.areOf { got with endif := (nonblank (inner ++ bottom)).getLast?.bind endifLine }
        guard.text ∧ ¬ got.startWithDefine := by
  have hstops : Stops Guards.top got (first :: inner ++ bottom) := by
    intro _ hhead
    cases hhead
    exact hstop
  have hfound := findGuards_eq hrun hstops (by simp)
  have hguards := scanBack_guards hrun.endif (first :: inner ++ bottom)
  rw [accepts_iff] at h
  refine ⟨fun hgot => h ⟨_, _, hfound, .inl ?_⟩, fun hgot => h ⟨_, _, hfound, .inr ?_⟩⟩
  · show (scanBack got (first :: inner ++ bottom)).1.areOf guard.text
    rw [hguards]
    exact hgot
  · show (scanBack got (first :: inner ++ bottom)).1.startWithDefine
    rw [hguards]
    exact hgot

/-- A line that is dropped around the body and yet kept is one of the new lines. -/
theorem mem_new {x : Text} (h : (nonblank before ++
    (nonblank top ++ (nonblank body ++ nonblank bottom))).Sublist
      (before ++ guarded expected guard.text body))
    (hx : x ∈ nonblank top ∨ x ∈ nonblank bottom) : x = ifndefLine expected guard.text ∨
      x = defineLine expected guard.text ∨ x = endifGuardLine expected guard.text := by
  have hcount : List.count x (nonblank top) + List.count x (nonblank bottom) ≤
      List.count x [ifndefLine expected guard.text, defineLine expected guard.text,
        endifGuardLine expected guard.text] := by
    have hfilter : (nonblank (nonblank before ++
        (nonblank top ++ (nonblank body ++ nonblank bottom)))).Sublist
          (nonblank (before ++ guarded expected guard.text body)) := h.filter _
    have hle := hfilter.count_le x
    simp only [nonblank_append, nonblank_nonblank, nonblank_guarded, List.count_append,
      List.count_cons, List.count_nil] at hle ⊢
    omega
  have hpos : 0 < List.count x (nonblank top) + List.count x (nonblank bottom) := by
    rcases hx with hx | hx
    · exact Nat.add_pos_left (List.count_pos_iff.mpr hx) _
    · exact Nat.add_pos_right _ (List.count_pos_iff.mpr hx)
  have hmem := List.count_pos_iff.mp (hpos.trans_le hcount)
  simpa using hmem

/-- One of the new lines, by the directive that the patterns find in it. -/
theorem new_of_guardLine {directive text : Text} (hnew : line = ifndefLine expected guard.text ∨
    line = defineLine expected guard.text ∨ line = endifGuardLine expected guard.text)
    (h : guardLine line = some (directive, text)) :
    line = (if directive = ifndefText then ifndefLine expected guard.text else
      defineLine expected guard.text) ∧ text = guard.text := by
  rcases hnew with rfl | rfl | rfl
  · rw [guardLine_ifndefLine] at h
    cases h
    exact ⟨rfl, rfl⟩
  · rw [guardLine_defineLine] at h
    cases h
    exact ⟨rfl, rfl⟩
  · rw [guardLine_endifGuardLine] at h
    cases h

theorem new_of_endifLine (hnew : line = ifndefLine expected guard.text ∨
    line = defineLine expected guard.text ∨ line = endifGuardLine expected guard.text)
    (h : endifLine line ≠ none) : line = endifGuardLine expected guard.text := by
  rcases hnew with rfl | rfl | rfl
  · exact absurd endifLine_ifndefLine h
  · exact absurd endifLine_defineLine h
  · rfl

/-- What is dropped, where the header has a guard of its own. -/
theorem drops_of_isGuard {e f : Nat} (hcut : Cut lines top first inner bottom)
    (hclear : Clear lines top (first :: inner) bottom) (hguard : isGuard (codeLines lines))
    (hcode : codeLines (lines.take (preamble lines)) = [])
    (htop : depthFrom 0 ((nonblank top).map codeOf) = some e)
    (hbody : depthFrom e (codeLines (first :: inner)) = some f)
    (hbottom : depthFrom f ((nonblank bottom).map codeOf) = some 0)
    (hnew : depthFrom 1 (codeLines (first :: inner)) = some 1) :
    Drops expected guard.text lines top bottom := by
  obtain ⟨hown, hown'⟩ := hcut.own hclear hguard hcode
  rcases hown with hnil | ⟨x, tops, hx, hifndef, hmore⟩
  · refine .inl ⟨hnil, ?_⟩
    rw [hnil] at htop
    cases htop
    have hadd : depthFrom (0 + 1) (codeLines (first :: inner)) = some (f + 1) := depthFrom_add hbody
    rw [hnew, Option.some.injEq] at hadd
    rcases hown' with hnil' | ⟨z, hz, hendif⟩
    · exact hnil'
    · rw [hz] at hbottom
      obtain rfl := depthFrom_endif hendif hbottom
      omega
  · refine .inr (.inr ⟨hguard, hcode, by rw [hx]; exact List.cons_ne_nil _ _, ?_⟩)
    have he : e = 1 := by
      rw [hx, List.map_cons, depthFrom_cons, depthAfter_ifndef hifndef, Option.bind_some] at htop
      rcases hmore with rfl | ⟨y, rfl, hdefine⟩
      · cases htop
        rfl
      · rw [List.map_singleton, depthFrom_cons, depthAfter_define hdefine] at htop
        cases htop
        rfl
    intro hnil
    rw [he, hnew] at hbody
    rw [hnil] at hbottom
    cases hbody
    cases hbottom

/-- What is dropped, where every dropped line is one of the new ones. -/
theorem drops_of_new {e f : Nat} (hcut : Cut lines top first inner bottom)
    (haccepts : ¬ Accepts guard.text (lines.drop (preamble lines)))
    (htop : depthFrom d ((nonblank top).map codeOf) = some e)
    (hbody : depthFrom e (codeLines (first :: inner)) = some f)
    (hbottom : depthFrom f ((nonblank bottom).map codeOf) = some 0)
    (hnew : depthFrom (d + 1) (codeLines (first :: inner)) = some 1)
    (hmem : ∀ x, x ∈ nonblank top ∨ x ∈ nonblank bottom → x = ifndefLine expected guard.text ∨
      x = defineLine expected guard.text ∨ x = endifGuardLine expected guard.text) :
    Drops expected guard.text lines top bottom := by
  obtain ⟨got, hrun, hstop⟩ := hcut.stops
  rw [hcut.eq] at haccepts
  obtain ⟨hgot, hdefines⟩ := not_accepts haccepts hrun ⟨hcut.first_nonblank, hstop⟩
  have hendif := (endifGuardLine_code expected guard).2
  have hlast : nonblank bottom = [] ∨ nonblank bottom = [endifGuardLine expected guard.text] := by
    rcases hcut.ends.below with hnil | ⟨line, hone, hline⟩
    · exact .inl hnil
    · refine .inr (hone.trans ?_)
      rw [new_of_endifLine (hmem line (.inr (by rw [hone]; exact List.mem_singleton_self _))) hline]
  -- A conditional that is open behind the body is closed by the `#endif` that the tool writes.
  have hclosed : f = 1 → nonblank bottom = [endifGuardLine expected guard.text] := by
    intro hf
    rcases hlast with hnil | hone
    · rw [hf, hnil] at hbottom
      cases hbottom
    · exact hone
  have hother : f = 1 → got.ifndef = some guard.text → got.define ≠ some guard.text := by
    intro hf hifndef hdefine
    refine hgot ⟨hifndef, hdefine, ?_⟩
    show (nonblank (inner ++ bottom)).getLast?.bind endifLine = _
    rw [nonblank_append, hclosed hf, List.getLast?_concat]
    exact endifLine_endifGuardLine
  have hopen : e = d + 1 → f = 1 := by
    intro he
    rw [he, hnew, Option.some.injEq] at hbody
    exact hbody.symm
  have hifndef := (ifndefLine_code expected guard).2
  have hdefine := (defineLine_code expected guard).2
  generalize htops : nonblank top = tops at hrun htop hmem
  cases hrun with
  | nil =>
    cases htop
    have hadd : depthFrom (d + 1) (codeLines (first :: inner)) = some (f + 1) := depthFrom_add hbody
    rw [hnew, Option.some.injEq] at hadd
    rcases hlast with hnil | hone
    · exact .inl ⟨htops, hnil⟩
    · rw [hone] at hbottom
      have hf := depthFrom_endif hendif hbottom
      omega
  | define h => exact absurd ⟨Option.some_ne_none _, rfl⟩ hdefines
  | ifndef h =>
    obtain ⟨rfl, rfl⟩ := new_of_guardLine (hmem _ (.inl (List.mem_singleton_self _))) h
    rw [if_pos rfl] at htop htops
    rw [List.map_singleton, depthFrom_cons, depthAfter_ifndef hifndef] at htop
    cases htop
    exact .inr (.inl ⟨htops, hclosed (hopen rfl)⟩)
  | defineIfndef h h' =>
    obtain ⟨rfl, rfl⟩ := new_of_guardLine (hmem _ (.inl (by simp))) h
    obtain ⟨rfl, rfl⟩ := new_of_guardLine (hmem _ (.inl (by simp))) h'
    rw [if_neg (by decide), if_pos rfl, List.map_cons, List.map_singleton, depthFrom_cons,
      depthAfter_define hdefine, Option.bind_some, depthFrom_cons, depthAfter_ifndef hifndef] at htop
    cases htop
    exact absurd rfl (hother (hopen rfl) rfl)
  | ifndefDefine h h' =>
    obtain ⟨rfl, rfl⟩ := new_of_guardLine (hmem _ (.inl (by simp))) h
    obtain ⟨rfl, rfl⟩ := new_of_guardLine (hmem _ (.inl (by simp))) h'
    rw [if_pos rfl, if_neg (by decide), List.map_cons, List.map_singleton, depthFrom_cons,
      depthAfter_ifndef hifndef, Option.bind_some, depthFrom_cons, depthAfter_define hdefine] at htop
    cases htop
    exact absurd rfl (hother (hopen rfl) rfl)

theorem Keeps.inOrder (huncrossed : Uncrossed lines) (hbalanced : Balanced lines)
    (h : Keeps expected guard.text lines) : InOrder expected guard.text lines := by
  by_cases haccepts : Accepts guard.text (lines.drop (preamble lines))
  · exact .inl haccepts
  obtain ⟨fixed, hfixed, hfixedBalanced, hkept, hagain⟩ := h
  obtain ⟨top, first, inner, bottom, got, heq, hrun, hstop, hends, rfl⟩ :=
    (fixGuards_of_not haccepts).mp hfixed
  have hcut : Cut lines top first inner bottom := ⟨heq, hstop.1, ⟨got, hrun, hstop.2⟩, hends⟩
  have hclear := huncrossed.clear hcut
  refine .inr ⟨top, first, inner, bottom, hcut, hclear, ?_,
    (fixGuards_result_iff hstop.1 (by rw [heq]; simp)).mp hagain⟩
  rw [Balanced, hcut.codeLines_eq hclear, depthFrom_append] at hbalanced
  obtain ⟨d, hbefore, hdepth⟩ := Option.bind_eq_some_iff.mp hbalanced
  obtain ⟨e, f, htop, hbody, hbottom⟩ := depthFrom_around hdepth
  have hnew := (balanced_guarded hclear.before hclear.body hbefore).mp hfixedBalanced
  by_cases hguard : isGuard (codeLines lines)
  · have hcode := huncrossed.guard hguard
    rw [hcode] at hbefore
    cases hbefore
    exact drops_of_isGuard hcut hclear hguard hcode htop hbody hbottom hnew
  · rw [kept_of_not hguard, hcut.nonblank_eq] at hkept
    exact drops_of_new hcut haccepts htop hbody hbottom hnew fun x => mem_new hkept

/-! ## Files -/

theorem isLine_new {directive : Text} (h : '\n' ∉ directive) :
    IsLine expected (directive ++ guard.text ++ expected.text) := ⟨_, GuardName.isContent h, rfl⟩

theorem isLine_fixGuards {fixed : List Text} (hlines : ∀ line ∈ lines, IsLine expected line)
    (h : fixGuards expected guard.text lines = some fixed) :
    ∀ line ∈ fixed, IsLine expected line := by
  by_cases haccepts : Accepts guard.text (lines.drop (preamble lines))
  · rw [fixGuards_of_accepts haccepts] at h
    cases h
    exact hlines
  · obtain ⟨top, first, inner, bottom, got, heq, -, -, -, rfl⟩ := (fixGuards_of_not haccepts).mp h
    have hbody : ∀ line ∈ first :: inner, IsLine expected line := by
      intro line hline
      apply hlines line
      apply List.mem_of_mem_drop (i := preamble lines)
      rw [heq]
      exact List.mem_append_right _ (List.mem_append_left _ hline)
    intro line hline
    rw [List.mem_append, guarded, List.mem_append, List.mem_append] at hline
    rcases hline with hline | (hline | hline) | hline
    · exact hlines line (List.mem_of_mem_take hline)
    · simp only [List.mem_cons, List.not_mem_nil, or_false] at hline
      rcases hline with rfl | rfl | rfl
      · exact isLine_new (by decide)
      · exact isLine_new (by decide)
      · exact isLine_ending
    · exact hbody line hline
    · simp only [List.mem_cons, List.not_mem_nil, or_false] at hline
      rcases hline with rfl | rfl
      · exact isLine_ending
      · exact isLine_new (by decide)

/-- What the rewrite of the guard is to do with the file of a header. -/
def KeepsFile (expected : Option Ending) (guard : GuardName) (file : Text) : Prop :=
  ∃ ending written, expected = some ending ∧ tidyGuards expected guard file = some written ∧
    Balanced (readlines written) ∧ (kept (fixLineEndings ending file)).Sublist (readlines written) ∧
    tidyGuards expected guard written = some written

/-- The header is in order, with an ending that `readlines` stops at. -/
def FileInOrder (expected : Option Ending) (guard : GuardName) (file : Text) : Prop :=
  ∃ ending : LineEnding, expected = some ↑ending ∧ InOrder ending guard.text (fixLineEndings ending file)

theorem keepsFile_iff_keeps {ending : LineEnding} {file : Text} :
    KeepsFile (some ending) guard file ↔ Keeps ending guard.text (fixLineEndings ending file) := by
  have hlines : ∀ line ∈ fixLineEndings ending file, IsLine ending line :=
    fun line => isLine_of_mem_fixLineEndings
  constructor
  · intro hexists
    obtain ⟨_, written, hending, hwritten, hbalanced, hkept, hagain⟩ := hexists
    cases hending
    obtain ⟨fixed, hfixed, rfl⟩ := Option.map_eq_some_iff.mp hwritten
    have hisLine := isLine_fixGuards hlines hfixed
    rw [readlines_flatten hisLine] at hbalanced hkept
    rw [tidyGuards, Option.bind_some, fixLineEndings_flatten hisLine] at hagain
    obtain ⟨again, hagain, hflatten⟩ := Option.map_eq_some_iff.mp hagain
    have hsame : again = fixed := by
      rw [← readlines_flatten hisLine, ← hflatten, readlines_flatten (isLine_fixGuards hisLine hagain)]
    exact ⟨fixed, hfixed, hbalanced, hkept, hsame ▸ hagain⟩
  · intro hexists
    obtain ⟨fixed, hfixed, hbalanced, hkept, hagain⟩ := hexists
    have hisLine := isLine_fixGuards hlines hfixed
    refine ⟨ending, fixed.flatten, rfl, by rw [tidyGuards, Option.bind_some, hfixed]; rfl, ?_, ?_, ?_⟩
    · rwa [readlines_flatten hisLine]
    · rwa [readlines_flatten hisLine]
    · rw [tidyGuards, Option.bind_some, fixLineEndings_flatten hisLine, hagain]
      rfl

def turfGuard : GuardName := GuardName.ofHeader "turf".toList "/Heap.h".toList (by decide)

def oldGuard : Text :=
  "#ifndef OLD_H\n// include guard\n#define OLD_H\nint a;\nint b;\n#endif // OLD_H\n".toList

def bareEndif : Text := "#ifndef TURF_HEAP_H\n#define TURF_HEAP_H\nint a;\nint b;\n#endif\n".toList

end Turf.Tidy
