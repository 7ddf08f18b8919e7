import Turf.Tidy.Legible

/-!
# Headers with ids

When the check of the next run accepts the guard of a header that was written with its ids, and maybe with
another number of entries in its definition block.
-/
namespace Turf.Tidy

open Turf.Lib.Pattern
open Turf.Lib.Lexing

variable {line line' name guard desc : Text} {lines lines' front back decl decl' messages : List Text}
  {expected : LineEnding} {orig log : Log} {x : Mode × Text}

/-! ## What the check sees of a line -/

abbrev Face := Option (Text × Text) × Option Text

def face (line : Text) : Face := (guardLine line, endifLine line)

/-- What the check sees of the lines. -/
def faces (lines : List Text) : List Face := (nonblank lines).map face

theorem faces_append (lines lines' : List Text) : faces (lines ++ lines') = faces lines ++ faces lines' := by
  rw [faces, nonblank_append, List.map_append]
  rfl

theorem faces_cons (h : isBlank line = false) (lines : List Text) : faces (line :: lines) = face line :: faces lines := by
  rw [faces, nonblank_cons_of_not h]
  rfl

theorem hasGuard_iff : HasGuard guard lines ↔ ∃ f f' first inner last,
    faces lines = [f, f'] ++ (first :: inner ++ [last]) ∧
      (f.1 = some (ifndefText, guard) ∧ f'.1 = some (defineText, guard) ∨
        f.1 = some (defineText, guard) ∧ f'.1 = some (ifndefText, guard)) ∧
      last.2 = some ("// ".toList ++ guard) := by
  constructor
  · intro h
    obtain ⟨line, line', first, inner, last, heq, hkinds, hlast⟩ := h
    refine ⟨face line, face line', face first, inner.map face, face last, ?_, hkinds, hlast⟩
    rw [faces, heq, List.map_append, List.map_append]
    rfl
  · intro h
    obtain ⟨f, f', first, inner, last, heq, hkinds, hlast⟩ := h
    obtain ⟨top, rest, hlines, htop, hrest⟩ := List.map_eq_append_iff.mp heq
    obtain ⟨line, more, rfl, rfl, hmore⟩ := List.map_eq_cons_iff.mp htop
    obtain ⟨line', rfl, rfl⟩ := List.map_eq_singleton_iff.mp hmore
    obtain ⟨body, end_, rfl, hbody, hend⟩ := List.map_eq_append_iff.mp hrest
    obtain ⟨z, rfl, rfl⟩ := List.map_eq_singleton_iff.mp hend
    obtain ⟨y, ys, rfl, -, -⟩ := List.map_eq_cons_iff.mp hbody
    exact ⟨line, line', y, ys, z, hlines, hkinds, hlast⟩

theorem definesFirst_iff : DefinesFirst lines ↔ ∃ f more, faces lines = f :: more ∧
    (∃ text, f.1 = some (defineText, text)) ∧
      ∀ next, more.head? = some next → ¬ ∃ text, next.1 = some (ifndefText, text) := by
  constructor
  · intro h
    obtain ⟨line, more, heq, hdefine, hnext⟩ := h
    refine ⟨face line, more.map face, by rw [faces, heq]; rfl, hdefine, fun next hhead => ?_⟩
    rw [List.head?_map] at hhead
    obtain ⟨line', hline', rfl⟩ := Option.map_eq_some_iff.mp hhead
    exact hnext line' hline'
  · intro h
    obtain ⟨f, more, heq, hdefine, hnext⟩ := h
    obtain ⟨line, rest, hlines, rfl, rfl⟩ := List.map_eq_cons_iff.mp heq
    refine ⟨line, rest, hlines, hdefine, fun next hhead => hnext (face next) ?_⟩
    rw [List.head?_map, hhead, Option.map_some]

theorem Accepts.of_faces (h : Accepts guard lines) (hfaces : faces lines' = faces lines) : Accepts guard lines' := by
  rcases h with h | h
  · left
    rw [hasGuard_iff] at h ⊢
    rwa [hfaces]
  · right
    rw [definesFirst_iff] at h ⊢
    rwa [hfaces]

/-- What the check sees of a line that is neither blank nor a directive. -/
def unseen : Face := (none, none)

/-- The check does not see the lines, of which neither the first nor the last is blank. -/
def Unseen (lines : List Text) : Prop := (faces lines).head? = some unseen ∧ (faces lines).getLast? = some unseen

theorem faces_around (front decl back : List Text) :
    faces (front ++ (decl ++ back)) = faces front ++ (faces decl ++ faces back) := by
  rw [faces_append, faces_append]

section Places

variable {xs ys zs mid : List Face} {f f' last : Face}

/-- Two faces at the top that the check sees are in front of those that it does not see. -/
theorem front_of_top (hys : ys.head? = some unseen) (hf : f ≠ unseen) (hf' : f' ≠ unseen)
    (h : xs ++ (ys ++ zs) = [f, f'] ++ mid) : ∃ before, xs = f :: f' :: before := by
  obtain ⟨rest, rfl⟩ := List.head?_eq_some_iff.mp hys
  match xs with
  | [] => exact absurd (List.cons.inj h).1.symm hf
  | [g] => exact absurd (List.cons.inj (List.cons.inj h).2).1.symm hf'
  | g :: g' :: before =>
    obtain ⟨rfl, hrest⟩ := List.cons.inj h
    rw [(List.cons.inj hrest).1]
    exact ⟨before, rfl⟩

/-- One at the bottom that it sees is behind them. -/
theorem back_of_bottom (hys : ys.getLast? = some unseen) (hlast : last ≠ unseen)
    (h : xs ++ (ys ++ zs) = mid ++ [last]) : ∃ behind, zs = behind ++ [last] := by
  have hend := congrArg List.getLast? h
  rw [List.getLast?_concat, ← List.append_assoc] at hend
  cases zs using List.reverseRecOn with
  | nil =>
    rw [List.append_nil, List.getLast?_append, hys] at hend
    exact absurd (Option.some.inj hend).symm hlast
  | append_singleton behind g =>
    rw [← List.append_assoc, List.getLast?_concat] at hend
    rw [Option.some.inj hend]
    exact ⟨behind, rfl⟩

end Places

theorem HasGuard.replaced (h : HasGuard guard (front ++ (decl ++ back))) (hdecl : Unseen decl) (hdecl' : Unseen decl') :
    HasGuard guard (front ++ (decl' ++ back)) := by
  obtain ⟨f, f', first, inner, last, heq, hkinds, hlast⟩ := hasGuard_iff.mp h
  rw [faces_around] at heq
  obtain ⟨hf, hf'⟩ : f ≠ unseen ∧ f' ≠ unseen := by
    constructor
    · rintro rfl
      rcases hkinds with ⟨hf, -⟩ | ⟨hf, -⟩ <;> cases hf
    · rintro rfl
      rcases hkinds with ⟨-, hf⟩ | ⟨-, hf⟩ <;> cases hf
  have hseen : last ≠ unseen := by
    rintro rfl
    cases hlast
  obtain ⟨before, hbefore⟩ := front_of_top hdecl.1 hf hf' heq
  rw [← List.append_assoc [f, f']] at heq
  obtain ⟨behind, hbehind⟩ := back_of_bottom hdecl.2 hseen heq
  obtain ⟨rest, hrest⟩ : ∃ rest, faces decl' = unseen :: rest := List.head?_eq_some_iff.mp hdecl'.1
  obtain ⟨first', inner', hinner⟩ : ∃ first' inner', before ++ (faces decl' ++ behind) = first' :: inner' := by
    apply List.exists_cons_of_ne_nil
    rw [hrest]
    simp
  refine hasGuard_iff.mpr ⟨f, f', first', inner', last, ?_, hkinds, hlast⟩
  rw [faces_around, hbefore, hbehind, ← hinner]
  simp

theorem DefinesFirst.replaced (h : DefinesFirst (front ++ (decl ++ back))) (hdecl : Unseen decl)
    (hdecl' : Unseen decl') : DefinesFirst (front ++ (decl' ++ back)) := by
  obtain ⟨rest, hrest⟩ : ∃ rest, faces decl = unseen :: rest := List.head?_eq_some_iff.mp hdecl.1
  obtain ⟨rest', hrest'⟩ : ∃ rest', faces decl' = unseen :: rest' := List.head?_eq_some_iff.mp hdecl'.1
  obtain ⟨f, more, heq, ⟨text, hdefine⟩, hnext⟩ := definesFirst_iff.mp h
  rw [faces_around, hrest] at heq
  match hfront : faces front with
  | [] =>
    rw [hfront] at heq
    have hf := (List.cons.inj heq).1
    rw [← hf] at hdefine
    cases hdefine
  | g :: before =>
    rw [hfront] at heq
    obtain ⟨rfl, rfl⟩ := List.cons.inj heq
    refine definesFirst_iff.mpr
      ⟨g, before ++ (faces decl' ++ faces back), by rw [faces_around, hfront]; rfl, ⟨text, hdefine⟩, ?_⟩
    intro next hhead
    cases before with
    | nil =>
      rw [hrest'] at hhead
      cases hhead
      rintro ⟨text, htext⟩
      cases htext
    | cons g' before => exact hnext next hhead

/-- Lines in the place of others that the check does not see either. -/
theorem Accepts.replaced (h : Accepts guard (front ++ (decl ++ back))) (hdecl : Unseen decl) (hdecl' : Unseen decl') :
    Accepts guard (front ++ (decl' ++ back)) :=
  h.imp (fun h => h.replaced hdecl hdecl') fun h => h.replaced hdecl hdecl'

/-! ## The lines that are written -/

/-- The check sees no more of one line than of the other. -/
def SameFace (line line' : Text) : Prop := isBlank line' = isBlank line ∧ (isBlank line = false → face line' = face line)

theorem faces_congr (h : List.Forall₂ SameFace lines lines') : faces lines' = faces lines := by
  induction h with
  | nil => rfl
  | @cons line line' lines lines' hline _ ih =>
    cases hblank : isBlank line with
    | true =>
      rw [faces, faces, nonblank, nonblank, List.filter_cons_of_neg (by simp [hline.1, hblank]),
        List.filter_cons_of_neg (by simp [hblank])]
      exact ih
    | false => rw [faces_cons hblank, faces_cons (hline.1.trans hblank), ih, hline.2 hblank]

theorem face_of_live (h : live line = true) : isBlank line = false ∧ face line = unseen := by
  have hlive : ¬ Inert line := fun hinert => by
    rw [live_eq_false.mpr hinert] at h
    cases h
  refine ⟨?_, Prod.ext_iff.mpr ⟨?_, ?_⟩⟩
  · by_contra hblank
    exact hlive (inert_of_blank (by simpa using hblank))
  · by_contra hguard
    exact hlive (inert_of_guardLine hguard)
  · by_contra hendif
    exact hlive (inert_of_endifLine hendif)

theorem live_of_not_inert (h : ¬ Inert line) : live line = true := by
  by_contra hlive
  exact h (live_eq_false.mp (by simpa using hlive))

theorem face_errorLine {ws ws' ws'' msg tail : Text} (h : Around ws ws' ws'' tail) :
    isBlank (errorLine ws ws' ws'' msg tail) = false ∧ face (errorLine ws ws' ws'' msg tail) = unseen := by
  obtain ⟨rest, hrest⟩ : ∃ rest, "error".toList ++ (ws'' ++ (msg ++ tail)) = 'e' :: 'r' :: rest :=
    ⟨"ror".toList ++ (ws'' ++ (msg ++ tail)), by
      rw [show "error".toList = 'e' :: 'r' :: "ror".toList by decide]; rfl⟩
  have hline : errorLine ws ws' ws'' msg tail = ws ++ (['#'] ++ (ws' ++ 'e' :: 'r' :: rest)) := by
    rw [errorLine, hrest]
    rfl
  have hhead : ∀ c, ('e' :: 'r' :: rest).head? = some c → isSpace c = false := by
    intro c hc
    cases hc
    rfl
  have hendif : ¬ "endif".toList <+: 'e' :: 'r' :: rest := by
    intro hprefix
    obtain ⟨t, ht⟩ : ∃ t, "endif".toList = 'e' :: 'n' :: t := ⟨"dif".toList, by decide⟩
    rw [ht] at hprefix
    exact absurd (List.cons_prefix_cons.mp (List.cons_prefix_cons.mp hprefix).2).1 (by decide)
  rw [hline]
  refine ⟨?_, Prod.ext_iff.mpr ⟨?_, ?_⟩⟩
  · rw [isBlank, List.all_append, List.all_append, List.all_cons, show isSpace '#' = false by rfl]
    simp
  · show (matchItems guardPattern _).map _ = none
    rw [guardPattern, matchItems_directive h.before h.hash hhead matchItems_oneOf_space,
      matchItems_oneOf_none (by decide) (by decide)]
    rfl
  · show (matchItems endifPattern _).map _ = none
    rw [endifPattern, matchItems_directive h.before h.hash hhead matchItems_endif_space,
      matchItems_text_none hendif]
    rfl

theorem sameFace_fixError (line : Text) : SameFace line (fixError line) := by
  rcases fixError_spec line with heq | ⟨ws, ws', ws'', msg, tail, haround, -, -, hline, hfixed⟩
  · rw [heq]
    exact ⟨rfl, fun _ => rfl⟩
  · rw [hfixed, hline]
    exact ⟨(face_errorLine haround).1.trans (face_errorLine haround).1.symm,
      fun _ => (face_errorLine haround).2.trans (face_errorLine haround).2.symm⟩

theorem sameFace_live (h : live line = true) (h' : live line' = true) : SameFace line line' :=
  ⟨(face_of_live h').1.trans (face_of_live h).1.symm, fun _ => (face_of_live h').2.trans (face_of_live h).2.symm⟩

/-- A line with an id is no directive, as the one without. -/
theorem sameFace_written (hsilent : (search tracePattern line).isSome → (statementOf line).isSome)
    (hline : OneLine line) (hname : IsName name) (hwritten : Written name line line') : SameFace line line' := by
  cases hfound : search tracePattern line with
  | none =>
    rw [hwritten.eq_of_none hfound]
    exact ⟨rfl, fun _ => rfl⟩
  | some found =>
    have hstatement := hsilent (by rw [hfound]; rfl)
    obtain ⟨s, hs⟩ := Option.isSome_iff_exists.mp hstatement
    obtain ⟨id, rfl⟩ := hwritten.restate_eq hline hs
    exact sameFace_live (live_of_statement hstatement) (live_of_statement (by
      rw [statementOf_restate hs hname.word]
      rfl))

theorem unseen_of_live {first last : Text} (hfirst : lines.head? = some first) (hlast : lines.getLast? = some last)
    (hlive : live first = true) (hlive' : live last = true) : Unseen lines := by
  constructor
  · obtain ⟨rest, rfl⟩ := List.head?_eq_some_iff.mp hfirst
    rw [faces_cons (face_of_live hlive).1, (face_of_live hlive).2]
    rfl
  · obtain ⟨rest, rfl⟩ := List.getLast?_eq_some_iff.mp hlast
    rw [faces_append, faces_cons (face_of_live hlive').1, (face_of_live hlive').2]
    exact List.getLast?_concat

theorem unseen_redeclared (expected : LineEnding) (name : Text) (found decl : List Text) :
    Unseen (redeclared expected name found decl) := by
  have hlive : ∀ line ∈ redeclared expected name found decl, live line = true :=
    fun line hline => (isMacro_redeclared line hline).live
  have hne : redeclared expected name found decl ≠ [] := by
    rw [redeclared]
    split
    · exact List.cons_ne_nil _ _
    · exact List.cons_ne_nil _ _
  exact unseen_of_live (List.head?_eq_some_head hne) (List.getLast?_eq_some_getLast hne)
    (hlive _ (List.head_mem hne)) (hlive _ (List.getLast_mem hne))

/-- A declaration begins and ends with lines of its own. -/
theorem unseen_declaration (hclosed : (reading lines).Closed) (hdecl : (reading lines).declaration = some (name, decl)) :
    Unseen decl := by
  obtain ⟨-, ⟨hnone, -, -⟩ | ⟨name', first, more, hsome, -, hkind⟩⟩ := reading_spec lines
  · rw [hnone] at hdecl
    cases hdecl
  rw [hsome] at hdecl
  cases hdecl
  rcases hkind with ⟨hdeclare, rfl⟩ | ⟨-, hbegin, hlength⟩
  · have hlive := live_of_not_inert (not_inert_of_declaration (.inl (by rw [hdeclare]; rfl)))
    exact unseen_of_live rfl rfl hlive hlive
  · obtain ⟨inner, last, rfl, -, hlast⟩ := hclosed.block_last hsome (by rw [hbegin]; rfl) hlength
    exact unseen_of_live rfl (by rw [← List.cons_append, List.getLast?_concat])
      (live_of_not_inert (not_inert_of_declaration (.inr (.inl (by rw [hbegin]; rfl)))))
      (live_of_not_inert (not_inert_of_declaration (.inr (.inr hlast))))

/-! ## Ends of preambles -/

theorem quote_not_mem_preambleEnd : '"' ∉ preambleEnd := by decide

theorem endsPreamble_iff : endsPreamble line = true ↔ preambleEnd <:+: line := decide_eq_true_iff

theorem endsPreamble_of_fixError (h : endsPreamble (fixError line) = true) : endsPreamble line = true := by
  rcases fixError_spec line with heq | ⟨ws, ws', ws'', msg, tail, -, -, -, hline, hfixed⟩
  · rwa [heq] at h
  · have hsplit : ∀ msg, errorLine ws ws' ws'' msg tail =
        (ws ++ '#' :: (ws' ++ ("error".toList ++ ws''))) ++ (msg ++ tail) := by
      intro msg
      simp only [errorLine, List.append_assoc, List.cons_append]
    rw [endsPreamble_iff] at h ⊢
    rw [hfixed, hsplit] at h
    rw [hline, hsplit]
    exact infix_of_quoted quote_not_mem_preambleEnd h

/-- A line that gets quotes ends no comment. -/
theorem Quotable.endsPreamble_eq (h : Quotable expected x) (hline : IsLine expected x.2) :
    endsPreamble (fixError x.2) = endsPreamble x.2 := by
  rcases h.cases hline with heq | ⟨front, msg, t, -, -, -, hunquoted, -⟩
  · rw [heq]
  have hnone : endsPreamble x.2 = false := by
    rw [← Bool.not_eq_true, endsPreamble_iff]
    exact fun hends => hunquoted.closes ((show ['*', '/'] <:+: preambleEnd from
      ⟨"-----".toList, [], by decide⟩).trans hends)
  rw [hnone]
  by_contra hends
  rw [endsPreamble_of_fixError (by simpa using hends)] at hnone
  cases hnone

theorem star_not_mem_argsText (hname : IsName name) (id : Nat) : '*' ∉ argsText name id := by
  intro hmem
  rw [argsText, List.mem_append, List.mem_append, List.mem_append] at hmem
  rcases hmem with ((hmem | hmem) | hmem) | hmem
  · exact absurd (hname.word _ hmem) (by decide)
  · exact absurd hmem (by decide)
  · exact absurd (Nat.isDigit_of_mem_toDigits (by omega) (by omega) hmem) (by decide)
  · exact absurd hmem (by decide)

/-- A line with an id ends a preamble only if it did. -/
theorem endsPreamble_of_written (hname : IsName name) (hwritten : Written name line line')
    (h : endsPreamble line' = true) : endsPreamble line = true := by
  cases hwritten with
  | same => exact h
  | @rewritten before ws args msg tail id _ hfound =>
    rw [endsPreamble_iff] at h ⊢
    have hsplit : rewritten name id before msg tail =
        (before ++ keyword) ++ '(' :: (argsText name id ++ '"' :: (msg ++ '"' :: tail)) := by
      rw [rewritten, List.append_assoc]
    have hfront : line = (before ++ keyword) ++ (ws ++ '(' :: (args ++ '"' :: (msg ++ '"' :: tail))) := by
      rw [hfound.eq, List.append_assoc]
    have hback : line = (before ++ (keyword ++ (ws ++ '(' :: (args ++ ['"'])))) ++ (msg ++ '"' :: tail) := by
      rw [hfound.eq]
      simp only [List.append_assoc, List.cons_append, List.nil_append]
    rw [hsplit] at h
    rcases infix_of_not_mem (by decide) h with hleft | hright
    · rw [hfront]
      exact hleft.trans (List.prefix_append _ _).isInfix
    · rcases infix_of_not_mem quote_not_mem_preambleEnd hright with hargs | hmsg
      · exact absurd (hargs.subset (by decide)) (star_not_mem_argsText hname id)
      · rw [hback]
        exact hmsg.trans (List.suffix_append _ _).isInfix

theorem star_not_mem_written {word close : Text} (hword : '*' ∉ word) (hname : IsName name) (hclose : '*' ∉ close)
    (n : Nat) : '*' ∉ word ++ '(' :: (name ++ ',' :: (' ' :: (decimal n ++ (close ++ expected.text)))) := by
  simp only [List.mem_append, List.mem_cons, not_or]
  exact ⟨hword, by decide, fun hmem => absurd (hname.word _ hmem) (by decide), by decide, by decide,
    fun hmem => absurd (Nat.isDigit_of_mem_toDigits (by omega) (by omega) hmem) (by decide), hclose, star_not_mem_ending⟩

/-- Of the lines of a declaration only an entry ends a preamble, and only if its message does. -/
theorem endsPreamble_declaration (expected : LineEnding) (hname : IsName name) (n : Nat) :
    endsPreamble (declareText expected name n) = false ∧ endsPreamble (beginText expected name n) = false ∧
      endsPreamble (endText expected name n) = false := by
  rw [declareText_eq, beginText_eq, endText_eq]
  exact ⟨endsPreamble_of_not_mem (star_not_mem_written (by decide) hname (by decide) n),
    endsPreamble_of_not_mem (star_not_mem_written (by decide) hname (by decide) n),
    endsPreamble_of_not_mem (star_not_mem_written (by decide) hname (by decide) n)⟩

theorem endsPreamble_of_entry (h : endsPreamble (entryText expected desc) = true) : endsPreamble desc = true := by
  rw [endsPreamble_iff] at h ⊢
  obtain ⟨front, hfront, hstar⟩ : ∃ front, "TURF_TRACE_DEFINE(\"".toList = front ++ ['"'] ∧ '*' ∉ front :=
    ⟨"TURF_TRACE_DEFINE(".toList, by decide, by decide⟩
  have hclose : "\")".toList = ['"', ')'] := by decide
  have hline := @entryText_eq expected desc
  rw [hfront, hclose, List.append_assoc] at hline
  rw [hline] at h
  have hmem : '*' ∈ preambleEnd := by decide
  rcases infix_of_not_mem quote_not_mem_preambleEnd h with hleft | hright
  · exact absurd (hleft.subset hmem) hstar
  · rcases infix_of_not_mem quote_not_mem_preambleEnd hright with hdesc | hend
    · exact hdesc
    · have hstar' := hend.subset hmem
      rcases List.mem_cons.mp hstar' with hparen | hending
      · cases hparen
      · exact absurd hending star_not_mem_ending

/-! ## New blocks in place of old ones -/

namespace Reading

/-- The lines with as many in place of the declaration as the tool writes: a block has an entry for each
message. -/
def renewal (messages : List Text) (r : Reading) : List Text :=
  r.before ++ ((match r.declaration with
    | none => []
    | some (_, decl) => if IsBlock decl then [] :: (messages ++ [[]]) else [[]]) ++ r.after)

end Reading

/-- With these messages none of the first lines ends a preamble. -/
def Fits (n : Nat) (messages lines : List Text) : Prop :=
  ∀ line ∈ ((reading lines).renewal messages).take n, endsPreamble line = false

instance (n : Nat) (messages lines : List Text) : Decidable (Fits n messages lines) :=
  inferInstanceAs (Decidable (∀ _ ∈ _, _ = false))

/-- The preamble of the header is in front of its declaration, and no comment and no continued line reaches
over the cuts of the guard check. Without a preamble none is there when the entries are written. -/
structure Headed (guard : Text) (messages lines : List Text) : Prop where
  front : preamble lines ≤ (reading lines).before.length
  kept : Accepts guard (lines.drop (preamble lines)) → preamble lines = 0 → Fits 25 messages lines
  cut : ¬ Accepts guard (lines.drop (preamble lines)) → ∃ top first inner bottom,
    Cut lines top first inner bottom ∧ Clear lines top (first :: inner) bottom ∧
      (preamble lines = 0 → Fits 22 messages (first :: inner))

theorem undeclared_of_inert (h : ∀ line ∈ lines, Inert line) :
    ∀ line ∈ lines, declareLine line = none ∧ beginLine line = none :=
  fun line hline => ⟨(h line hline).no_declare, (h line hline).no_begin⟩

/-- Directives and blank lines at the end are read with the lines behind the declaration. -/
theorem reading_append_inert (hback : ∀ line ∈ back, Inert line) :
    (reading lines).declaration = none ∧ reading (lines ++ back) = ⟨lines ++ back, none, []⟩ ∨
      ∃ d, (reading lines).declaration = some d ∧
        reading (lines ++ back) = ⟨(reading lines).before, some d, (reading lines).after ++ back⟩ := by
  obtain ⟨hbefore, ⟨hnone, heq, -⟩ | ⟨name, first, more, hsome, heq, hkind⟩⟩ := reading_spec lines
  · refine .inl ⟨hnone, reading_none fun line hline => ?_⟩
    rcases List.mem_append.mp hline with hline | hline
    · rw [heq] at hline
      exact hbefore line hline
    · exact undeclared_of_inert hback line hline
  refine .inr ⟨_, hsome, ?_⟩
  have hlines : lines ++ back = (reading lines).before ++ (first :: (more ++ ((reading lines).after ++ back))) := by
    conv_lhs => rw [heq]
    simp only [List.append_assoc, List.cons_append]
  rw [hlines, reading_append hbefore]
  rcases hkind with ⟨hdeclare, rfl⟩ | ⟨hdeclare, hbegin, hlength⟩
  · rw [reading_declare hdeclare, List.append_nil, List.nil_append]
  · have hblock : blockLength (more ++ ((reading lines).after ++ back)) = more.length := by
      rw [hlength, ← List.append_assoc, blockLength, blockLength, List.findIdx?_append,
        List.findIdx?_eq_none_iff.mpr fun line hline => (hback line hline).no_end]
      cases (more ++ (reading lines).after).findIdx? isEnd with
      | none => rfl
      | some i => rfl
    rw [reading_begin hdeclare hbegin, hblock, List.take_left, List.drop_left, List.append_nil]

theorem renewal_append_inert (hback : ∀ line ∈ back, Inert line) :
    (reading (lines ++ back)).renewal messages = (reading lines).renewal messages ++ back := by
  rcases reading_append_inert hback with ⟨hnone, hread⟩ | ⟨d, hsome, hread⟩
  · rw [hread, Reading.renewal, Reading.renewal, hnone, (reading_of_none hnone).1, (reading_of_none hnone).2]
    simp
  · rw [hread, Reading.renewal, Reading.renewal, hsome]
    simp only [List.append_assoc]

theorem renewal_front (hfront : ∀ line ∈ front, declareLine line = none ∧ beginLine line = none) :
    (reading (front ++ lines)).renewal messages = front ++ (reading lines).renewal messages := by
  rw [reading_append hfront, Reading.renewal, Reading.renewal, List.append_assoc]

/-- In front of the body there are three new lines. -/
theorem fits_guarded {guard : GuardName} (h : Fits 22 messages lines) :
    Fits 25 messages (guarded expected guard.text lines) := by
  obtain ⟨hifndef, hdefine, hending, hendif⟩ := added_new expected guard
  obtain ⟨hifndef', hdefine', hending', hendif'⟩ := not_endsPreamble expected guard
  have htop : ∀ line ∈ [ifndefLine expected guard.text, defineLine expected guard.text, expected.text],
      declareLine line = none ∧ beginLine line = none :=
    undeclared_of_inert (List.forall_mem_cons.mpr ⟨hifndef.inert, List.forall_mem_cons.mpr
      ⟨hdefine.inert, List.forall_mem_singleton.mpr hending.inert⟩⟩)
  have hbottom : ∀ line ∈ [expected.text, endifGuardLine expected guard.text], Inert line :=
    List.forall_mem_cons.mpr ⟨hending.inert, List.forall_mem_singleton.mpr hendif.inert⟩
  intro line hline
  rw [guarded, List.append_assoc, renewal_front htop, renewal_append_inert hbottom, List.take_append] at hline
  rcases List.mem_append.mp hline with hline | hline
  · have hmem := List.mem_of_mem_take hline
    simp only [List.mem_cons, List.not_mem_nil, or_false] at hmem
    rcases hmem with rfl | rfl | rfl
    · exact hifndef'
    · exact hdefine'
    · exact hending'
  · rw [List.take_append] at hline
    rcases List.mem_append.mp hline with hline | hline
    · exact h line hline
    · have hmem := List.mem_of_mem_take hline
      simp only [List.mem_cons, List.not_mem_nil, or_false] at hmem
      rcases hmem with rfl | rfl
      · exact hending'
      · exact hendif'

/-! ## The check of the next run -/

variable {guard : GuardName} {n : Nat}

/-- The lines up to the declaration declare nothing. -/
theorem undeclared_take (h : n ≤ (reading lines).before.length) : (lines.take n).length = n ∧
    ∀ line ∈ lines.take n, declareLine line = none ∧ beginLine line = none := by
  have htake : lines.take n = (reading lines).before.take n := by
    conv_rhs => rw [← take_before lines, List.take_take, Nat.min_eq_left h]
  rw [htake]
  exact ⟨List.length_take_of_le h, fun line hline => (reading_spec lines).1 line (List.mem_of_mem_take hline)⟩

/-- The guard is written, the lines of the preamble stay, and the check accepts what is behind them. -/
theorem Headed.fixed (h : Headed guard.text messages lines) (expected : LineEnding) : ∃ fixed, fixGuards expected guard.text lines = some fixed ∧
    Respaced .code lines fixed ∧ fixed.take (preamble lines) = lines.take (preamble lines) ∧
      preamble lines ≤ (reading fixed).before.length ∧ Accepts guard.text (fixed.drop (preamble lines)) ∧
        (preamble lines = 0 → Fits 25 messages fixed) := by
  by_cases haccepts : Accepts guard.text (lines.drop (preamble lines))
  · exact ⟨lines, fixGuards_of_accepts haccepts, .refl _ _, rfl, h.front, haccepts, h.kept haccepts⟩
  obtain ⟨top, first, inner, bottom, hcut, hclear, hfits⟩ := h.cut haccepts
  obtain ⟨got, hrun, hstop⟩ := hcut.stops
  obtain ⟨hlength, hfront⟩ := undeclared_take h.front
  refine ⟨lines.take (preamble lines) ++ guarded expected guard.text (first :: inner), ?_, hcut.respaced hclear, ?_, ?_, ?_, ?_⟩
  · exact (fixGuards_of_not haccepts).mpr ⟨top, first, inner, bottom, got, hcut.eq, hrun,
      ⟨hcut.first_nonblank, hstop⟩, hcut.ends, rfl⟩
  · exact List.take_left' hlength
  · rw [reading_append hfront, List.length_append, hlength]
    exact Nat.le_add_right _ _
  · rw [List.drop_left' hlength]
    exact .inl (hasGuard_guarded hcut.first_nonblank)
  · intro hzero
    rw [hzero, List.take_zero, List.nil_append]
    exact fits_guarded (hfits hzero)

/-- Line for line the written lines end a preamble only if those they come from do. -/
def EndsLess (line line' : Text) : Prop := endsPreamble line' = true → endsPreamble line = true

theorem forall_endsLess (h : List.Forall₂ EndsLess lines lines') (hnone : ∀ line ∈ lines, endsPreamble line = false) :
    ∀ line ∈ lines', endsPreamble line = false := by
  induction h with
  | nil => exact List.forall_mem_nil _
  | @cons line line' lines lines' hline _ ih =>
    obtain ⟨hfirst, hrest⟩ := List.forall_mem_cons.mp hnone
    refine List.forall_mem_cons.mpr ⟨?_, ih hrest⟩
    by_contra hends
    rw [hline (by simpa using hends)] at hfirst
    cases hfirst

theorem endsLess_fixError (lines : List Text) : List.Forall₂ EndsLess lines (lines.map fixError) := by
  rw [List.forall₂_map_right_iff, List.forall₂_same]
  exact fun line _ => endsPreamble_of_fixError

theorem endsLess_redeclared {found : List Text} (hname : IsName name) (hfound : List.Forall₂ EndsLess messages found)
    (decl : List Text) : List.Forall₂ EndsLess (if Reading.IsBlock decl then [] :: (messages ++ [[]]) else [[]])
      (redeclared expected name found decl) := by
  obtain ⟨hdeclare, hbegin, hend⟩ := endsPreamble_declaration expected hname found.length
  have hnone : ∀ {line line' : Text}, endsPreamble line' = false → EndsLess line line' := by
    intro line line' h hends
    rw [h] at hends
    cases hends
  rw [redeclared]
  split
  · rw [List.cons_append]
    refine .cons (hnone hbegin) (List.rel_append ?_ (.cons (hnone hend) .nil))
    rw [List.forall₂_map_right_iff]
    exact hfound.imp fun msg desc hless hends => hless (endsPreamble_of_entry hends)
  · exact .cons (hnone hdeclare) .nil

theorem renewal_written
    (hfound : ∀ d, (reading lines).declaration = some d → List.Forall₂ EndsLess messages (orig.messages d.1)) :
    List.Forall₂ EndsLess ((reading lines).renewal messages) (renewed expected orig log (lines.map fixError)) := by
  have hread := reading_map fun line (_ : line ∈ lines) => alike_fixError line
  cases hdecl : (reading lines).declaration with
  | none =>
    rw [renewed_none (by rw [hread, hdecl]; rfl), Reading.renewal, hdecl, (reading_of_none hdecl).1, (reading_of_none hdecl).2]
    simpa using endsLess_fixError lines
  | some d =>
    obtain ⟨name, decl⟩ := d
    have hname := isName_of_reading hdecl
    have hdecl' : (reading (lines.map fixError)).declaration = some (name, decl.map fixError) := by
      rw [hread, hdecl]
      rfl
    have hblock : Reading.IsBlock (decl.map fixError) ↔ Reading.IsBlock decl := by
      rw [Reading.IsBlock, Reading.IsBlock, List.length_map]
    rw [renewed_some hdecl', hread, Reading.renewal, hdecl]
    refine List.rel_append (endsLess_fixError _) (List.rel_append ?_ ?_)
    · have hnew : List.Forall₂ EndsLess _ (redeclared expected name (orig.messages name) (decl.map fixError)) :=
        endsLess_redeclared hname (hfound _ hdecl) (decl.map fixError)
      rwa [if_congr hblock rfl rfl] at hnew
    · have hwritten := assign_forall₂ expected orig name (log.messages name).length ((reading lines).after.map fixError)
      rw [List.forall₂_map_left_iff] at hwritten
      exact hwritten.imp fun line line' hline hends =>
        endsPreamble_of_fixError (endsPreamble_of_written hname hline hends)

/-- The check accepts the written lines as it does those they come from. -/
theorem accepts_renewed (hclosed : (reading lines).Closed) (hsilent : Silent (reading lines).after)
    (hlines : ∀ line ∈ lines, OneLine line) (h : Accepts guard.text (lines.drop n))
    (hn : n ≤ (reading lines).before.length) : Accepts guard.text ((renewed expected orig log lines).drop n) := by
  obtain ⟨-, ⟨hnone, -, -⟩ | ⟨name, first, more, hdecl, heq, -⟩⟩ := reading_spec lines
  · rwa [renewed_none hnone]
  have hname := isName_of_reading hdecl
  rw [renewed_some hdecl, List.drop_append_of_le_length hn]
  rw [heq, List.drop_append_of_le_length hn] at h
  have hback : List.Forall₂ SameFace (reading lines).after ((Pass.second expected orig).assign name
      (log.messages name).length (reading lines).after) := by
    have hwritten := assign_forall₂ expected orig name (log.messages name).length (reading lines).after
    rw [List.forall₂_iff_get] at hwritten ⊢
    refine ⟨hwritten.1, fun i hi hi' => ?_⟩
    have hmem : (reading lines).after.get ⟨i, hi⟩ ∈ (reading lines).after := List.get_mem ..
    exact sameFace_written (hsilent _ hmem) (hlines _ (mem_lines_of_reading.2.2 _ hmem)) hname (hwritten.2 i hi hi')
  have hfaces := faces_congr hback
  have hreplaced := h.replaced (unseen_declaration hclosed hdecl)
    (unseen_redeclared expected name (orig.messages name) (first :: more))
  refine hreplaced.of_faces ?_
  rw [faces_append, faces_append, faces_append, faces_append, hfaces]

theorem preamble_eq_zero (h : ∀ line ∈ lines.take 25, endsPreamble line = false) : preamble lines = 0 := by
  rw [preamble, List.findIdx?_eq_none_iff.mpr h]

/-- A preamble that was found is found again in lines that end one as the old ones do. -/
theorem preamble_fixed {i : Nat} (hpre : preamble lines = i + 2) (hfixed : ∀ line ∈ lines.take (i + 2),
      endsPreamble (fixError line) = endsPreamble line) (rest : List Text) :
    preamble ((lines.take (i + 2)).map fixError ++ rest) = i + 2 := by
  obtain ⟨hfind, hi⟩ := preamble_eq_add_two.mp hpre
  have hguard : Option.guard (fun j => decide (j < i + 2)) i = some i :=
    Option.guard_eq_some_iff.mpr ⟨rfl, decide_eq_true (by omega)⟩
  refine preamble_eq_add_two.mpr ⟨?_, hi⟩
  have hfound : (lines.take (i + 2)).findIdx? (endsPreamble ∘ fixError) = (lines.take (i + 2)).findIdx? endsPreamble :=
    findIdx?_congr hfixed
  rw [List.findIdx?_append, List.findIdx?_map, hfound, List.findIdx?_take, hfind, Option.bind_some, hguard,
    Option.some_or]

/-- The guard of a header with its ids and its messages is left as it is. -/
theorem Headed.again {fixed : List Text} (h : Headed guard.text messages lines)
    (hfixed : fixGuards expected guard.text lines = some fixed) (hclosed : (reading (fixed.map fixError)).Closed)
    (hsilent : Silent (reading (fixed.map fixError)).after) (hlines : ∀ line ∈ fixed.map fixError, OneLine line)
    (hends : ∀ line ∈ lines, endsPreamble (fixError line) = endsPreamble line)
    (hfound : ∀ d, (reading fixed).declaration = some d → List.Forall₂ EndsLess messages (orig.messages d.1)) :
    fixGuards expected guard.text (renewed expected orig log (fixed.map fixError)) =
      some (renewed expected orig log (fixed.map fixError)) := by
  obtain ⟨fixed', hfixed', -, htake, hfront, haccepts, hfits⟩ := h.fixed expected
  obtain rfl : fixed' = fixed := Option.some.inj (hfixed'.symm.trans hfixed)
  have hread := reading_map fun line (_ : line ∈ fixed') => alike_fixError line
  have hfront' : preamble lines ≤ (reading (fixed'.map fixError)).before.length := by
    rw [hread, List.length_map]
    exact hfront
  have hfaces : Accepts guard.text ((fixed'.map fixError).drop (preamble lines)) := by
    rw [← List.map_drop]
    refine haccepts.of_faces (faces_congr ?_)
    rw [List.forall₂_map_right_iff, List.forall₂_same]
    exact fun line _ => sameFace_fixError line
  have hwritten : Accepts guard.text ((renewed expected orig log (fixed'.map fixError)).drop (preamble lines)) :=
    accepts_renewed hclosed hsilent hlines hfaces hfront'
  have hpreamble : preamble (renewed expected orig log (fixed'.map fixError)) = preamble lines := by
    rcases preamble_cases lines with hzero | ⟨i, hpre⟩
    · rw [hzero]
      exact preamble_eq_zero (forall_endsLess (List.forall₂_take 25 (renewal_written hfound)) (hfits hzero))
    · obtain ⟨rest, hrest⟩ : ∃ rest, renewed expected orig log (fixed'.map fixError) =
          (lines.take (i + 2)).map fixError ++ rest := by
        rw [hpre] at htake hfront'
        have hkept : (reading (fixed'.map fixError)).before.take (i + 2) = (lines.take (i + 2)).map fixError := by
          rw [← htake, List.map_take, ← take_before (fixed'.map fixError), List.take_take, Nat.min_eq_left hfront']
        have hbefore := List.take_append_drop (i + 2) (reading (fixed'.map fixError)).before
        rw [hkept] at hbefore
        cases hdecl : (reading (fixed'.map fixError)).declaration with
        | none =>
          rw [renewed_none hdecl]
          refine ⟨(reading (fixed'.map fixError)).before.drop (i + 2), ?_⟩
          rw [hbefore, (reading_of_none hdecl).1]
        | some d =>
          obtain ⟨name, decl⟩ := d
          have hsome : renewed expected orig log (fixed'.map fixError) = _ := renewed_some hdecl
          rw [← hbefore, List.append_assoc] at hsome
          exact ⟨_, hsome⟩
      rw [hrest, hpre]
      exact preamble_fixed hpre (fun line hline => hends line (List.mem_of_mem_take hline)) rest
  exact fixGuards_of_accepts (by rw [hpreamble]; exact hwritten)

end Turf.Tidy
