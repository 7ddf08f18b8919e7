import Mathlib.Data.List.Induction
import Turf.Tidy.Model

/-!
# Lines and their endings

Every line of the second pass is a content followed by the expected ending. A file that consists
of such lines is read as them again, and its line endings stay as they are.
-/
namespace Turf.Tidy

open Turf.Lib.Pattern

variable {expected : Ending} {content r line file : Text} {lines : List Text}

theorem isReturn_space {c : Char} (h : isReturn c) : isSpace c := by
  rcases Bool.or_eq_true _ _ ▸ h with h | h
  · rw [eq_of_beq h]; rfl
  · rw [eq_of_beq h]; rfl

theorem ending_return {ending : Ending} : ∀ c ∈ ending.text, isReturn c := ending.all_return

theorem ending_space {ending : Ending} : ∀ c ∈ ending.text, isSpace c :=
  fun c hc => isReturn_space (ending_return c hc)

/-- What stands before the ending of a line. -/
structure IsContent (content : Text) : Prop where
  no_feed : '\n' ∉ content
  last : ∀ c, content.getLast? = some c → isReturn c = false

/-- A line of the second pass. -/
def IsLine (expected : Ending) (line : Text) : Prop :=
  ∃ content : Text, IsContent content ∧ line = content ++ expected.text

def Ending.none : Ending := ⟨[], fun _ h => by cases h⟩

theorem isContent_nil : IsContent [] := ⟨List.not_mem_nil, fun _ h => by cases h⟩

theorem isLine_ending : IsLine expected expected.text := ⟨[], isContent_nil, rfl⟩

/-! ## Reading -/

theorem readlines_line (h : '\n' ∉ content) (file : Text) :
    readlines (content ++ '\n' :: file) = (content ++ ['\n']) :: readlines file := by
  induction content with
  | nil => rfl
  | cons c content ih =>
    rw [List.mem_cons, not_or] at h
    rw [List.cons_append, readlines, if_neg (Ne.symm h.1), ih h.2]
    rfl

theorem readlines_flatten {expected : LineEnding} (h : ∀ line ∈ lines, IsLine expected line) :
    readlines lines.flatten = lines := by
  induction lines with
  | nil => rfl
  | cons line lines ih =>
    obtain ⟨hline, hlines⟩ := List.forall_mem_cons.mp h
    obtain ⟨content, hcontent, rfl⟩ := hline
    have hfeed : '\n' ∉ content ++ List.replicate expected.returns '\r' := by
      intro hmem
      rcases List.mem_append.mp hmem with hmem | hmem
      · exact hcontent.no_feed hmem
      · cases List.eq_of_mem_replicate hmem
    have hread := readlines_line hfeed lines.flatten
    rw [ih hlines] at hread
    rw [List.flatten_cons, expected.text_eq]
    simpa using hread

/-- In a line that was read, a line feed is only at the end. -/
theorem feed_of_mem_readlines (h : line ∈ readlines file) :
    ∃ before : Text, '\n' ∉ before ∧ (line = before ∨ line = before ++ ['\n']) := by
  induction file generalizing line with
  | nil => cases h
  | cons c file ih =>
    rw [readlines] at h
    split at h
    · next hc =>
      subst hc
      rcases List.mem_cons.mp h with rfl | h
      · exact ⟨[], List.not_mem_nil, .inr rfl⟩
      · exact ih h
    · next hc =>
      split at h
      · rw [List.mem_singleton.mp h]
        exact ⟨[c], by simpa using Ne.symm hc, .inl rfl⟩
      · next first lines hread =>
        rcases List.mem_cons.mp h with rfl | h
        · obtain ⟨before, hfeed, hfirst⟩ := ih (by rw [hread]; exact List.mem_cons_self ..)
          refine ⟨c :: before, by simp [hfeed, Ne.symm hc], ?_⟩
          rcases hfirst with rfl | rfl
          · exact .inl rfl
          · exact .inr rfl
        · exact ih (by rw [hread]; exact List.mem_cons_of_mem _ h)

theorem exists_content (text : Text) : ∃ content r : Text, text = content ++ r ∧
    (∀ c, content.getLast? = some c → isReturn c = false) ∧ ∀ c ∈ r, isReturn c := by
  induction text using List.reverseRecOn with
  | nil => exact ⟨[], [], rfl, fun _ h => (by cases h), fun _ h => (by cases h)⟩
  | append_singleton text c ih =>
    by_cases hc : isReturn c
    · obtain ⟨content, r, rfl, hlast, hr⟩ := ih
      refine ⟨content, r ++ [c], List.append_assoc .., hlast, fun d hd => ?_⟩
      rcases List.mem_append.mp hd with hd | hd
      · exact hr d hd
      · rwa [List.mem_singleton.mp hd]
    · refine ⟨text ++ [c], [], (List.append_nil _).symm, fun d hd => ?_, fun _ h => (by cases h)⟩
      rw [List.getLast?_concat] at hd
      cases hd
      simpa using hc

/-- A line that was read has a content and an ending. -/
theorem content_of_mem_readlines (h : line ∈ readlines file) :
    ∃ content r : Text, IsContent content ∧ (∀ c ∈ r, isReturn c) ∧ line = content ++ r := by
  obtain ⟨before, hfeed, hline⟩ := feed_of_mem_readlines h
  obtain ⟨content, r, rfl, hlast, hr⟩ := exists_content before
  have hcontent : IsContent content := ⟨fun hmem => hfeed (List.mem_append_left _ hmem), hlast⟩
  rcases hline with rfl | rfl
  · exact ⟨content, r, hcontent, hr, rfl⟩
  · refine ⟨content, r ++ ['\n'], hcontent, fun c hc => ?_, List.append_assoc ..⟩
    rcases List.mem_append.mp hc with hc | hc
    · exact hr c hc
    · rw [List.mem_singleton.mp hc]; rfl

/-! ## Line endings -/

theorem search_lineEnding (hcontent : IsContent content) (hr : ∀ c ∈ r, isReturn c) :
    search lineEndingPattern (content ++ r) = some (content, [r, []]) := by
  have hend : matchItems lineEndingPattern r = some [r, []] := by
    rw [lineEndingPattern, matchItems_rest rfl, if_pos (List.all_eq_true.mpr hr)]
  apply search_append hend
  intro a₁ a₂ heq hne
  obtain ⟨front, c, rfl⟩ := (List.eq_nil_or_concat a₂).resolve_left hne
  have hc : isReturn c = false := hcontent.last c (by rw [heq]; simp)
  rw [lineEndingPattern, matchItems_rest rfl, if_neg]
  intro hall
  have hreturn := List.all_eq_true.mp hall c (by simp)
  rw [hc] at hreturn
  cases hreturn

theorem fixLineEnding_append (hcontent : IsContent content) (hr : ∀ c ∈ r, isReturn c) :
    fixLineEnding expected (content ++ r) = content ++ expected.text := by
  rw [fixLineEnding, search_lineEnding hcontent hr]

theorem fixLineEnding_of_isLine (h : IsLine expected line) : fixLineEnding expected line = line := by
  obtain ⟨content, hcontent, rfl⟩ := h
  exact fixLineEnding_append hcontent ending_return

theorem isLine_fixLineEnding (h : line ∈ readlines file) :
    IsLine expected (fixLineEnding expected line) := by
  obtain ⟨content, r, hcontent, hr, rfl⟩ := content_of_mem_readlines h
  exact ⟨content, hcontent, fixLineEnding_append hcontent hr⟩

theorem isLine_of_mem_fixLineEndings (h : line ∈ fixLineEndings expected file) :
    IsLine expected line := by
  obtain ⟨line, hmem, rfl⟩ := List.mem_map.mp h
  exact isLine_fixLineEnding hmem

/-- A file that the tool has written is read as the lines it was written from. -/
theorem fixLineEndings_flatten {expected : LineEnding} (h : ∀ line ∈ lines, IsLine expected line) :
    fixLineEndings expected lines.flatten = lines := by
  rw [fixLineEndings, readlines_flatten h]
  exact (List.map_congr_left fun line hline => fixLineEnding_of_isLine (h line hline)).trans
    (List.map_id' lines)

end Turf.Tidy
