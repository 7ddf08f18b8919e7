import Mathlib.Data.Finset.Max
import Turf.Tidy.Lines
import Turf.Tidy.Sweeper

/-!
# The expected ending

There is always an ending that can be expected, or none, and files whose lines all end alike elect that
ending.
-/
namespace Turf.Tidy

open Turf.Lib.Pattern

variable {line text : Text} {file : SourceFile} {files : List SourceFile} {expected : LineEnding}
  {option : EndingOption}

theorem endingOf_append {content r : Text} (hcontent : IsContent content) (hr : ∀ c ∈ r, isReturn c) :
    endingOf (content ++ r) = r := by
  rw [endingOf, search_lineEnding hcontent hr]
  rfl

theorem endingOf_isLine (h : IsLine expected line) : endingOf line = (expected : Ending).text := by
  obtain ⟨content, hcontent, rfl⟩ := h
  exact endingOf_append hcontent ending_return

theorem ending_ne_nil : (expected : Ending).text ≠ [] := by
  rw [expected.text_eq]
  simp

theorem return_of_mem_lineEndings (h : text ∈ lineEndings file) : ∀ c ∈ text, isReturn c := by
  obtain ⟨line, hline, rfl⟩ := List.mem_map.mp (List.mem_of_mem_filter h)
  obtain ⟨content, r, hcontent, hr, rfl⟩ := content_of_mem_readlines hline
  rw [endingOf_append hcontent hr]
  exact hr

/-- Something is expected, if only that there is no ending. -/
theorem exists_expects (files : List SourceFile) (option : EndingOption) : ∃ expected, Expects files option expected := by
  cases option with
  | unix => exact ⟨_, .unix⟩
  | windows => exact ⟨_, .windows⟩
  | autodetect =>
    by_cases hnone : ∀ file ∈ files, lineEndings file = []
    · exact ⟨none, .nothing hnone⟩
    obtain ⟨text, htext⟩ : ∃ text, text ∈ files.flatMap lineEndings := by
      rw [← List.flatMap_eq_nil_iff] at hnone
      exact List.exists_mem_of_ne_nil _ hnone
    obtain ⟨ending, hmem, hlargest⟩ := (files.flatMap lineEndings).toFinset.exists_max_image
      (fun ending => groupSize ending files) ⟨text, List.mem_toFinset.mpr htext⟩
    obtain ⟨file, hfile, hending⟩ := List.mem_flatMap.mp (List.mem_toFinset.mp hmem)
    refine ⟨some ⟨ending, return_of_mem_lineEndings hending⟩, .largest ⟨file, hfile, hending⟩ fun other => ?_⟩
    by_cases hother : other ∈ files.flatMap lineEndings
    · exact hlargest other (List.mem_toFinset.mpr hother)
    · -- An ending that no line has is in no group.
      have hzero : groupSize other files = 0 := by
        rw [groupSize, List.countP_eq_zero]
        intro file hfile hin
        exact hother (List.mem_flatMap.mpr ⟨file, hfile, List.contains_iff_mem.mp hin⟩)
      rw [hzero]
      exact Nat.zero_le _

theorem lineEndings_isLine (h : ∀ line ∈ readlines file.text, IsLine expected line) (hmem : text ∈ lineEndings file) :
    text = (expected : Ending).text := by
  obtain ⟨line, hline, rfl⟩ := List.mem_map.mp (List.mem_of_mem_filter hmem)
  exact endingOf_isLine (h line hline)

/-- Where all lines have the ending that was expected, it is expected again. -/
theorem expects_again {out : List SourceFile} {again : Option Ending} (h : Expects files option (some ↑expected))
    (hlines : ∀ file ∈ out, ∀ line ∈ readlines file.text, IsLine expected line)
    (hsome : (∃ file ∈ files, readlines file.text ≠ []) → ∃ file ∈ out, readlines file.text ≠ [])
    (hagain : Expects out option again) : again = some ↑expected := by
  generalize hexpected : (some ↑expected : Option Ending) = before at h
  cases h with
  | unix =>
    cases hagain
    rfl
  | windows =>
    cases hagain
    rfl
  | @largest ending hmem _ =>
    cases hagain with
    | @largest ending' hmem' _ =>
      obtain ⟨file, hfile, hin⟩ := hmem'
      have htext := lineEndings_isLine (hlines file hfile) hin
      rw [← hexpected]
      cases ending'
      cases htext
      rfl
    | nothing hnone =>
      obtain ⟨file, hfile, hin⟩ := hmem
      have hne : readlines file.text ≠ [] := by
        intro hnil
        rw [lineEndings, hnil] at hin
        cases hin
      obtain ⟨file', hfile', hne'⟩ := hsome ⟨file, hfile, hne⟩
      obtain ⟨line, hline⟩ := List.exists_mem_of_ne_nil _ hne'
      have hin' : (expected : Ending).text ∈ lineEndings file' := by
        refine List.mem_filter.mpr ⟨List.mem_map.mpr ⟨line, hline, endingOf_isLine (hlines file' hfile' line hline)⟩, ?_⟩
        exact decide_eq_true ending_ne_nil
      rw [hnone file' hfile'] at hin'
      cases hin'
  | nothing => cases hexpected

end Turf.Tidy
