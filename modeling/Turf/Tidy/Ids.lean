import Turf.Tidy.Sweeps

/-!
# Ids of all files

The ids and the messages of a category in the files that both passes write.
-/
namespace Turf.Tidy

open Turf.Lib.Pattern
open Turf.Lib.History

variable {line name : Text} {lines decl : List Text} {file : SourceFile} {files front back : List SourceFile}
  {expected : LineEnding} {id : Nat}

/-! ## Written files -/

theorem mem_swept {file' : SourceFile} : file' ∈ swept expected files ↔ ∃ front file back,
    files = front ++ file :: back ∧
      file' = sweptFile expected (logOf (files.map SourceFile.lines)) front file := mem_mapFrom

/-- The lines of a written file. -/
theorem lines_sweptFile (h : prepare expected file ≠ none) (raw : List (List Text)) (front : List SourceFile) :
    (sweptFile expected (logOf raw) front file).lines =
      renewed expected (logOf raw) (logOf (front.map (SourceFile.prepared expected)))
        (file.prepared expected) :=
  readlines_of_feedLines (feedLine_renewed raw _ (feedLine_prepared h))

theorem statements_prepared (h : Prepared expected files) (name : Text) :
    statements name (files.map (SourceFile.prepared expected)) =
      statements name (files.map SourceFile.lines) := by
  rw [statements, statements, List.flatMap_map, List.flatMap_map]
  apply List.flatMap_congr
  intro file hfile
  have hsame := same_prepared (h file hfile)
  rw [hsame.name, hsame.statements]

theorem oneLine_prepared (h : Prepared expected files) (name : Text) :
    ∀ line ∈ behind name (files.map (SourceFile.prepared expected)), OneLine line := by
  apply oneLine_behind
  intro lines hlines
  obtain ⟨file, hfile, rfl⟩ := List.mem_map.mp hlines
  exact fun line hline => (feedLine_prepared (h file hfile) line hline).oneLine

theorem oneLine_raw (files : List SourceFile) (name : Text) :
    ∀ line ∈ behind name (files.map SourceFile.lines), OneLine line := by
  apply oneLine_behind
  intro lines hlines
  obtain ⟨file, -, rfl⟩ := List.mem_map.mp hlines
  exact oneLine_lines file

/-- The lines of a category with their ids. -/
theorem behind_sweptWith (h : Prepared expected files) (raw : List (List Text)) (name : Text) :
    behind name ((sweptWith expected raw files).map SourceFile.lines) =
      (Pass.second expected (logOf raw)).assign name 0
        (behind name (files.map (SourceFile.prepared expected))) := by
  rw [lines_sweptWith h, behind_renewedFiles]
  rfl

/-! ## Messages -/

/-- What is logged is the part of the messages that the tool takes. -/
theorem messages_files (files : List SourceFile)
    (hsilent : ∀ file ∈ files, Silent (reading file.lines).after) (name : Text) :
    (logOf (files.map SourceFile.lines)).messages name =
      (statements name (files.map SourceFile.lines)).map fun s => taken s.literal := by
  have hbehind : Silent (behind name (files.map SourceFile.lines)) := by
    intro line hline
    obtain ⟨lines, hlines, hmem⟩ := List.mem_flatMap.mp hline
    obtain ⟨file, hfile, rfl⟩ := List.mem_map.mp hlines
    split at hmem
    · exact hsilent file hfile line hmem
    · cases hmem
  rw [messages_behind, messages_silent hbehind (oneLine_raw files name), statements_eq]

theorem silent_behind_prepared
    (hsilent : ∀ file ∈ files, Silent (reading (file.prepared expected)).after) (name : Text) :
    Silent (behind name (files.map (SourceFile.prepared expected))) := by
  intro line hline
  obtain ⟨lines, hlines, hmem⟩ := List.mem_flatMap.mp hline
  obtain ⟨file, hfile, rfl⟩ := List.mem_map.mp hlines
  split at hmem
  · exact hsilent file hfile line hmem
  · cases hmem

/-- As many messages of prepared files as statements. -/
theorem length_messages_prepared (h : Prepared expected files)
    (hsilent : ∀ file ∈ files, Silent (reading (file.prepared expected)).after) (name : Text) :
    ((logOf (files.map (SourceFile.prepared expected))).messages name).length =
      (statements name (files.map SourceFile.lines)).length := by
  rw [messages_behind, messages_silent (silent_behind_prepared hsilent name) (oneLine_prepared h name),
    List.length_map, ← statements_eq, statements_prepared h]

/-- The statements that are written. -/
theorem statements_sweptWith (h : Quiet expected files) (raw : List (List Text)) (name : Text) :
    (statements name ((sweptWith expected raw files).map SourceFile.lines)).map Statement.args =
        (List.range (statements name (files.map SourceFile.lines)).length).map (argsText name) ∧
      (statements name ((sweptWith expected raw files).map SourceFile.lines)).map Statement.literal =
        (statements name (files.map SourceFile.lines)).map Statement.literal := by
  rw [← statements_prepared h.prepared, statements_eq, statements_eq, behind_sweptWith h.prepared]
  by_cases hname : IsName name
  · rw [List.range_eq_range']
    exact statements_assign (silent_behind_prepared h.silent name) (oneLine_prepared h.prepared name)
      hname 0
  · -- Only what is a name is declared.
    have hnil : behind name (files.map (SourceFile.prepared expected)) = [] := by
      apply List.flatMap_eq_nil_iff.mpr
      intro lines _
      rw [if_neg]
      intro heq
      obtain ⟨⟨name', decl⟩, hdecl, rfl⟩ := Option.map_eq_some_iff.mp heq
      exact hname (isName_of_reading hdecl)
    rw [hnil]
    exact ⟨rfl, rfl⟩

/-- Only statements are found in the written files. -/
theorem silent_swept (h : Quiet expected files) :
    ∀ file' ∈ swept expected files, Silent (reading file'.lines).after := by
  intro file' hfile'
  obtain ⟨front, file, back, hsplit, rfl⟩ := mem_swept.mp hfile'
  have hfile : file ∈ files := by rw [hsplit]; simp
  have hprepare := h.prepared file hfile
  rw [lines_sweptFile hprepare]
  cases hdecl : (reading (file.prepared expected)).declaration with
  | none =>
    rw [renewed_none hdecl]
    exact h.silent file hfile
  | some d =>
    obtain ⟨name, decl⟩ := d
    rw [reading_renewed hdecl]
    exact silent_assign (h.silent file hfile)
      (fun line hline => (feedLine_prepared hprepare line (mem_lines_of_reading.2.2 line hline)).oneLine)
      (isName_of_reading hdecl) _

/-- The numbers of statements in front of a file. -/
theorem count_front (h : Quiet expected files) (hsplit : files = front ++ file :: back) (name : Text) :
    ((logOf (front.map (SourceFile.prepared expected))).messages name).length =
      (statements name (front.map SourceFile.lines)).length := by
  have hfront := (hsplit ▸ h).left
  exact length_messages_prepared hfront.prepared hfront.silent name

/-! ## Declarations -/

theorem decimal_injective : Function.Injective decimal := by
  intro n m h
  have hread : ∀ k, Nat.ofDigitChars 10 (decimal k) 0 = k := fun _ => Nat.ofDigitChars_ten_toDigits
  rw [← hread n, ← hread m, h]

theorem argsText_injective (name : Text) : Function.Injective (argsText name) := by
  intro n m h
  rw [argsText, argsText, List.append_left_inj, List.append_right_inj] at h
  exact decimal_injective h

theorem get_of_mem_zip_range {α : Type} {n : Nat} {xs : List α} {x : α}
    (h : (id, x) ∈ (List.range n).zip xs) : xs[id]? = some x := by
  obtain ⟨i, hi, heq⟩ := List.getElem_of_mem h
  rw [List.getElem_zip, List.getElem_range] at heq
  obtain ⟨rfl, rfl⟩ := Prod.mk.inj heq
  exact List.getElem?_eq_getElem _

theorem mem_zip_range {α : Type} {n : Nat} {xs : List α} {x : α} (hid : id < n) (h : xs[id]? = some x) :
    (id, x) ∈ (List.range n).zip xs := by
  obtain ⟨hlength, rfl⟩ := List.getElem?_eq_some_iff.mp h
  have hzip : id < ((List.range n).zip xs).length := by
    rw [List.length_zip, List.length_range]
    omega
  have hmem := List.getElem_mem hzip
  rwa [List.getElem_zip, List.getElem_range] at hmem

/-- The declaration of a written file. -/
theorem declaration_swept (h : Prepared expected files) {file' : SourceFile}
    (hfile' : file' ∈ swept expected files) (hdecl : (reading file'.lines).declaration = some (name, decl)) :
    ∃ file ∈ files, ∃ decl', (reading (file.prepared expected)).declaration = some (name, decl') ∧
      decl = redeclared expected name ((logOf (files.map SourceFile.lines)).messages name) decl' := by
  obtain ⟨front, file, back, hsplit, rfl⟩ := mem_swept.mp hfile'
  have hfile : file ∈ files := by rw [hsplit]; simp
  rw [lines_sweptFile (h file hfile)] at hdecl
  cases hprepared : (reading (file.prepared expected)).declaration with
  | none =>
    rw [renewed_none hprepared, hprepared] at hdecl
    cases hdecl
  | some d =>
    obtain ⟨name', decl'⟩ := d
    rw [reading_renewed hprepared] at hdecl
    cases hdecl
    exact ⟨file, hfile, decl', hprepared, rfl⟩

theorem isBlock_iff (hdecl : (reading lines).declaration = some (name, decl)) :
    (reading lines).isBlock ↔ Reading.IsBlock decl := by
  rw [Reading.isBlock, hdecl]
  exact decide_eq_true_iff

theorem closed_swept (h : Quiet expected files) :
    ∀ file' ∈ swept expected files, (reading file'.lines).Closed := by
  intro file' hfile' name first hone
  obtain ⟨file, hfile, decl', hprepared, hwritten⟩ := declaration_swept h.prepared hfile' hone
  rw [redeclared] at hwritten
  split at hwritten
  · have hlength := congrArg List.length hwritten
    simp only [List.length_append, List.length_cons, List.length_nil] at hlength
    omega
  · rw [(List.cons.inj hwritten).1]
    exact beginLine_declareText

end Turf.Tidy
