import Turf.Tidy.Ids

/-!
# The next run

When the tool finds nothing to change in the files that it has written.
-/
namespace Turf.Tidy

open Turf.Lib.Pattern
open Turf.Lib.History

variable {line name : Text} {lines fixed decl : List Text} {file : SourceFile}
  {files front back : List SourceFile} {expected : LineEnding} {guard : GuardName}

/-! ## Lines that are left as they are -/

theorem fixError_of_live (h : live line = true) : fixError line = line := by
  rcases fixError_cases line with heq | ⟨hinert, -⟩
  · exact heq
  · rw [live_eq_false.mpr hinert] at h
    cases h

theorem IsMacro.live (h : IsMacro line) : live line = true := by
  obtain ⟨c, text, hkeyword, hc⟩ : ∃ c text, keyword = c :: text ∧ (c != '#') = true :=
    ⟨'T', "URF_TRACE".toList, by decide, rfl⟩
  have hskip := h.skip_eq
  obtain ⟨rest, rfl⟩ := h
  rw [Turf.Tidy.live, hskip, hkeyword]
  exact hc

/-- The lines that a new guard adds. -/
def guardLines (expected : LineEnding) (guard : Text) : List Text :=
  [ifndefLine expected guard, defineLine expected guard, expected.text, endifGuardLine expected guard]

theorem fixError_of_mem_guardLines (h : line ∈ guardLines expected guard.text) : fixError line = line := by
  obtain ⟨hifndef, hdefine, hending, hendif⟩ := errorMessage_new expected guard.text
  rw [guardLines, List.mem_cons, List.mem_cons, List.mem_cons, List.mem_singleton] at h
  rcases h with rfl | rfl | rfl | rfl
  · exact fixError_of_none hifndef
  · exact fixError_of_none hdefine
  · exact fixError_of_none hending
  · exact fixError_of_none hendif

theorem mem_fixGuards (h : fixGuards expected guard.text lines = some fixed) (hline : line ∈ fixed) :
    line ∈ lines ∨ line ∈ guardLines expected guard.text := by
  by_cases haccepts : Accepts guard.text (lines.drop (preamble lines))
  · rw [fixGuards_of_accepts haccepts] at h
    cases h
    exact .inl hline
  · obtain ⟨top, first, inner, bottom, got, heq, -, -, -, rfl⟩ := (fixGuards_of_not haccepts).mp h
    have hbody : ∀ line ∈ first :: inner, line ∈ lines := by
      intro line hline
      apply List.mem_of_mem_drop (i := preamble lines)
      rw [heq]
      exact List.mem_append_right _ (List.mem_append_left _ hline)
    rw [guarded, List.mem_append, List.mem_append, List.mem_append] at hline
    rcases hline with hline | (hline | hline) | hline
    · exact .inl (List.mem_of_mem_take hline)
    · simp only [List.mem_cons, List.not_mem_nil, or_false] at hline
      simp only [guardLines, List.mem_cons, List.not_mem_nil, or_false]
      exact .inr (hline.imp_right (Or.imp_right .inl))
    · exact .inl (hbody line hline)
    · simp only [List.mem_cons, List.not_mem_nil, or_false] at hline
      simp only [guardLines, List.mem_cons, List.not_mem_nil, or_false]
      exact .inr (.inr (.inr hline))

/-! ## Lines that were written -/

theorem exists_of_mem_prepared (h : prepare expected file ≠ none) (hline : line ∈ file.prepared expected) :
    ∃ line', line = fixError line' := by
  have hprepare := prepare_eq h
  rw [prepare] at hprepare
  split at hprepare
  · rw [← Option.some.inj hprepare] at hline
    obtain ⟨line', -, rfl⟩ := List.mem_map.mp hline
    exact ⟨line', rfl⟩
  · obtain ⟨fixed, -, heq⟩ := Option.map_eq_some_iff.mp hprepare
    rw [← heq] at hline
    obtain ⟨line', -, rfl⟩ := List.mem_map.mp hline
    exact ⟨line', rfl⟩

/-- A line with an id, or one that is not a statement. -/
theorem fixError_of_written (h : prepare expected file ≠ none)
    (hsilent : Silent (reading (file.prepared expected)).after) (hname : IsName name)
    (hline : line ∈ (reading (file.prepared expected)).after) {line' : Text} (hwritten : Written name line line') :
    fixError line' = line' := by
  have hmem := mem_lines_of_reading.2.2 line hline
  cases hfound : search tracePattern line with
  | none =>
    rw [hwritten.eq_of_none hfound]
    obtain ⟨line'', rfl⟩ := exists_of_mem_prepared h hmem
    exact fixError_fixError line''
  | some r =>
    obtain ⟨s, hs⟩ := Option.isSome_iff_exists.mp (hsilent line hline (by rw [hfound]; rfl))
    obtain ⟨id, rfl⟩ := hwritten.restate_eq (feedLine_prepared h line hmem).oneLine hs
    apply fixError_of_live (live_of_statement _)
    rw [statementOf_restate hs hname.word]
    rfl

theorem isMacro_redeclared {found : List Text} :
    ∀ line ∈ redeclared expected name found decl, IsMacro line := by
  rw [redeclared]
  split
  · intro line hline
    rw [List.mem_append, List.mem_cons, List.mem_map, List.mem_singleton] at hline
    rcases hline with (rfl | ⟨desc, -, rfl⟩) | rfl
    · exact isMacro_beginText
    · exact isMacro_entryText
    · exact isMacro_endText
  · intro line hline
    rw [List.mem_singleton.mp hline]
    exact isMacro_declareText

/-- The messages of the written `#error` lines are in quotes. -/
theorem fixError_renewed (h : prepare expected file ≠ none)
    (hsilent : Silent (reading (file.prepared expected)).after) (raw : List (List Text)) (log : Log) :
    ∀ line ∈ renewed expected (logOf raw) log (file.prepared expected), fixError line = line := by
  have hprepared : ∀ line ∈ file.prepared expected, fixError line = line := by
    intro line hline
    obtain ⟨line', rfl⟩ := exists_of_mem_prepared h hline
    exact fixError_fixError line'
  cases hdecl : (reading (file.prepared expected)).declaration with
  | none =>
    rw [renewed_none hdecl]
    exact hprepared
  | some d =>
    obtain ⟨name, decl⟩ := d
    rw [renewed_some hdecl]
    intro line hline
    rw [List.mem_append, List.mem_append] at hline
    rcases hline with hline | hline | hline
    · exact hprepared line (mem_lines_of_reading.1 line hline)
    · exact fixError_of_live (isMacro_redeclared line hline).live
    · obtain ⟨line', hline', hwritten⟩ := exists_of_mem_assign hline
      exact fixError_of_written h hsilent (isName_of_reading hdecl) hline' hwritten

/-- What is done to the guard, if the file is a header. -/
def reguard (expected : LineEnding) (guard : Option GuardName) (lines : List Text) : Option (List Text) :=
  match guard with
  | none => some lines
  | some guard => fixGuards expected guard.text lines

theorem prepare_eq_reguard (expected : LineEnding) (file : SourceFile) : prepare expected file =
    (reguard expected file.guard (fixLineEndings expected file.text)).map (List.map fixError) := by
  rw [prepare]
  cases file.guard with
  | none => rfl
  | some guard => rfl

theorem mem_reguard {guard : Option GuardName} (h : reguard expected guard lines = some fixed)
    (hline : line ∈ fixed) : line ∈ lines ∨ ∃ guard : GuardName, line ∈ guardLines expected guard.text := by
  cases guard with
  | none =>
    cases h
    exact .inl hline
  | some guard =>
    rcases mem_fixGuards h hline with hline | hline
    · exact .inl hline
    · exact .inr ⟨guard, hline⟩

/-- A file with the expected endings is prepared through its guard alone. -/
theorem prepare_of_isLine (hfixed : ∀ line ∈ file.lines, fixError line = line)
    (hendings : ∀ line ∈ file.lines, IsLine expected line) :
    prepare expected file = reguard expected file.guard file.lines := by
  have hfix : fixLineEndings expected file.text = file.lines := by
    rw [fixLineEndings]
    exact (List.map_congr_left fun line hline => fixLineEnding_of_isLine (hendings line hline)).trans
      (List.map_id' _)
  rw [prepare_eq_reguard, hfix]
  cases h : reguard expected file.guard file.lines with
  | none => rfl
  | some new =>
    rw [Option.map_some, Option.some.injEq]
    refine (List.map_congr_left fun line hline => ?_).trans (List.map_id' _)
    rcases mem_reguard h hline with hmem | ⟨guard, hmem⟩
    · exact hfixed line hmem
    · exact fixError_of_mem_guardLines hmem

/-! ## The same files again -/

theorem swept_swept_iff : swept expected (swept expected files) = swept expected files ↔
    ∀ front file back, files = front ++ file :: back →
      sweptFile expected (logOf ((swept expected files).map SourceFile.lines))
          (sweptWith expected (files.map SourceFile.lines) front)
          (sweptFile expected (logOf (files.map SourceFile.lines)) front file) =
        sweptFile expected (logOf (files.map SourceFile.lines)) front file := by
  have hagain : swept expected (swept expected files) = mapFrom
      (fun front file => sweptFile expected (logOf ((swept expected files).map SourceFile.lines))
        (sweptWith expected (files.map SourceFile.lines) front)
        (sweptFile expected (logOf (files.map SourceFile.lines)) front file)) [] files :=
    mapFrom_mapFrom _ (sweptFile expected (logOf (files.map SourceFile.lines))) [] files
  rw [hagain, swept, sweptWith, mapFrom_congr]
  rfl

/-- A file is written as it is if its lines are. -/
theorem sweptFile_eq_iff (h : prepare expected file ≠ none) (raw raw' : List (List Text))
    (front front' : List SourceFile)
    (h' : prepare expected (sweptFile expected (logOf raw) front file) ≠ none) :
    sweptFile expected (logOf raw') front' (sweptFile expected (logOf raw) front file) =
        sweptFile expected (logOf raw) front file ↔
      renewed expected (logOf raw') (logOf (front'.map (SourceFile.prepared expected)))
          ((sweptFile expected (logOf raw) front file).prepared expected) =
        (sweptFile expected (logOf raw) front file).lines := by
  constructor
  · intro heq
    have hlines := congrArg SourceFile.lines heq
    rwa [lines_sweptFile h'] at hlines
  · intro heq
    have htext : (sweptFile expected (logOf raw) front file).lines.flatten =
        (sweptFile expected (logOf raw) front file).text := by
      rw [lines_sweptFile h]
      rfl
    show SourceFile.mk _ (renewed expected (logOf raw') _ _).flatten = _
    rw [heq, htext]

/-- The messages that the next run finds. -/
theorem messages_swept (h : Quiet expected files) (h' : Quiet expected (swept expected files)) (name : Text) :
    (logOf ((swept expected files).map SourceFile.lines)).messages name =
      (logOf (files.map SourceFile.lines)).messages name := by
  have hliteral := (statements_sweptWith h (files.map SourceFile.lines) name).2
  rw [messages_files _ h'.raw, messages_files files h.raw, ← Function.comp_def taken Statement.literal,
    ← List.map_map, ← List.map_map, ← hliteral]
  rfl

/-- The ids that the next run begins with in a file. -/
theorem count_swept (h : Quiet expected files) (h' : Quiet expected (swept expected files))
    (hsplit : files = front ++ file :: back) (name : Text) :
    ((logOf ((sweptWith expected (files.map SourceFile.lines) front).map
        (SourceFile.prepared expected))).messages name).length =
      ((logOf (front.map (SourceFile.prepared expected))).messages name).length := by
  have hsub : swept expected files = sweptWith expected (files.map SourceFile.lines) front ++
      mapFrom (sweptFile expected (logOf (files.map SourceFile.lines))) front (file :: back) := by
    have hmap := mapFrom_append (sweptFile expected (logOf (files.map SourceFile.lines))) [] front
      (file :: back)
    rw [← hsplit, List.nil_append] at hmap
    exact hmap
  have hfront := (hsub ▸ h').left
  have hargs := congrArg List.length (statements_sweptWith (hsplit ▸ h).left (files.map SourceFile.lines) name).1
  rw [List.length_map, List.length_map, List.length_range] at hargs
  rw [count_front h hsplit, length_messages_prepared hfront.prepared hfront.silent, hargs]

theorem mem_swept_of_split (expected : LineEnding) (hsplit : files = front ++ file :: back) :
    sweptFile expected (logOf (files.map SourceFile.lines)) front file ∈ swept expected files :=
  mem_swept.mpr ⟨front, file, back, hsplit, rfl⟩

/-- The lines of a written file are written again as they are. -/
theorem renewed_again (h : Quiet expected files) (h' : Quiet expected (swept expected files))
    (hsplit : files = front ++ file :: back) :
    renewed expected (logOf ((swept expected files).map SourceFile.lines))
        (logOf ((sweptWith expected (files.map SourceFile.lines) front).map (SourceFile.prepared expected)))
        (sweptFile expected (logOf (files.map SourceFile.lines)) front file).lines =
      (sweptFile expected (logOf (files.map SourceFile.lines)) front file).lines := by
  have hfile : file ∈ files := by rw [hsplit]; simp
  have hprepare := h.prepared file hfile
  rw [lines_sweptFile hprepare]
  cases hdecl : (reading (file.prepared expected)).declaration with
  | none => rw [renewed_none hdecl, renewed_none hdecl]
  | some d =>
    obtain ⟨name, decl⟩ := d
    have hfeed : ∀ line ∈ (reading (file.prepared expected)).after, FeedLine line :=
      fun line hline => feedLine_prepared hprepare line (mem_lines_of_reading.2.2 line hline)
    have hread : reading (renewed expected (logOf (files.map SourceFile.lines))
        (logOf (front.map (SourceFile.prepared expected))) (file.prepared expected)) = _ := reading_renewed hdecl
    rw [renewed_some (congrArg Reading.declaration hread), hread, messages_swept h h',
      count_swept h h' hsplit, assign_assign (h.silent file hfile) hfeed (isName_of_reading hdecl),
      redeclared_redeclared, renewed_some hdecl]

/-- Where every written file is prepared as it is, the next run changes nothing. -/
theorem sweep_swept (h : Quiet expected files)
    (hagain : ∀ file' ∈ swept expected files, prepare expected file' = some file'.lines) :
    sweep (some ↑expected) (swept expected files) = some (swept expected files) := by
  have hprepared : ∀ file' ∈ swept expected files, prepare expected file' ≠ none := by
    intro file' hfile'
    rw [hagain file' hfile']
    exact Option.some_ne_none _
  have hlines : ∀ file' ∈ swept expected files, file'.prepared expected = file'.lines := by
    intro file' hfile'
    rw [SourceFile.prepared, hagain file' hfile']
    rfl
  have hquiet : Quiet expected (swept expected files) := by
    refine ⟨closed_swept h, hprepared, silent_swept h, fun file' hfile' => ?_⟩
    rw [hlines file' hfile']
    exact silent_swept h file' hfile'
  rw [sweep_eq hquiet, Option.some.injEq, swept_swept_iff]
  intro front file back hsplit
  have hmem := mem_swept_of_split expected hsplit
  have hfile : file ∈ files := by rw [hsplit]; simp
  rw [sweptFile_eq_iff (h.prepared file hfile) _ _ _ _ (hprepared _ hmem), hlines _ hmem]
  exact renewed_again h hquiet hsplit

end Turf.Tidy
