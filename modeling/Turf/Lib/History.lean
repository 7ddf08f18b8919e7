import Mathlib.Data.List.Basic

/-!
# Maps that know what came before

A function is applied to each element of a list together with the elements in front of it, as a loop
does whose state is determined by what it has seen.
-/
namespace Turf.Lib.History

variable {α β γ : Type} {g h : List α → α → β} {as back front : List α} {a : α} {b : β}

/-- The list stands behind `front`. -/
def mapFrom (g : List α → α → β) : List α → List α → List β
  | _, [] => []
  | front, a :: as => g front a :: mapFrom g (front ++ [a]) as

theorem mapFrom_cons (g : List α → α → β) (front : List α) (a : α) (as : List α) :
    mapFrom g front (a :: as) = g front a :: mapFrom g (front ++ [a]) as := rfl

theorem mapFrom_append (g : List α → α → β) (front as back : List α) :
    mapFrom g front (as ++ back) = mapFrom g front as ++ mapFrom g (front ++ as) back := by
  induction as generalizing front with
  | nil => rw [List.append_nil]; rfl
  | cons a as ih =>
    rw [List.cons_append, mapFrom_cons, ih, List.append_assoc, List.singleton_append]
    rfl

theorem mapFrom_concat (g : List α → α → β) (front as : List α) (a : α) :
    mapFrom g front (as ++ [a]) = mapFrom g front as ++ [g (front ++ as) a] :=
  mapFrom_append g front as [a]

theorem map_mapFrom (f : β → γ) (g : List α → α → β) (front as : List α) :
    (mapFrom g front as).map f = mapFrom (fun front a => f (g front a)) front as := by
  induction as generalizing front with
  | nil => rfl
  | cons a as ih => rw [mapFrom_cons, List.map_cons, ih]; rfl

theorem mapFrom_map (g : List β → β → γ) (f : α → β) (front as : List α) :
    mapFrom g (front.map f) (as.map f) = mapFrom (fun front a => g (front.map f) (f a)) front as := by
  induction as generalizing front with
  | nil => rfl
  | cons a as ih =>
    rw [List.map_cons, mapFrom_cons, mapFrom_cons, ← ih (front ++ [a]), List.map_append,
      List.map_singleton]

/-- Equal at every element behind the elements in front of it. -/
theorem mapFrom_congr : mapFrom g front as = mapFrom h front as ↔
    ∀ before a after, as = before ++ a :: after → g (front ++ before) a = h (front ++ before) a := by
  induction as generalizing front with
  | nil => simp [mapFrom]
  | cons a as ih =>
    rw [mapFrom_cons, mapFrom_cons, List.cons.injEq, ih]
    constructor
    · intro heq before b after hsplit
      cases before with
      | nil =>
        obtain ⟨rfl, -⟩ := List.cons.inj hsplit
        rw [List.append_nil]
        exact heq.1
      | cons c before =>
        obtain ⟨rfl, hrest⟩ := List.cons.inj hsplit
        have hb := heq.2 before b after hrest
        rwa [List.append_assoc, List.singleton_append] at hb
    · intro hall
      refine ⟨by simpa using hall [] a as rfl, fun before b after hsplit => ?_⟩
      have hb := hall (a :: before) b after (by rw [hsplit]; rfl)
      rwa [List.append_assoc, List.singleton_append]

theorem mem_mapFrom : b ∈ mapFrom g front as ↔
    ∃ before a after, as = before ++ a :: after ∧ b = g (front ++ before) a := by
  induction as generalizing front with
  | nil => simp [mapFrom]
  | cons a as ih =>
    rw [mapFrom_cons, List.mem_cons, ih]
    constructor
    · intro h
      rcases h with rfl | ⟨before, c, after, rfl, rfl⟩
      · exact ⟨[], a, as, rfl, by rw [List.append_nil]⟩
      · refine ⟨a :: before, c, after, rfl, ?_⟩
        rw [List.append_assoc, List.singleton_append]
    · intro h
      obtain ⟨before, c, after, hsplit, rfl⟩ := h
      cases before with
      | nil =>
        obtain ⟨rfl, -⟩ := List.cons.inj hsplit
        exact .inl (by rw [List.append_nil])
      | cons d before =>
        obtain ⟨rfl, hrest⟩ := List.cons.inj hsplit
        refine .inr ⟨before, c, after, hrest, ?_⟩
        rw [List.append_assoc, List.singleton_append]

/-- What such a map makes of the results of another one. -/
theorem mapFrom_mapFrom (g' : List β → β → γ) (g : List α → α → β) (front as : List α) :
    mapFrom g' (mapFrom g [] front) (mapFrom g front as) =
      mapFrom (fun front a => g' (mapFrom g [] front) (g front a)) front as := by
  induction as generalizing front with
  | nil => rfl
  | cons a as ih =>
    have hfront := mapFrom_concat g [] front a
    rw [List.nil_append] at hfront
    rw [mapFrom_cons, mapFrom_cons, mapFrom_cons, ← ih (front ++ [a]), hfront]

end Turf.Lib.History
