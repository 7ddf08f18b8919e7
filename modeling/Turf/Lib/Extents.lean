import Mathlib.Data.List.Basic
import Mathlib.Data.List.Flatten
import Mathlib.Data.List.Pairwise

/-!
# Pieces laid end to end

A region is cut into pieces that follow one another without gaps; each piece has a size and
starts where the one before it ends. Some of the pieces are marked, and the marked ones are
what the region holds. Stated here are the search of a region by address, the replacement of
pieces and what it does to the marked extents, and what it means that pieces tile a range.
-/
namespace Turf.Lib.Extents

variable {α β : Type*}

/-- Two extents, given by start and size, that share no address. -/
def Apart (x y : Nat × Nat) : Prop := x.1 + x.2 ≤ y.1 ∨ y.1 + y.2 ≤ x.1

instance (x y : Nat × Nat) : Decidable (Apart x y) := inferInstanceAs (Decidable (_ ∨ _))

instance : Std.Symm Apart := ⟨fun _ _ h => Or.symm h⟩

section Pieces

variable (size : α → Nat) (mark : α → Bool)

def total : List α → Nat
  | [] => 0
  | x :: xs => size x + total xs

/-- The extents of the marked pieces, the first piece starting at `b`. -/
def marked : Nat → List α → List (Nat × Nat)
  | _, [] => []
  | b, x :: xs =>
    if mark x then (b, size x) :: marked (b + size x) xs else marked (b + size x) xs

/-- The first piece that a test of its start and itself selects, with what lies before and
after it. -/
def split? (sel : Nat → α → Bool) : Nat → List α → Option (List α × α × List α)
  | _, [] => none
  | b, x :: xs =>
    if sel b x then some ([], x, xs)
    else (split? sel (b + size x) xs).map fun r => (x :: r.1, r.2)

@[simp] theorem total_nil : total size [] = 0 := rfl

@[simp] theorem total_cons (x : α) (l : List α) : total size (x :: l) = size x + total size l := rfl

@[simp] theorem total_append (l r : List α) : total size (l ++ r) = total size l + total size r := by
  induction l with
  | nil => simp
  | cons x xs ih => simp only [List.cons_append, total_cons, ih, Nat.add_assoc]

theorem total_congr {f : α → Nat} {l : List α} (h : ∀ x ∈ l, size x = f x) :
    total size l = total f l := by
  induction l with
  | nil => rfl
  | cons x xs ih =>
    obtain ⟨hx, hxs⟩ := List.forall_mem_cons.mp h
    rw [total_cons, total_cons, hx, ih hxs]

@[simp] theorem marked_nil (b : Nat) : marked size mark b [] = [] := rfl

theorem marked_eq_nil {b : Nat} {l : List α} (h : ∀ x ∈ l, mark x = false) :
    marked size mark b l = [] := by
  induction l generalizing b with
  | nil => rfl
  | cons x xs ih =>
    obtain ⟨hx, hxs⟩ := List.forall_mem_cons.mp h
    rw [marked, if_neg (by simp [hx]), ih hxs]

theorem marked_append (b : Nat) (l r : List α) :
    marked size mark b (l ++ r) = marked size mark b l ++ marked size mark (b + total size l) r := by
  induction l generalizing b with
  | nil => simp
  | cons x xs ih =>
    simp only [List.cons_append, marked, ih, total_cons, Nat.add_assoc]
    split <;> rfl

theorem total_map (f : β → α) (l : List β) :
    total size (l.map f) = total (fun x => size (f x)) l := by
  induction l with
  | nil => rfl
  | cons x xs ih => rw [List.map_cons, total_cons, total_cons, ih]

/-- A change of the pieces that keeps sizes and marks keeps the marked extents. -/
theorem marked_map {f : α → α} (hs : ∀ x, size (f x) = size x) (hm : ∀ x, mark (f x) = mark x)
    (b : Nat) (l : List α) : marked size mark b (l.map f) = marked size mark b l := by
  induction l generalizing b with
  | nil => rfl
  | cons x xs ih => simp only [List.map_cons, marked, hs, hm, ih]

/-- A marked extent is that of a marked piece, at the place it has in the region. -/
theorem mem_marked {b q n : Nat} {l : List α} :
    (q, n) ∈ marked size mark b l ↔
      ∃ a x r, l = a ++ x :: r ∧ mark x ∧ q = b + total size a ∧ n = size x := by
  induction l generalizing b with
  | nil => simp
  | cons y ys ih =>
    have hlift : (q, n) ∈ marked size mark (b + size y) ys ↔
        ∃ a x r, ys = a ++ x :: r ∧ mark x ∧ q = b + total size (y :: a) ∧ n = size x := by
      simp only [ih, total_cons, Nat.add_assoc]
    have hhead : (q, n) ∈ marked size mark b (y :: ys) ↔
        (mark y ∧ q = b ∧ n = size y) ∨ (q, n) ∈ marked size mark (b + size y) ys := by
      rw [marked]
      split <;> simp_all
    rw [hhead, hlift]
    constructor
    · intro h
      rcases h with ⟨hm, hq, hn⟩ | ⟨a, x, r, hl, hm, hq, hn⟩
      · exact ⟨[], y, ys, rfl, hm, by simpa using hq, hn⟩
      · exact ⟨y :: a, x, r, by simp [hl], hm, hq, hn⟩
    · intro ⟨a, x, r, hl, hm, hq, hn⟩
      cases a with
      | nil =>
        obtain ⟨rfl, rfl⟩ := List.cons.inj hl
        exact .inl ⟨hm, by simpa using hq, hn⟩
      | cons z a =>
        obtain ⟨rfl, hys⟩ := List.cons.inj hl
        exact .inr ⟨a, x, r, hys, hm, hq, hn⟩

theorem marked_bounds {b : Nat} {l : List α} {e : Nat × Nat} (h : e ∈ marked size mark b l) :
    b ≤ e.1 ∧ e.1 + e.2 ≤ b + total size l := by
  obtain ⟨a, x, r, rfl, -, hq, hn⟩ := (mem_marked size mark).mp h
  simp only [total_append, total_cons]
  omega

/-- No two marked pieces overlap. -/
theorem marked_apart (b : Nat) (l : List α) : (marked size mark b l).Pairwise Apart := by
  induction l generalizing b with
  | nil => exact List.Pairwise.nil
  | cons x xs ih =>
    rw [marked]
    split
    · apply List.pairwise_cons.mpr ⟨_, ih _⟩
      intro e he
      exact .inl (marked_bounds size mark he).1
    · exact ih _

theorem split?_eq_some {sel : Nat → α → Bool} {b : Nat} {l a r : List α} {x : α}
    (h : split? size sel b l = some (a, x, r)) :
    l = a ++ x :: r ∧ sel (b + total size a) x = true := by
  induction l generalizing b a with
  | nil => cases h
  | cons y ys ih =>
    rw [split?] at h
    split at h
    · next hs =>
      cases h
      exact ⟨rfl, hs⟩
    · obtain ⟨⟨a', x', r'⟩, hr, he⟩ := Option.map_eq_some_iff.mp h
      cases he
      obtain ⟨hys, hsel⟩ := ih hr
      exact ⟨by rw [hys]; rfl, by simpa [Nat.add_assoc] using hsel⟩

/-- A search finds something where some piece passes its test. -/
theorem split?_isSome {sel : Nat → α → Bool} {b : Nat} {a r : List α} {x : α}
    (h : sel (b + total size a) x = true) : (split? size sel b (a ++ x :: r)).isSome := by
  induction a generalizing b with
  | nil => simp [split?, show sel b x = true by simpa using h]
  | cons y ys ih =>
    rw [List.cons_append, split?]
    split
    · rfl
    · rw [Option.isSome_map]
      exact ih (by simpa [Nat.add_assoc] using h)

end Pieces

section Regions

theorem total_flatMap (size : α → Nat) (f : β → List α) (l : List β) :
    total size (l.flatMap f) = total (fun s => total size (f s)) l := by
  induction l with
  | nil => rfl
  | cons s ss ih => rw [List.flatMap_cons, total_append, total_cons, ih]

theorem total_perm (size : α → Nat) {l r : List α} (h : l.Perm r) :
    total size l = total size r := by
  induction h with
  | nil => rfl
  | cons x _ ih => rw [total_cons, total_cons, ih]
  | swap x y l => simp only [total_cons]; omega
  | trans _ _ ih₁ ih₂ => exact ih₁.trans ih₂

/-- What replacing one region does to what all of them hold. -/
theorem flatMap_set_perm (f : β → List α) {l : List β} {i : Nat} {s : β} (h : l[i]? = some s)
    (t : β) : ((l.set i t).flatMap f ++ f s).Perm (l.flatMap f ++ f t) := by
  induction l generalizing i with
  | nil => cases h
  | cons y ys ih =>
    cases i with
    | zero =>
      obtain rfl : y = s := by simpa using h
      simp only [List.set_cons_zero, List.flatMap_cons, List.append_assoc]
      calc f t ++ (ys.flatMap f ++ f y)
        _ = (f t ++ ys.flatMap f) ++ f y := (List.append_assoc _ _ _).symm
        _ |>.Perm (f y ++ (f t ++ ys.flatMap f)) := List.perm_append_comm
        _ |>.Perm (f y ++ (ys.flatMap f ++ f t)) := List.perm_append_comm.append_left _
    | succ i =>
      simp only [List.set_cons_succ, List.flatMap_cons, List.append_assoc]
      exact (ih (by simpa using h)).append_left _

/-- Replacing a region by one that is as apart from the others as it was. -/
theorem pairwise_set {R : β → β → Prop} [Std.Symm R] {l : List β} {i : Nat} {t : β}
    (hl : l.Pairwise R) (ht : ∀ j s, j ≠ i → l[j]? = some s → R s t) : (l.set i t).Pairwise R := by
  induction l generalizing i with
  | nil => exact List.Pairwise.nil
  | cons y ys ih =>
    obtain ⟨hy, hys⟩ := List.pairwise_cons.mp hl
    cases i with
    | zero =>
      apply List.pairwise_cons.mpr ⟨_, hys⟩
      intro s hs
      obtain ⟨j, hj⟩ := List.getElem?_of_mem hs
      exact symm (ht (j + 1) s (Nat.succ_ne_zero j) (by simpa using hj))
    | succ i =>
      apply List.pairwise_cons.mpr ⟨_, ih hys _⟩
      · intro s hs
        rcases List.mem_or_eq_of_mem_set hs with h | rfl
        · exact hy s h
        · exact ht 0 y (Nat.succ_ne_zero i).symm rfl
      · intro j s hj hs
        exact ht (j + 1) s (by omega) (by simpa using hs)

/-- Replacing a region by one that satisfies what all of them satisfy. -/
theorem forall_mem_set {P : β → Prop} {l : List β} {i : Nat} {t : β} (hl : ∀ s ∈ l, P s)
    (ht : P t) : ∀ s ∈ l.set i t, P s := by
  intro s hs
  rcases List.mem_or_eq_of_mem_set hs with h | rfl
  · exact hl s h
  · exact ht

end Regions

section Tilings

variable (start size : α → Nat)

/-- The pieces cover a range in order, each starting where the one before it ends. -/
def Tiles : Nat → List α → Nat → Prop
  | lo, [], hi => lo = hi
  | lo, x :: xs, hi => start x = lo ∧ Tiles (lo + size x) xs hi

theorem Tiles.congr {start size size' : α → Nat} {lo hi : Nat} {l : List α}
    (h : Tiles start size lo l hi) (hs : ∀ x ∈ l, size x = size' x) : Tiles start size' lo l hi := by
  induction l generalizing lo with
  | nil => exact h
  | cons x xs ih =>
    obtain ⟨hx, hxs⟩ := List.forall_mem_cons.mp hs
    refine ⟨h.1, ?_⟩
    rw [← hx]
    exact ih h.2 hxs

theorem Tiles.le {start size : α → Nat} {lo hi : Nat} {l : List α} (h : Tiles start size lo l hi) :
    lo ≤ hi := by
  induction l generalizing lo with
  | nil => exact Nat.le_of_eq h
  | cons x xs ih => exact Nat.le_trans (Nat.le_add_right lo (size x)) (ih h.2)

theorem Tiles.bounds {start size : α → Nat} {lo hi : Nat} {l : List α}
    (h : Tiles start size lo l hi) {x : α} (hx : x ∈ l) :
    lo ≤ start x ∧ start x + size x ≤ hi := by
  induction l generalizing lo with
  | nil => cases hx
  | cons y ys ih =>
    obtain ⟨hy, hys⟩ := h
    rcases List.mem_cons.mp hx with rfl | hin
    · have hle := hys.le
      omega
    · have hb := ih hys hin
      omega

/-- Every place of the range is in one of its pieces. -/
theorem Tiles.covers {start size : α → Nat} {lo hi : Nat} {l : List α}
    (h : Tiles start size lo l hi) {y : Nat} (hlo : lo ≤ y) (hhi : y < hi) :
    ∃ x ∈ l, start x ≤ y ∧ y < start x + size x := by
  induction l generalizing lo with
  | nil =>
    have heq : lo = hi := h
    omega
  | cons x xs ih =>
    obtain ⟨hx, hxs⟩ := h
    by_cases hlt : y < lo + size x
    · exact ⟨x, List.mem_cons_self, by omega, by omega⟩
    · obtain ⟨z, hz, hb⟩ := ih hxs (Nat.le_of_not_lt hlt)
      exact ⟨z, List.mem_cons_of_mem x hz, hb⟩

end Tilings

end Turf.Lib.Extents
