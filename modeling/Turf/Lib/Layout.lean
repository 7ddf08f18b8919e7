import Mathlib.Data.List.Chain
import Mathlib.Order.Interval.Finset.Nat
import Turf.Lib.Extents

/-!
# How pieces lie

Marks along a row of pieces that never leave two neighbours unmarked, and extents that lie apart in a
range and so have no more bytes than it.
-/
namespace Turf.Lib.Extents

/-! ## Spacing -/

/-- Of two neighbours one is marked. -/
def Spaced (l : List Bool) : Prop := l.IsChain fun a b => a = true ∨ b = true

instance (l : List Bool) : Decidable (Spaced l) := inferInstanceAs (Decidable (List.IsChain _ _))

variable {l r : List Bool} {a : Bool}

@[simp] theorem spaced_nil : Spaced [] := List.IsChain.nil

@[simp] theorem spaced_singleton : Spaced [a] := List.IsChain.singleton a

@[simp] theorem spaced_cons_true : Spaced (true :: l) ↔ Spaced l := by
  unfold Spaced
  rw [List.isChain_cons]
  exact and_iff_right fun _ _ => .inl rfl

@[simp] theorem spaced_false_true : Spaced (false :: true :: l) ↔ Spaced l := by
  unfold Spaced
  rw [List.isChain_cons_cons, List.isChain_cons]
  exact ⟨fun h => h.2.2, fun h => ⟨.inr rfl, fun _ _ => .inl rfl, h⟩⟩

@[simp] theorem not_spaced_false_false : ¬ Spaced (false :: false :: l) := by
  unfold Spaced
  rw [List.isChain_cons_cons]
  simp

/-- A marked piece keeps the two sides apart. -/
@[simp] theorem spaced_append_true : Spaced (l ++ true :: r) ↔ Spaced l ∧ Spaced r := by
  unfold Spaced
  rw [List.isChain_append, List.isChain_cons]
  refine ⟨fun h => ⟨h.1, h.2.1.2⟩, fun h => ⟨h.1, ⟨fun _ _ => .inl rfl, h.2⟩, ?_⟩⟩
  intro x _ y hy
  exact .inr (Option.some.inj hy).symm

/-- At an unmarked piece the two sides meet. -/
theorem spaced_append_false : Spaced (l ++ false :: r) ↔ Spaced (l ++ [false]) ∧ Spaced (false :: r) :=
  List.isChain_split

theorem Spaced.left (h : Spaced (l ++ r)) : Spaced l := List.IsChain.left_of_append h

theorem Spaced.right (h : Spaced (l ++ r)) : Spaced r := List.IsChain.right_of_append h

theorem Spaced.tail (h : Spaced (a :: l)) : Spaced l := List.IsChain.tail h

/-- Unmarked pieces alone are at most one. -/
theorem Spaced.eq_of_unmarked (h : Spaced l) (hl : ∀ b ∈ l, b = false) : l = [] ∨ l = [false] := by
  cases l with
  | nil => exact .inl rfl
  | cons b l =>
    cases l with
    | nil =>
      rw [hl b List.mem_cons_self]
      exact .inr rfl
    | cons b' l =>
      rw [hl b (by simp), hl b' (by simp)] at h
      exact absurd h not_spaced_false_false

/-! ## Replacing a region -/

section Regions

variable {α β : Type*}

theorem length_marked (size : α → Nat) (mark : α → Bool) (b : Nat) (l : List α) :
    (marked size mark b l).length = l.countP mark := by
  induction l generalizing b with
  | nil => rfl
  | cons x xs ih =>
    rw [marked, List.countP_cons]
    split <;> simp [ih]

theorem total_le {f g : α → Nat} {l : List α} (hl : ∀ x ∈ l, f x ≤ g x) : total f l ≤ total g l := by
  induction l with
  | nil => exact le_rfl
  | cons x xs ih =>
    obtain ⟨hx, hxs⟩ := List.forall_mem_cons.mp hl
    rw [total_cons, total_cons]
    exact Nat.add_le_add hx (ih hxs)

/-- The pieces that a test selects have no more bytes than all of them. -/
theorem total_marked_le (size : α → Nat) (mark : α → Bool) (b : Nat) (l : List α) :
    total Prod.snd (marked size mark b l) ≤ total size l := by
  induction l generalizing b with
  | nil => exact le_rfl
  | cons x xs ih =>
    have hrest := ih (b + size x)
    rw [marked, total_cons]
    split
    · rw [total_cons]
      exact Nat.add_le_add_left hrest _
    · omega

theorem total_dvd {size : α → Nat} {d : Nat} {l : List α} (h : ∀ x ∈ l, d ∣ size x) : d ∣ total size l := by
  induction l with
  | nil => exact Nat.dvd_zero d
  | cons x xs ih =>
    obtain ⟨hx, hxs⟩ := List.forall_mem_cons.mp h
    exact Nat.dvd_add hx (ih hxs)

theorem total_set (size : β → Nat) {l : List β} {i : Nat} {s : β} (h : l[i]? = some s) (t : β) :
    total size (l.set i t) + size s = total size l + size t := by
  induction l generalizing i with
  | nil => cases h
  | cons y ys ih =>
    cases i with
    | zero =>
      obtain rfl : y = s := by simpa using h
      simp only [List.set_cons_zero, total_cons]
      omega
    | succ i =>
      have hrest := ih (i := i) (by simpa using h)
      simp only [List.set_cons_succ, total_cons]
      omega

theorem countP_set (f : β → List α) (mark : α → Bool) {l : List β} {i : Nat} {s : β}
    (h : l[i]? = some s) (t : β) :
    ((l.set i t).flatMap f).countP mark + (f s).countP mark =
      (l.flatMap f).countP mark + (f t).countP mark := by
  have hperm := (flatMap_set_perm f h t).countP_eq mark
  rwa [List.countP_append, List.countP_append] at hperm

end Regions

/-! ## Exchanges -/

section Exchanges

variable {α : Type*} {l l' l'' k k' gone added gone' added' : List α}

/-- The second list is the first one, less `gone` and with `added`, in any order. -/
def Exchange (l l' gone added : List α) : Prop := (l' ++ gone).Perm (l ++ added)

theorem Exchange.refl (l : List α) : Exchange l l [] [] := List.Perm.refl _

theorem Exchange.trans (h : Exchange l l' gone added) (h' : Exchange l' l'' gone' added') :
    Exchange l l'' (gone ++ gone') (added ++ added') := by
  have hfirst : (l' ++ (gone ++ added')).Perm (l ++ (added ++ added')) := by
    rw [← List.append_assoc, ← List.append_assoc]
    exact h.append_right added'
  refine List.Perm.trans ?_ hfirst
  calc l'' ++ (gone ++ gone')
    _ |>.Perm (l'' ++ (gone' ++ gone)) := List.perm_append_comm.append_left _
    _ = l'' ++ gone' ++ gone := (List.append_assoc _ _ _).symm
    _ |>.Perm (l' ++ added' ++ gone) := h'.append_right gone
    _ = l' ++ (added' ++ gone) := List.append_assoc _ _ _
    _ |>.Perm (l' ++ (gone ++ added')) := List.perm_append_comm.append_left _

/-- What is given away and added again stays. -/
theorem Exchange.cancel {rest : List α} (h : Exchange l l' (gone ++ rest) (added ++ rest)) :
    Exchange l l' gone added := by
  rw [Exchange, ← List.append_assoc, ← List.append_assoc] at h
  exact (List.perm_append_right_iff rest).mp h

/-- What was added is replaced. -/
theorem Exchange.replace {x y : α} (h : Exchange l l' gone [x]) (h' : Exchange l' l'' [x] [y]) :
    Exchange l l'' gone [y] := by
  have hboth : (l'' ++ (gone ++ [x])).Perm (l ++ [x, y]) := h.trans h'
  have hswap : Exchange l l'' (gone ++ [x]) ([y] ++ [x]) :=
    List.Perm.trans hboth ((List.Perm.swap y x []).append_left l)
  exact hswap.cancel

/-- What was not given away is still there. -/
theorem Exchange.mem (h : Exchange l l' gone added) {e : α} (he : e ∈ l) (hgone : e ∉ gone) : e ∈ l' :=
  (List.mem_append.mp (h.mem_iff.mpr (List.mem_append_left added he))).resolve_right hgone

theorem Exchange.mem_new {y : α} (h : Exchange l l' [] [y]) : y ∈ l' := by
  have hy : y ∈ l' ++ [] := h.mem_iff.mpr (List.mem_append_right _ (List.mem_singleton_self y))
  rwa [List.append_nil] at hy

/-- What is added in place of one of the list is there. -/
theorem Exchange.mem_added {x y : α} (h : Exchange l l' [x] [y]) (hx : x ∈ l) : y ∈ l' := by
  by_cases hxy : y = x
  · subst hxy
    exact ((List.perm_append_right_iff _).mp h).mem_iff.mpr hx
  · have hy : y ∈ l' ++ [x] := h.mem_iff.mpr (List.mem_append_right _ (List.mem_singleton_self y))
    exact (List.mem_append.mp hy).resolve_right (by simpa using hxy)

/-- The same exchange keeps two lists the same. -/
theorem Exchange.perm (h : Exchange l l' gone added) (h' : Exchange k k' gone added) (hl : l.Perm k) :
    l'.Perm k' :=
  (List.perm_append_right_iff gone).mp ((List.Perm.trans h (hl.append_right added)).trans (List.Perm.symm h'))

end Exchanges

/-! ## Pairings -/

section Pairings

variable {α β : Type*} {R : α → β → Prop} {l : List α} {r : List β}

theorem forall₂_mem_right (h : List.Forall₂ R l r) {y : β} (hy : y ∈ r) : ∃ x ∈ l, R x y := by
  induction h with
  | nil => cases hy
  | @cons x z l r hxz hrest ih =>
    rcases List.mem_cons.mp hy with rfl | hy
    · exact ⟨x, List.mem_cons_self, hxz⟩
    · obtain ⟨w, hw, hR⟩ := ih hy
      exact ⟨w, List.mem_cons_of_mem x hw, hR⟩

theorem total_forall₂_le {f : α → Nat} {g : β → Nat} (h : List.Forall₂ R l r) (hR : ∀ x y, R x y → g y ≤ f x) :
    total g r ≤ total f l := by
  induction h with
  | nil => exact le_rfl
  | cons hxy _ ih =>
    rw [total_cons, total_cons]
    exact Nat.add_le_add (hR _ _ hxy) ih

/-- What holds between any two elements holds between their partners in its own terms. -/
theorem forall₂_pairwise {S : α → α → Prop} {T : β → β → Prop} (h : List.Forall₂ R l r)
    (hS : ∀ {a b a' b'}, R a b → R a' b' → S a a' → T b b') (hl : l.Pairwise S) : r.Pairwise T := by
  induction h with
  | nil => exact .nil
  | @cons x y l r hxy hrest ih =>
    obtain ⟨hx, hl⟩ := List.pairwise_cons.mp hl
    refine .cons (fun z hz => ?_) (ih hl)
    obtain ⟨w, hw, hR⟩ := forall₂_mem_right hrest hz
    exact hS hxy hR (hx w hw)

/-- The first element that a test selects leaves a pairing with its partner. -/
theorem forall₂_eraseP {q : β → Bool} (h : List.Forall₂ R l r) (hex : ∃ y ∈ r, q y = true) :
    ∃ x y l', R x y ∧ q y = true ∧ l.Perm (x :: l') ∧ List.Forall₂ R l' (r.eraseP q) := by
  induction h with
  | nil =>
    obtain ⟨y, hy, -⟩ := hex
    cases hy
  | @cons x y l r hxy hrest ih =>
    by_cases hq : q y = true
    · refine ⟨x, y, l, hxy, hq, .refl _, ?_⟩
      rwa [List.eraseP_cons_of_pos hq]
    · obtain ⟨z, hz, hqz⟩ := hex
      have hmem : z ∈ r := (List.mem_cons.mp hz).resolve_left fun heq => hq (heq ▸ hqz)
      obtain ⟨x', y', l', hR, hq', hperm, hleft⟩ := ih ⟨z, hmem, hqz⟩
      refine ⟨x', y', x :: l', hR, hq', (hperm.cons x).trans (.swap x' x l'), ?_⟩
      rw [List.eraseP_cons_of_neg hq]
      exact .cons hxy hleft

end Pairings

/-! ## Packing -/

/-- Extents that lie apart cover as many addresses as they have bytes. -/
theorem exists_cover {es : List (Nat × Nat)} (h : es.Pairwise Apart) :
    ∃ S : Finset Nat, S.card = total Prod.snd es ∧ ∀ a, a ∈ S ↔ ∃ e ∈ es, e.1 ≤ a ∧ a < e.1 + e.2 := by
  induction es with
  | nil => exact ⟨∅, rfl, by simp⟩
  | cons e es ih =>
    obtain ⟨he, hes⟩ := List.pairwise_cons.mp h
    obtain ⟨S, hcard, hmem⟩ := ih hes
    have hdisjoint : Disjoint (Finset.Ico e.1 (e.1 + e.2)) S := by
      rw [Finset.disjoint_left]
      intro a ha hS
      obtain ⟨e', he', hle, hlt⟩ := (hmem a).mp hS
      have hapart := he e' he'
      rw [Finset.mem_Ico] at ha
      unfold Apart at hapart
      omega
    refine ⟨Finset.Ico e.1 (e.1 + e.2) ∪ S, ?_, fun a => ?_⟩
    · rw [Finset.card_union_of_disjoint hdisjoint, Nat.card_Ico, hcard, total_cons]
      omega
    · rw [Finset.mem_union, Finset.mem_Ico, hmem]
      simp

/-- Extents that lie apart in a range have no more bytes than it. -/
theorem total_le_of_apart {es : List (Nat × Nat)} (lo : Nat) {hi : Nat} (h : es.Pairwise Apart)
    (hin : ∀ e ∈ es, lo ≤ e.1 ∧ e.1 + e.2 ≤ hi) : total Prod.snd es ≤ hi - lo := by
  obtain ⟨S, hcard, hmem⟩ := exists_cover h
  rw [← hcard, ← Nat.card_Ico]
  apply Finset.card_le_card
  intro a ha
  obtain ⟨e, he, hle, hlt⟩ := (hmem a).mp ha
  have hbounds := hin e he
  rw [Finset.mem_Ico]
  omega

end Turf.Lib.Extents
