import Mathlib.Data.List.Infix

/-!
# Patterns of texts

A pattern is a sequence of items, each of which takes a part of the text: a literal, one of several
literals, a run of characters of a class, as long or as short as the rest of the pattern allows, or
nothing, at the end. Matching goes back to the last choice where the rest of the pattern fails, and
the first success counts. A match is the list of the parts taken, one for each item.
-/
namespace Turf.Lib.Pattern

abbrev Text := List Char

inductive Item where
  | text (t : Text)
  | oneOf (ts : List Text)
  | greedy (p : Char → Bool)
  | reluctant (p : Char → Bool) (least : Nat)
  | atEnd

abbrev Match := List Text

/-- One more character for the part that was taken first. -/
def extend (c : Char) : Match → Match
  | [] => []
  | part :: parts => (c :: part) :: parts

variable {p : Char → Bool} {k : Text → Option Match} {parts : Match} {a b s : Text} {n : Nat}

/-- As many characters as possible, then what `k` matches. -/
def greedyRun (p : Char → Bool) (k : Text → Option Match) : Text → Option Match
  | [] => (k []).map ([] :: ·)
  | c :: s =>
    (if p c then (greedyRun p k s).map (extend c) else none) <|> (k (c :: s)).map ([] :: ·)

/-- At least so many characters but as few as possible, then what `k` matches. -/
def reluctantRun (p : Char → Bool) (k : Text → Option Match) : Nat → Text → Option Match
  | 0, [] => (k []).map ([] :: ·)
  | 0, c :: s =>
    (k (c :: s)).map ([] :: ·) <|> if p c then (reluctantRun p k 0 s).map (extend c) else none
  | _ + 1, [] => none
  | n + 1, c :: s => if p c then (reluctantRun p k n s).map (extend c) else none

/-- A match at the start of the text. The end is also before a final line feed. -/
def matchItems : List Item → Text → Option Match
  | [], _ => some []
  | .text t :: is, s => if t <+: s then (matchItems is (s.drop t.length)).map (t :: ·) else none
  | .oneOf ts :: is, s =>
    ts.findSome? fun t => if t <+: s then (matchItems is (s.drop t.length)).map (t :: ·) else none
  | .greedy p :: is, s => greedyRun p (matchItems is) s
  | .reluctant p n :: is, s => reluctantRun p (matchItems is) n s
  | .atEnd :: is, s => if s = [] ∨ s = ['\n'] then (matchItems is s).map ([] :: ·) else none

/-- The first match anywhere in the text, with what lies before it. -/
def search (is : List Item) : Text → Option (Text × Match)
  | [] => (matchItems is []).map ([], ·)
  | c :: s =>
    (matchItems is (c :: s)).map ([], ·) <|> (search is s).map fun m => (c :: m.1, m.2)

/-! ## Runs -/

theorem greedyRun_of_stop (hb : ∀ c, b.head? = some c → p c = false) :
    greedyRun p k b = (k b).map ([] :: ·) := by
  cases b with
  | nil => rfl
  | cons c s =>
    rw [greedyRun, hb c rfl]
    rfl

/-- A run is taken to its end if the rest of the pattern matches there. -/
theorem greedyRun_some (ha : ∀ c ∈ a, p c) (hb : ∀ c, b.head? = some c → p c = false)
    (h : k b = some parts) : greedyRun p k (a ++ b) = some (a :: parts) := by
  induction a with
  | nil => rw [List.nil_append, greedyRun_of_stop hb, h, Option.map_some]
  | cons c a ih =>
    obtain ⟨hc, ha⟩ := List.forall_mem_cons.mp ha
    rw [List.cons_append, greedyRun, if_pos hc, ih ha]
    rfl

/-- It is always taken to its end if the rest of the pattern cannot start inside it. -/
theorem greedyRun_eq (ha : ∀ c ∈ a, p c) (hb : ∀ c, b.head? = some c → p c = false)
    (hk : ∀ c s, p c → k (c :: s) = none) : greedyRun p k (a ++ b) = (k b).map (a :: ·) := by
  cases h : k b with
  | some parts => rw [greedyRun_some ha hb h, Option.map_some]
  | none =>
    induction a with
    | nil => rw [List.nil_append, greedyRun_of_stop hb, h, Option.map_none]
    | cons c a ih =>
      obtain ⟨hc, ha⟩ := List.forall_mem_cons.mp ha
      rw [List.cons_append, greedyRun, if_pos hc, ih ha, hk c _ hc]
      rfl

theorem greedyRun_none (h : ∀ t, t <:+ s → k t = none) : greedyRun p k s = none := by
  induction s with
  | nil => rw [greedyRun, h [] (List.suffix_refl _), Option.map_none]
  | cons c s ih =>
    have hs : greedyRun p k s = none := ih fun t ht => h t (ht.trans (List.suffix_cons c s))
    rw [greedyRun, hs, h _ (List.suffix_refl _), Option.map_none, Option.map_none, ite_self]
    rfl

/-- A run goes on to the first place where the rest of the pattern matches. -/
theorem reluctantRun_some (ha : ∀ c ∈ a, p c) (hn : n ≤ a.length) (h : k b = some parts)
    (hk : ∀ a₁ a₂, a = a₁ ++ a₂ → n ≤ a₁.length → a₂ ≠ [] → k (a₂ ++ b) = none) :
    reluctantRun p k n (a ++ b) = some (a :: parts) := by
  induction a generalizing n with
  | nil =>
    obtain rfl : n = 0 := Nat.le_zero.mp hn
    cases b with
    | nil => rw [List.append_nil, reluctantRun, h, Option.map_some]
    | cons c s => rw [List.nil_append, reluctantRun, h]; rfl
  | cons c a ih =>
    obtain ⟨hc, ha⟩ := List.forall_mem_cons.mp ha
    cases n with
    | zero =>
      have hnone : k (c :: (a ++ b)) = none := hk [] (c :: a) rfl (Nat.le_refl 0) (by simp)
      have hrest : reluctantRun p k 0 (a ++ b) = some (a :: parts) := by
        apply ih ha (Nat.zero_le _)
        intro a₁ a₂ heq _ hne
        exact hk (c :: a₁) a₂ (by rw [heq]; rfl) (Nat.zero_le _) hne
      rw [List.cons_append, reluctantRun, hnone, if_pos hc, hrest]
      rfl
    | succ n =>
      have hrest : reluctantRun p k n (a ++ b) = some (a :: parts) := by
        apply ih ha (Nat.le_of_succ_le_succ hn)
        intro a₁ a₂ heq hle hne
        exact hk (c :: a₁) a₂ (by rw [heq]; rfl) (Nat.succ_le_succ hle) hne
      rw [List.cons_append, reluctantRun, if_pos hc, hrest]
      rfl

theorem reluctantRun_none (h : ∀ t, t <:+ s → k t = none) : reluctantRun p k n s = none := by
  induction s generalizing n with
  | nil =>
    cases n with
    | zero => rw [reluctantRun, h [] (List.suffix_refl _), Option.map_none]
    | succ n => rfl
  | cons c s ih =>
    have hs : ∀ n, reluctantRun p k n s = none :=
      fun n => ih fun t ht => h t (ht.trans (List.suffix_cons c s))
    cases n with
    | zero =>
      rw [reluctantRun, hs, h _ (List.suffix_refl _), Option.map_none, Option.map_none, ite_self]
      rfl
    | succ n => rw [reluctantRun, hs, Option.map_none, ite_self]

/-- A run may end wherever the rest of the pattern matches. -/
theorem greedyRun_isSome (ha : ∀ c ∈ a, p c) (h : (k b).isSome) :
    (greedyRun p k (a ++ b)).isSome := by
  induction a with
  | nil =>
    cases b with
    | nil => simpa [greedyRun] using h
    | cons c s => simp [greedyRun, h]
  | cons c a ih =>
    obtain ⟨hc, ha⟩ := List.forall_mem_cons.mp ha
    simp [greedyRun, hc, ih ha]

/-- What a run takes, and what the rest of the pattern matches behind it. -/
theorem greedyRun_spec {m : Match} (h : greedyRun p k s = some m) :
    ∃ a b parts, s = a ++ b ∧ (∀ c ∈ a, p c) ∧ k b = some parts ∧ m = a :: parts := by
  induction s generalizing m with
  | nil =>
    obtain ⟨parts, hk, rfl⟩ := Option.map_eq_some_iff.mp h
    exact ⟨[], [], parts, rfl, by simp, hk, rfl⟩
  | cons c s ih =>
    rw [greedyRun, Option.orElse_eq_orElse, Option.orElse_eq_or, Option.or_eq_some_iff] at h
    rcases h with h | ⟨-, h⟩
    · split at h
      · next hc =>
        obtain ⟨m', hm', rfl⟩ := Option.map_eq_some_iff.mp h
        obtain ⟨a, b, parts, rfl, ha, hk, rfl⟩ := ih hm'
        exact ⟨c :: a, b, parts, rfl, List.forall_mem_cons.mpr ⟨hc, ha⟩, hk, rfl⟩
      · cases h
    · obtain ⟨parts, hk, rfl⟩ := Option.map_eq_some_iff.mp h
      exact ⟨[], c :: s, parts, rfl, by simp, hk, rfl⟩

theorem reluctantRun_spec {m : Match} (h : reluctantRun p k n s = some m) :
    ∃ a b parts, s = a ++ b ∧ (∀ c ∈ a, p c) ∧ n ≤ a.length ∧ k b = some parts ∧ m = a :: parts := by
  induction s generalizing n m with
  | nil =>
    cases n with
    | zero =>
      obtain ⟨parts, hk, rfl⟩ := Option.map_eq_some_iff.mp h
      exact ⟨[], [], parts, rfl, by simp, Nat.le_refl 0, hk, rfl⟩
    | succ n => cases h
  | cons c s ih =>
    have hstep : ∀ {n : Nat} {m : Match},
        (if p c then (reluctantRun p k n s).map (extend c) else none) = some m →
        ∃ a b parts, c :: s = a ++ b ∧ (∀ c ∈ a, p c) ∧ n + 1 ≤ a.length ∧ k b = some parts ∧
          m = a :: parts := by
      intro n m h
      split at h
      · next hc =>
        obtain ⟨m', hm', rfl⟩ := Option.map_eq_some_iff.mp h
        obtain ⟨a, b, parts, rfl, ha, hn, hk, rfl⟩ := ih hm'
        exact ⟨c :: a, b, parts, rfl, List.forall_mem_cons.mpr ⟨hc, ha⟩, Nat.succ_le_succ hn, hk, rfl⟩
      · cases h
    cases n with
    | zero =>
      rw [reluctantRun, Option.orElse_eq_orElse, Option.orElse_eq_or, Option.or_eq_some_iff] at h
      rcases h with h | ⟨-, h⟩
      · obtain ⟨parts, hk, rfl⟩ := Option.map_eq_some_iff.mp h
        exact ⟨[], c :: s, parts, rfl, by simp, Nat.le_refl 0, hk, rfl⟩
      · obtain ⟨a, b, parts, heq, ha, -, hk, rfl⟩ := hstep h
        exact ⟨a, b, parts, heq, ha, Nat.zero_le _, hk, rfl⟩
    | succ n =>
      rw [reluctantRun] at h
      exact hstep h

/-- It ends at the first place where the rest of the pattern matches. -/
theorem reluctantRun_first {m : Match} (h : reluctantRun p k 0 s = some m) :
    ∃ a b parts, s = a ++ b ∧ (∀ c ∈ a, p c) ∧ k b = some parts ∧ m = a :: parts ∧
      ∀ a₁ a₂, a = a₁ ++ a₂ → a₂ ≠ [] → k (a₂ ++ b) = none := by
  have hnil : ∀ (b : Text) (a₁ a₂ : Text), [] = a₁ ++ a₂ → a₂ ≠ [] → k (a₂ ++ b) = none :=
    fun _ _ _ heq hne => absurd (List.append_eq_nil_iff.mp heq.symm).2 hne
  induction s generalizing m with
  | nil =>
    obtain ⟨parts, hk, rfl⟩ := Option.map_eq_some_iff.mp h
    exact ⟨[], [], parts, rfl, by simp, hk, rfl, hnil []⟩
  | cons c s ih =>
    rw [reluctantRun, Option.orElse_eq_orElse, Option.orElse_eq_or, Option.or_eq_some_iff] at h
    rcases h with h | ⟨hnone, h⟩
    · obtain ⟨parts, hk, rfl⟩ := Option.map_eq_some_iff.mp h
      exact ⟨[], c :: s, parts, rfl, by simp, hk, rfl, hnil (c :: s)⟩
    · split at h
      · next hc =>
        obtain ⟨m', hm', rfl⟩ := Option.map_eq_some_iff.mp h
        obtain ⟨a, b, parts, rfl, ha, hk, rfl, hfirst⟩ := ih hm'
        refine ⟨c :: a, b, parts, rfl, List.forall_mem_cons.mpr ⟨hc, ha⟩, hk, rfl, ?_⟩
        intro a₁ a₂ heq hne
        cases a₁ with
        | nil =>
          rw [← (show c :: a = a₂ from heq)]
          exact Option.map_eq_none_iff.mp hnone
        | cons d a₁ => exact hfirst a₁ a₂ (List.cons.inj heq).2 hne
      · cases h

/-! ## Items -/

variable {is : List Item} {t : Text}

theorem matchItems_text (t s : Text) (is : List Item) :
    matchItems (.text t :: is) (t ++ s) = (matchItems is s).map (t :: ·) := by
  rw [matchItems, if_pos (List.prefix_append t s), List.drop_left]

theorem matchItems_text_spec {m : Match} (h : matchItems (.text t :: is) s = some m) :
    ∃ rest parts, s = t ++ rest ∧ matchItems is rest = some parts ∧ m = t :: parts := by
  rw [matchItems] at h
  split at h
  · next hstart =>
    obtain ⟨rest, rfl⟩ := hstart
    rw [List.drop_left] at h
    obtain ⟨parts, hparts, rfl⟩ := Option.map_eq_some_iff.mp h
    exact ⟨rest, parts, rfl, hparts, rfl⟩
  · cases h

theorem matchItems_char (c : Char) (s : Text) (is : List Item) :
    matchItems (.text [c] :: is) (c :: s) = (matchItems is s).map ([c] :: ·) :=
  matchItems_text [c] s is

theorem matchItems_text_none (h : ¬ t <+: s) : matchItems (.text t :: is) s = none := by
  rw [matchItems, if_neg h]

/-- A literal does not start with another character than its first one. -/
theorem matchItems_text_head {c d : Char} {t s : Text} (h : c ≠ d) :
    matchItems (.text (c :: t) :: is) (d :: s) = none :=
  matchItems_text_none fun hpre => h (List.cons_prefix_cons.mp hpre).1

/-- What remains is a run to the end. -/
theorem matchItems_rest {s : Text} (hfeed : p '\n') :
    matchItems [.greedy p, .atEnd] s = if s.all p then some [s, []] else none := by
  show greedyRun p (matchItems [.atEnd]) s = _
  split
  · next hall =>
    have hend : matchItems [.atEnd] [] = some [[]] := rfl
    have hrun := greedyRun_some (List.all_eq_true.mp hall) (b := []) (fun c hc => by cases hc) hend
    rw [List.append_nil] at hrun
    exact hrun
  · next hall =>
    induction s with
    | nil => exact absurd rfl hall
    | cons c s ih =>
      have hend : matchItems [.atEnd] (c :: s) = none := by
        rw [matchItems, if_neg]
        intro h
        rcases h with h | h
        · cases h
        · cases h
          simp [hfeed] at hall
      rw [greedyRun, hend]
      by_cases hc : p c
      · have hs : ¬ s.all p = true := by simpa [hc] using hall
        rw [if_pos hc, ih hs]
        rfl
      · rw [if_neg hc]
        rfl

/-! ## Searching -/

theorem search_of_match {m : Match} (h : matchItems is s = some m) : search is s = some ([], m) := by
  cases s with
  | nil => rw [search, h, Option.map_some]
  | cons c s => rw [search, h]; rfl

/-- A part of the text where the pattern does not start is passed. -/
theorem search_append {m : Match} (h : matchItems is b = some m)
    (ha : ∀ a₁ a₂, a = a₁ ++ a₂ → a₂ ≠ [] → matchItems is (a₂ ++ b) = none) :
    search is (a ++ b) = some (a, m) := by
  induction a with
  | nil => exact search_of_match h
  | cons c a ih =>
    have hnone : matchItems is (c :: (a ++ b)) = none := ha [] (c :: a) rfl (by simp)
    have hrest : search is (a ++ b) = some (a, m) :=
      ih fun a₁ a₂ heq hne => ha (c :: a₁) a₂ (by rw [heq]; rfl) hne
    rw [List.cons_append, search, hnone, hrest]
    rfl

theorem search_none (h : ∀ t, t <:+ s → matchItems is t = none) : search is s = none := by
  induction s with
  | nil => rw [search, h [] (List.suffix_refl _), Option.map_none]
  | cons c s ih =>
    have hs : search is s = none := ih fun t ht => h t (ht.trans (List.suffix_cons c s))
    rw [search, h _ (List.suffix_refl _), hs]
    rfl

/-- What lies before the first match, where the pattern does not start. -/
theorem search_spec {m : Match} (h : search is s = some (a, m)) : ∃ b, s = a ++ b ∧
    matchItems is b = some m ∧ ∀ a₁ a₂, a = a₁ ++ a₂ → a₂ ≠ [] → matchItems is (a₂ ++ b) = none := by
  have hnil : ∀ (b : Text) (a₁ a₂ : Text), [] = a₁ ++ a₂ → a₂ ≠ [] →
      matchItems is (a₂ ++ b) = none :=
    fun _ _ _ heq hne => absurd (List.append_eq_nil_iff.mp heq.symm).2 hne
  induction s generalizing a m with
  | nil =>
    obtain ⟨m', hm, heq⟩ := Option.map_eq_some_iff.mp h
    cases heq
    exact ⟨[], rfl, hm, hnil []⟩
  | cons c s ih =>
    rw [search, Option.orElse_eq_orElse, Option.orElse_eq_or, Option.or_eq_some_iff] at h
    rcases h with h | ⟨hnone, h⟩
    · obtain ⟨m', hm, heq⟩ := Option.map_eq_some_iff.mp h
      cases heq
      exact ⟨c :: s, rfl, hm, hnil (c :: s)⟩
    · obtain ⟨⟨a', m'⟩, hm, heq⟩ := Option.map_eq_some_iff.mp h
      cases heq
      obtain ⟨b, rfl, hmatch, hfirst⟩ := ih hm
      refine ⟨b, rfl, hmatch, ?_⟩
      intro a₁ a₂ heq hne
      cases a₁ with
      | nil =>
        rw [← (show c :: a' = a₂ from heq)]
        exact Option.map_eq_none_iff.mp hnone
      | cons d a₁ => exact hfirst a₁ a₂ (List.cons.inj heq).2 hne

/-! ## Ends of texts -/

/-- The literals have none of the characters, and the last item is a literal. -/
def Closed (q : Char → Bool) : List Item → Prop
  | [] => False
  | [.text t] => t ≠ [] ∧ ∀ c ∈ t, q c = false
  | .text t :: is => (∀ c ∈ t, q c = false) ∧ Closed q is
  | .greedy _ :: is => Closed q is
  | .reluctant _ _ :: is => Closed q is
  | .oneOf _ :: _ => False
  | .atEnd :: _ => False

section Ends

variable {q : Char → Bool} {r r' : Text}

/-- A literal is not in a text of other characters, and not partly in one either. -/
theorem prefix_append_iff (ht : ∀ c ∈ t, q c = false) (hr : ∀ c ∈ r, q c) :
    t <+: s ++ r ↔ t <+: s := by
  refine ⟨fun h => ?_, fun h => h.trans (List.prefix_append s r)⟩
  rcases List.prefix_or_prefix_of_prefix h (List.prefix_append s r) with hs | hs
  · exact hs
  · obtain ⟨u, rfl⟩ := hs
    cases u with
    | nil => rw [List.append_nil]
    | cons c u =>
      have hc := ht c (by simp)
      have hur := (List.prefix_append_right_inj s).mp h
      rw [hr c (hur.subset (List.mem_cons_self ..))] at hc
      cases hc

/-- Nor is it anywhere else in the text. -/
theorem infix_append_iff (hne : t ≠ []) (ht : ∀ c ∈ t, q c = false) (hr : ∀ c ∈ r, q c) :
    t <:+: s ++ r ↔ t <:+: s := by
  refine ⟨fun h => ?_, fun h => h.trans (List.prefix_append s r).isInfix⟩
  induction s with
  | nil =>
    obtain ⟨c, t, rfl⟩ := List.exists_cons_of_ne_nil hne
    have hc := ht c (List.mem_cons_self ..)
    rw [hr c (h.subset (List.mem_cons_self ..))] at hc
    cases hc
  | cons c s ih =>
    rw [List.cons_append, List.infix_cons_iff, ← List.cons_append, prefix_append_iff ht hr] at h
    exact List.infix_cons_iff.mpr (h.imp_right ih)

/-- A text does not reach over a character that is not in it. -/
theorem infix_of_not_mem {c : Char} (hc : c ∉ t) (h : t <:+: a ++ c :: b) : t <:+: a ∨ t <:+: b := by
  have hnil : ∀ {t' : Text}, c ∉ t' → t' <+: c :: b → t' = [] := by
    intro t' hc' hprefix
    rcases List.prefix_cons_iff.mp hprefix with heq | ⟨t'', rfl, -⟩
    · exact heq
    · exact absurd (List.mem_cons_self ..) hc'
  rcases List.infix_append_iff.mp h with hleft | hright | ⟨t₁, t₂, rfl, hsuffix, hprefix⟩
  · exact .inl hleft
  · rcases List.infix_cons_iff.mp hright with hprefix | hright
    · rw [hnil hc hprefix]
      exact .inl List.nil_infix
    · exact .inr hright
  · rw [hnil (fun hmem => hc (List.mem_append_right _ hmem)) hprefix, List.append_nil]
    exact .inl hsuffix.isInfix

/-- A closed pattern does not match in a text of the characters. -/
theorem matchItems_closed_none (h : Closed q is) (hr : ∀ c ∈ r, q c) : matchItems is r = none := by
  induction is generalizing r with
  | nil => exact h.elim
  | cons item is ih =>
    have hsuffix : ∀ {t : Text}, t <:+ r → ∀ c ∈ t, q c := fun ht c hc => hr c (ht.subset hc)
    cases item with
    | oneOf ts => exact h.elim
    | atEnd => exact h.elim
    | greedy p => exact greedyRun_none fun t ht => ih h (hsuffix ht)
    | reluctant p n => exact reluctantRun_none fun t ht => ih h (hsuffix ht)
    | text t =>
      cases is with
      | nil =>
        apply matchItems_text_none
        intro hstart
        obtain ⟨c, t, rfl⟩ := List.exists_cons_of_ne_nil h.1
        have hc := h.2 c (List.mem_cons_self ..)
        rw [hr c (hstart.subset (List.mem_cons_self ..))] at hc
        cases hc
      | cons item is =>
        rw [matchItems]
        split
        · rw [ih h.2 (hsuffix (List.drop_suffix _ _)), Option.map_none]
        · rfl

theorem greedyRun_append (hk : ∀ s, k (s ++ r) = k (s ++ r')) (hr : ∀ t, t <:+ r → k t = none)
    (hr' : ∀ t, t <:+ r' → k t = none) (s : Text) :
    greedyRun p k (s ++ r) = greedyRun p k (s ++ r') := by
  induction s with
  | nil => rw [List.nil_append, List.nil_append, greedyRun_none hr, greedyRun_none hr']
  | cons c s ih =>
    have hhead : k (c :: (s ++ r)) = k (c :: (s ++ r')) := hk (c :: s)
    rw [List.cons_append, List.cons_append, greedyRun, greedyRun, ih, hhead]

theorem reluctantRun_append (hk : ∀ s, k (s ++ r) = k (s ++ r')) (hr : ∀ t, t <:+ r → k t = none)
    (hr' : ∀ t, t <:+ r' → k t = none) (n : Nat) (s : Text) :
    reluctantRun p k n (s ++ r) = reluctantRun p k n (s ++ r') := by
  induction s generalizing n with
  | nil => rw [List.nil_append, List.nil_append, reluctantRun_none hr, reluctantRun_none hr']
  | cons c s ih =>
    have hhead : k (c :: (s ++ r)) = k (c :: (s ++ r')) := hk (c :: s)
    rw [List.cons_append, List.cons_append]
    cases n with
    | zero => rw [reluctantRun, reluctantRun, ih, hhead]
    | succ n => rw [reluctantRun, reluctantRun, ih]

/-- What a closed pattern finds does not depend on the characters at the end of the text. -/
theorem matchItems_closed (h : Closed q is) (hr : ∀ c ∈ r, q c) (hr' : ∀ c ∈ r', q c) (s : Text) :
    matchItems is (s ++ r) = matchItems is (s ++ r') := by
  induction is generalizing s with
  | nil => exact h.elim
  | cons item is ih =>
    have hnone : ∀ {r : Text}, Closed q is → (∀ c ∈ r, q c) → ∀ t, t <:+ r →
        matchItems is t = none :=
      fun h hr t ht => matchItems_closed_none h fun c hc => hr c (ht.subset hc)
    cases item with
    | oneOf ts => exact h.elim
    | atEnd => exact h.elim
    | greedy p => exact greedyRun_append (ih h) (hnone h hr) (hnone h hr') s
    | reluctant p n => exact reluctantRun_append (ih h) (hnone h hr) (hnone h hr') n s
    | text t =>
      have ht : ∀ c ∈ t, q c = false := by
        cases is with
        | nil => exact h.2
        | cons item is => exact h.1
      rw [matchItems, matchItems, if_congr ((prefix_append_iff ht hr).trans
        (prefix_append_iff ht hr').symm) rfl rfl]
      split
      · next hstart =>
        obtain ⟨u, rfl⟩ := (prefix_append_iff ht hr').mp hstart
        rw [List.append_assoc, List.append_assoc, List.drop_left, List.drop_left]
        cases is with
        | nil => rfl
        | cons item is => rw [ih h.2]
      · rfl

theorem search_closed (h : Closed q is) (hr : ∀ c ∈ r, q c) (hr' : ∀ c ∈ r', q c) (s : Text) :
    search is (s ++ r) = search is (s ++ r') := by
  induction s with
  | nil =>
    have hnone : ∀ {r : Text}, (∀ c ∈ r, q c) → search is r = none := fun hr =>
      search_none fun t ht => matchItems_closed_none h fun c hc => hr c (ht.subset hc)
    rw [List.nil_append, List.nil_append, hnone hr, hnone hr']
  | cons c s ih =>
    have hhead : matchItems is (c :: (s ++ r)) = matchItems is (c :: (s ++ r')) :=
      matchItems_closed h hr hr' (c :: s)
    rw [List.cons_append, List.cons_append, search, search, hhead, ih]

end Ends

end Turf.Lib.Pattern
