import Mathlib.Data.List.Nodup
import Mathlib.Data.List.Perm.Basic
import Mathlib.Order.Lattice

/-!
# Digital trees

A binary tree of distinct keys in which the digits of a key lead to it: below a node at depth `d`
the keys to the left have digit 0 at position `d` and those to the right have digit 1. The key of
the node itself is not bound by the digits at `d` and below, so any key of a subtree can take the
place of its root.
-/
namespace Turf.Lib.DigitalTree

inductive Trie (κ α : Type*) where
  | nil
  | node (key : κ) (value : α) (left right : Trie κ α)
  deriving DecidableEq, Repr

namespace Trie

variable {κ α : Type*}

def entries : Trie κ α → List (κ × α)
  | nil => []
  | node k v l r => (k, v) :: (l.entries ++ r.entries)

def keys (t : Trie κ α) : List κ := t.entries.map Prod.fst

def isNil : Trie κ α → Bool
  | nil => true
  | node _ _ _ _ => false

@[simp] theorem entries_nil : (nil : Trie κ α).entries = [] := rfl

@[simp] theorem entries_node (k : κ) (v : α) (l r : Trie κ α) :
    (node k v l r).entries = (k, v) :: (l.entries ++ r.entries) := rfl

@[simp] theorem keys_nil : (nil : Trie κ α).keys = [] := rfl

@[simp] theorem keys_node (k : κ) (v : α) (l r : Trie κ α) :
    (node k v l r).keys = k :: (l.keys ++ r.keys) := by
  simp [keys]

theorem mem_keys {t : Trie κ α} {k : κ} : k ∈ t.keys ↔ ∃ v, (k, v) ∈ t.entries := by
  simp [keys]

/-! ## Operations -/

/-- The rightmost leaf of a tree, taking the right one of two subtrees, and what is left. -/
def popLeaf : Trie κ α → Option ((κ × α) × Trie κ α)
  | nil => none
  | node k v l r =>
    match popLeaf r with
    | some (e, r') => some (e, node k v l r')
    | none =>
      match popLeaf l with
      | some (e, l') => some (e, node k v l' r)
      | none => some ((k, v), nil)

/-- What takes the place of a node with these subtrees. -/
def graft (l r : Trie κ α) : Trie κ α :=
  match popLeaf r with
  | some (e, r') => node e.1 e.2 l r'
  | none =>
    match popLeaf l with
    | some (e, l') => node e.1 e.2 l' r
    | none => nil

section Walks

variable [DecidableEq κ]

/-- The value of a key is replaced, or its node taken out. -/
def alter (key : κ) (f : α → Option α) : Trie κ α → Trie κ α
  | nil => nil
  | node k v l r =>
    if k = key then
      match f v with
      | some v' => node k v' l r
      | none => graft l r
    else node k v (alter key f l) (alter key f r)

variable (dig : κ → Nat → Bool)

/-- The digits of the key lead to its node, whose value is changed, or to a free place. -/
def insert (new : α) (join : α → α) (key : κ) : Nat → Trie κ α → Trie κ α
  | _, nil => node key new nil nil
  | d, node k v l r =>
    if k = key then node k (join v) l r
    else if dig key d then node k v l (insert new join key (d + 1) r)
    else node k v (insert new join key (d + 1) l) r

def find? (key : κ) : Nat → Trie κ α → Option α
  | _, nil => none
  | d, node k v l r =>
    if k = key then some v else if dig key d then find? key (d + 1) r else find? key (d + 1) l

/-- The entries on the way to a key. -/
def path (key : κ) : Nat → Trie κ α → List (κ × α)
  | _, nil => []
  | d, node k v l r =>
    (k, v) :: if k = key then [] else if dig key d then path key (d + 1) r else path key (d + 1) l

/-- The deepest subtree that lies to the right of the way to a key. -/
def beyond (key : κ) : Nat → Trie κ α → Trie κ α
  | _, nil => nil
  | d, node k _ l r =>
    if k = key then nil
    else if dig key d then beyond key (d + 1) r
    else
      match beyond key (d + 1) l with
      | nil => r
      | t => t

end Walks

/-- The entries on the way down that keeps to the left as long as there is a left subtree. -/
def spine : Trie κ α → List (κ × α)
  | nil => []
  | node k v nil r => (k, v) :: spine r
  | node k v (node k' v' l' r') _ => (k, v) :: spine (node k' v' l' r')

/-! ## Places -/

section Placed

variable (dig : κ → Nat → Bool)

def Placed : Nat → Trie κ α → Prop
  | _, nil => True
  | d, node k _ l r =>
    (∀ k' ∈ l.keys, k' ≠ k ∧ dig k' d = false) ∧ (∀ k' ∈ r.keys, k' ≠ k ∧ dig k' d = true) ∧
      Placed (d + 1) l ∧ Placed (d + 1) r

variable {dig} {d : Nat} {t t' l r : Trie κ α} {k key : κ} {v : α} {e : κ × α}

theorem Placed.nodup (h : Placed dig d t) : t.keys.Nodup := by
  induction t generalizing d with
  | nil => exact List.nodup_nil
  | node k v l r ihl ihr =>
    obtain ⟨hleft, hright, hl, hr⟩ := h
    rw [keys_node, List.nodup_cons, List.nodup_append]
    refine ⟨?_, ihl hl, ihr hr, ?_⟩
    · intro hmem
      rcases List.mem_append.mp hmem with hmem | hmem
      · exact (hleft k hmem).1 rfl
      · exact (hright k hmem).1 rfl
    · intro a ha b hb heq
      have hfalse := (hleft a ha).2
      rw [heq, (hright b hb).2] at hfalse
      cases hfalse

theorem popLeaf_eq_none : popLeaf t = none ↔ t = nil := by
  cases t with
  | nil => exact iff_of_true rfl rfl
  | node k v l r =>
    rw [popLeaf]
    split
    · simp
    · split <;> simp

theorem popLeaf_cases (h : popLeaf (node k v l r) = some (e, t')) :
    (∃ r', popLeaf r = some (e, r') ∧ t' = node k v l r') ∨
    (∃ l', popLeaf l = some (e, l') ∧ t' = node k v l' r) ∨
    (l = nil ∧ r = nil ∧ e = (k, v) ∧ t' = nil) := by
  rw [popLeaf] at h
  cases hr : popLeaf r with
  | some p =>
    rw [hr] at h
    obtain ⟨rfl, rfl⟩ := Prod.mk.inj (Option.some.inj h)
    exact .inl ⟨_, rfl, rfl⟩
  | none =>
    cases hl : popLeaf l with
    | some p =>
      rw [hr, hl] at h
      obtain ⟨rfl, rfl⟩ := Prod.mk.inj (Option.some.inj h)
      exact .inr (.inl ⟨_, rfl, rfl⟩)
    | none =>
      rw [hr, hl] at h
      obtain ⟨rfl, rfl⟩ := Prod.mk.inj (Option.some.inj h)
      exact .inr (.inr ⟨popLeaf_eq_none.mp hl, popLeaf_eq_none.mp hr, rfl, rfl⟩)

theorem popLeaf_entries (h : popLeaf t = some (e, t')) : t.entries.Perm (e :: t'.entries) := by
  induction t generalizing e t' with
  | nil => cases h
  | node k v l r ihl ihr =>
    rcases popLeaf_cases h with ⟨r', hr, rfl⟩ | ⟨l', hl, rfl⟩ | ⟨rfl, rfl, rfl, rfl⟩
    · have hperm := ((ihr hr).append_left l.entries).cons (k, v)
      exact hperm.trans (@List.perm_middle _ _ ((k, v) :: l.entries) _)
    · have hperm := ((ihl hl).append_right r.entries).cons (k, v)
      exact hperm.trans (List.Perm.swap _ _ _)
    · exact .refl _

theorem keys_perm (h : t.entries.Perm (e :: t'.entries)) : t.keys.Perm (e.1 :: t'.keys) :=
  h.map Prod.fst

theorem popLeaf_placed (h : popLeaf t = some (e, t')) (ht : Placed dig d t) : Placed dig d t' := by
  induction t generalizing d e t' with
  | nil => cases h
  | node k v l r ihl ihr =>
    obtain ⟨hleft, hright, hl, hr⟩ := ht
    rcases popLeaf_cases h with ⟨r', hpop, rfl⟩ | ⟨l', hpop, rfl⟩ | ⟨-, -, -, rfl⟩
    · refine ⟨hleft, fun k' hk' => hright k' ?_, hl, ihr hpop hr⟩
      exact (keys_perm (popLeaf_entries hpop)).mem_iff.mpr (List.mem_cons_of_mem _ hk')
    · refine ⟨fun k' hk' => hleft k' ?_, hright, ihl hpop hl, hr⟩
      exact (keys_perm (popLeaf_entries hpop)).mem_iff.mpr (List.mem_cons_of_mem _ hk')
    · trivial

theorem graft_entries (l r : Trie κ α) : (graft l r).entries.Perm (l.entries ++ r.entries) := by
  rw [graft]
  split
  · next e r' hpop =>
    exact (List.perm_middle.symm).trans ((popLeaf_entries hpop).symm.append_left _)
  · next hnil =>
    rw [popLeaf_eq_none.mp hnil]
    split
    · next e l' hpop => exact (popLeaf_entries hpop).symm.append_right _
    · next hnil' =>
      rw [popLeaf_eq_none.mp hnil']
      exact .refl _

/-- The other keys of a subtree from which one was taken. -/
theorem ne_of_popped (h : popLeaf t = some (e, t')) (ht : t.keys.Nodup) :
    ∀ k' ∈ t'.keys, k' ≠ e.1 ∧ k' ∈ t.keys := by
  have hperm := keys_perm (popLeaf_entries h)
  have hnot := (List.nodup_cons.mp (hperm.nodup_iff.mp ht)).1
  exact fun k' hk' => ⟨ne_of_mem_of_not_mem hk' hnot,
    hperm.mem_iff.mpr (List.mem_cons_of_mem _ hk')⟩

theorem Placed.graft (h : Placed dig d (node k v l r)) : Placed dig d (graft l r) := by
  obtain ⟨hleft, hright, hl, hr⟩ := h
  have hapart : ∀ a ∈ l.keys, ∀ b ∈ r.keys, a ≠ b := by
    intro a ha b hb heq
    have hfalse := (hleft a ha).2
    rw [heq, (hright b hb).2] at hfalse
    cases hfalse
  rw [Trie.graft]
  split
  · next e r' hpop =>
    have he : e.1 ∈ r.keys := (keys_perm (popLeaf_entries hpop)).mem_iff.mpr List.mem_cons_self
    have hne := ne_of_popped hpop hr.nodup
    refine ⟨?_, ?_, hl, popLeaf_placed hpop hr⟩
    · exact fun k' hk' => ⟨hapart k' hk' e.1 he, (hleft k' hk').2⟩
    · exact fun k' hk' => ⟨(hne k' hk').1, (hright k' (hne k' hk').2).2⟩
  · split
    · next e l' hpop =>
      have he : e.1 ∈ l.keys := (keys_perm (popLeaf_entries hpop)).mem_iff.mpr List.mem_cons_self
      have hne := ne_of_popped hpop hl.nodup
      refine ⟨?_, ?_, popLeaf_placed hpop hl, hr⟩
      · exact fun k' hk' => ⟨(hne k' hk').1, (hleft k' (hne k' hk').2).2⟩
      · exact fun k' hk' => ⟨(hapart e.1 he k' hk').symm, (hright k' hk').2⟩
    · trivial

/-! ## Changes at a key -/

section Changes

variable [DecidableEq κ] {f : α → Option α} {new : α} {join : α → α}

theorem alter_of_not_mem (h : key ∉ t.keys) : alter key f t = t := by
  induction t with
  | nil => rfl
  | node k v l r ihl ihr =>
    rw [keys_node, List.mem_cons, List.mem_append, not_or, not_or] at h
    obtain ⟨hk, hl, hr⟩ := h
    rw [alter, if_neg (Ne.symm hk), ihl hl, ihr hr]

theorem mem_of_mem_alter (h : k ∈ (alter key f t).keys) : k ∈ t.keys := by
  induction t with
  | nil => exact h
  | node k' v l r ihl ihr =>
    rw [alter] at h
    split at h
    · split at h
      · exact h
      · rw [keys_node]
        refine List.mem_cons_of_mem _ ?_
        rw [keys, ((graft_entries l r).map Prod.fst).mem_iff, List.map_append] at h
        exact h
    · rw [keys_node, List.mem_cons, List.mem_append] at h ⊢
      rcases h with h | h | h
      · exact .inl h
      · exact .inr (.inl (ihl h))
      · exact .inr (.inr (ihr h))

theorem Placed.alter (h : Placed dig d t) (key : κ) (f : α → Option α) :
    Placed dig d (alter key f t) := by
  induction t generalizing d with
  | nil => trivial
  | node k v l r ihl ihr =>
    rw [Trie.alter]
    split
    · split
      · exact h
      · exact h.graft
    · obtain ⟨hleft, hright, hl, hr⟩ := h
      exact ⟨fun k' hk' => hleft k' (mem_of_mem_alter hk'), fun k' hk' => hright k' (mem_of_mem_alter hk'),
        ihl hl, ihr hr⟩

/-- Only the entry of the key is changed. -/
theorem Placed.alter_entries (h : Placed dig d t) (hmem : (key, v) ∈ t.entries) (f : α → Option α) :
    ∃ rest, t.entries.Perm ((key, v) :: rest) ∧
      (Trie.alter key f t).entries.Perm ((f v).toList.map (key, ·) ++ rest) := by
  induction t generalizing d with
  | nil => cases hmem
  | node k v' l r ihl ihr =>
    have hnodup := h.nodup
    obtain ⟨hleft, hright, hl, hr⟩ := h
    rw [keys_node, List.nodup_cons] at hnodup
    rw [Trie.alter]
    rcases List.mem_cons.mp hmem with heq | hmem
    · obtain ⟨rfl, rfl⟩ := Prod.mk.inj heq
      refine ⟨l.entries ++ r.entries, .refl _, ?_⟩
      rw [if_pos rfl]
      cases hf : f v with
      | some v' => exact .refl _
      | none => exact graft_entries l r
    · have hkeys : key ∈ l.keys ++ r.keys := by
        rw [keys, keys, ← List.map_append]
        exact List.mem_map.mpr ⟨_, hmem, rfl⟩
      rw [if_neg fun (heq : k = key) => hnodup.1 (heq ▸ hkeys)]
      rcases List.mem_append.mp hmem with hmem | hmem
      · obtain ⟨rest, hrest, hperm⟩ := ihl hl hmem
        have hnot : key ∉ r.keys := by
          intro hin
          have hfalse := (hleft key (mem_keys.mpr ⟨v, hmem⟩)).2
          rw [(hright key hin).2] at hfalse
          cases hfalse
        refine ⟨(k, v') :: (rest ++ r.entries), ?_, ?_⟩
        · exact ((hrest.append_right _).cons _).trans (List.Perm.swap _ _ _)
        · rw [alter_of_not_mem hnot, entries_node]
          refine ((hperm.append_right _).cons _).trans ?_
          rw [List.append_assoc]
          exact List.perm_middle.symm
      · obtain ⟨rest, hrest, hperm⟩ := ihr hr hmem
        have hnot : key ∉ l.keys := by
          intro hin
          have hfalse := (hleft key hin).2
          rw [(hright key (mem_keys.mpr ⟨v, hmem⟩)).2] at hfalse
          cases hfalse
        refine ⟨(k, v') :: (l.entries ++ rest), ?_, ?_⟩
        · exact ((hrest.append_left _).cons _).trans (@List.perm_middle _ _ ((k, v') :: l.entries) _)
        · rw [alter_of_not_mem hnot, entries_node]
          refine ((hperm.append_left _).cons _).trans ?_
          refine (List.Perm.cons _ (List.perm_append_comm_assoc _ _ _)).trans ?_
          exact List.perm_middle.symm

theorem mem_of_mem_insert (h : k ∈ (insert dig new join key d t).keys) : k = key ∨ k ∈ t.keys := by
  induction t generalizing d with
  | nil => exact .inl (List.mem_singleton.mp h)
  | node k' v l r ihl ihr =>
    rw [insert] at h
    split at h
    · exact .inr h
    · split at h
      · rw [keys_node, List.mem_cons, List.mem_append] at h ⊢
        rcases h with h | h | h
        · exact .inr (.inl h)
        · exact .inr (.inr (.inl h))
        · exact (ihr h).imp_right fun h => .inr (.inr h)
      · rw [keys_node, List.mem_cons, List.mem_append] at h ⊢
        rcases h with h | h | h
        · exact .inr (.inl h)
        · exact (ihl h).imp_right fun h => .inr (.inl h)
        · exact .inr (.inr (.inr h))

theorem Placed.insert (h : Placed dig d t) (new : α) (join : α → α) (key : κ) :
    Placed dig d (insert dig new join key d t) := by
  induction t generalizing d with
  | nil =>
    have hnone : ∀ {b : Bool}, ∀ k' ∈ (nil : Trie κ α).keys, k' ≠ key ∧ dig k' d = b :=
      fun _ h => absurd h List.not_mem_nil
    exact ⟨hnone, hnone, trivial, trivial⟩
  | node k v l r ihl ihr =>
    obtain ⟨hleft, hright, hl, hr⟩ := h
    rw [Trie.insert]
    split
    · exact ⟨hleft, hright, hl, hr⟩
    · next hne =>
      split
      · next hdig =>
        refine ⟨hleft, fun k' hk' => ?_, hl, ihr hr⟩
        rcases mem_of_mem_insert hk' with rfl | hk'
        · exact ⟨Ne.symm hne, hdig⟩
        · exact hright k' hk'
      · next hdig =>
        refine ⟨fun k' hk' => ?_, hright, ihl hl, hr⟩
        rcases mem_of_mem_insert hk' with rfl | hk'
        · exact ⟨Ne.symm hne, by simpa using hdig⟩
        · exact hleft k' hk'

/-- A new entry for the key, or another value for it. -/
theorem Placed.insert_entries (h : Placed dig d t) (new : α) (join : α → α) (key : κ) :
    (key ∉ t.keys ∧ (Trie.insert dig new join key d t).entries.Perm ((key, new) :: t.entries)) ∨
    ∃ v rest, t.entries.Perm ((key, v) :: rest) ∧
      (Trie.insert dig new join key d t).entries.Perm ((key, join v) :: rest) := by
  induction t generalizing d with
  | nil => exact .inl ⟨List.not_mem_nil, .refl _⟩
  | node k v l r ihl ihr =>
    obtain ⟨hleft, hright, hl, hr⟩ := h
    rw [Trie.insert]
    by_cases hk : k = key
    · rw [if_pos hk, hk]
      exact .inr ⟨v, l.entries ++ r.entries, .refl _, .refl _⟩
    · rw [if_neg hk]
      by_cases hdig : dig key d
      · rw [if_pos hdig]
        rcases ihr hr with ⟨hnot, hperm⟩ | ⟨v', rest, hrest, hperm⟩
        · refine .inl ⟨?_, ?_⟩
          · rw [keys_node, List.mem_cons, List.mem_append, not_or, not_or]
            refine ⟨Ne.symm hk, fun hin => ?_, hnot⟩
            rw [(hleft key hin).2] at hdig
            cases hdig
          · exact ((hperm.append_left _).cons _).trans
              (@List.perm_middle _ _ ((k, v) :: l.entries) _)
        · refine .inr ⟨v', (k, v) :: (l.entries ++ rest), ?_, ?_⟩
          · exact ((hrest.append_left _).cons _).trans (@List.perm_middle _ _ ((k, v) :: l.entries) _)
          · exact ((hperm.append_left _).cons _).trans (@List.perm_middle _ _ ((k, v) :: l.entries) _)
      · rw [if_neg hdig]
        rcases ihl hl with ⟨hnot, hperm⟩ | ⟨v', rest, hrest, hperm⟩
        · refine .inl ⟨?_, ?_⟩
          · rw [keys_node, List.mem_cons, List.mem_append, not_or, not_or]
            exact ⟨Ne.symm hk, hnot, fun hin => hdig (hright key hin).2⟩
          · exact ((hperm.append_right _).cons _).trans (List.Perm.swap _ _ _)
        · refine .inr ⟨v', (k, v) :: (rest ++ r.entries), ?_, ?_⟩
          · exact ((hrest.append_right _).cons _).trans (List.Perm.swap _ _ _)
          · exact ((hperm.append_right _).cons _).trans (List.Perm.swap _ _ _)

/-- The digits of a key lead to its entry. -/
theorem Placed.find?_eq_some (h : Placed dig d t) : find? dig key d t = some v ↔ (key, v) ∈ t.entries := by
  induction t generalizing d with
  | nil => exact iff_of_false (fun h => by cases h) List.not_mem_nil
  | node k v' l r ihl ihr =>
    obtain ⟨hleft, hright, hl, hr⟩ := h
    rw [find?, entries_node, List.mem_cons, List.mem_append]
    by_cases hk : k = key
    · subst hk
      have hnot : ¬ ((k, v) ∈ l.entries ∨ (k, v) ∈ r.entries) := by
        intro hin
        rcases hin with hin | hin
        · exact (hleft k (mem_keys.mpr ⟨v, hin⟩)).1 rfl
        · exact (hright k (mem_keys.mpr ⟨v, hin⟩)).1 rfl
      rw [if_pos rfl, or_iff_left hnot, Option.some.injEq, Prod.mk.injEq, and_iff_right rfl, eq_comm]
    · have hhead : (key, v) ≠ (k, v') := fun heq => hk (Prod.mk.inj heq).1.symm
      rw [if_neg hk, or_iff_right hhead]
      by_cases hdig : dig key d
      · rw [if_pos hdig, ihr hr, or_iff_right]
        intro hin
        rw [(hleft key (mem_keys.mpr ⟨v, hin⟩)).2] at hdig
        cases hdig
      · rw [if_neg hdig, ihl hl, or_iff_left]
        exact fun hin => hdig (hright key (mem_keys.mpr ⟨v, hin⟩)).2

end Changes

/-! ## The least keys -/

section Order

variable (dig) in
/-- All keys have the first digits of one key. -/
def Shares (key : κ) (d : Nat) (t : Trie κ α) : Prop := ∀ k ∈ t.keys, ∀ i < d, dig k i = dig key i

theorem Shares.left (h : Placed dig d (node k v l r)) (hs : Shares dig key d (node k v l r))
    (hdig : dig key d = false) : Shares dig key (d + 1) l := by
  intro a ha i hi
  rcases Nat.lt_succ_iff_lt_or_eq.mp hi with hi | rfl
  · exact hs a (by simp [ha]) i hi
  · rw [(h.1 a ha).2, hdig]

theorem Shares.right (h : Placed dig d (node k v l r)) (hs : Shares dig key d (node k v l r))
    (hdig : dig key d = true) : Shares dig key (d + 1) r := by
  intro a ha i hi
  rcases Nat.lt_succ_iff_lt_or_eq.mp hi with hi | rfl
  · exact hs a (by simp [ha]) i hi
  · rw [(h.2.1 a ha).2, hdig]

theorem Shares.trans (hs : Shares dig key d t) (hk : k ∈ t.keys) : Shares dig k d t :=
  fun a ha i hi => (hs a ha i hi).trans (hs k hk i hi).symm

theorem mem_of_mem_spine (h : e ∈ t.spine) : e ∈ t.entries := by
  induction t using spine.induct with
  | case1 => exact h
  | case2 k v r ih =>
    rcases List.mem_cons.mp h with rfl | h
    · exact List.mem_cons_self
    · exact List.mem_cons_of_mem _ (ih h)
  | case3 k v k' v' l' r' r ih =>
    rcases List.mem_cons.mp h with rfl | h
    · exact List.mem_cons_self
    · exact List.mem_cons_of_mem _ (List.mem_append_left _ (ih h))

theorem mem_of_mem_path [DecidableEq κ] {bound : κ} (h : e ∈ path dig bound d t) : e ∈ t.entries := by
  induction t generalizing d with
  | nil => exact h
  | node k v l r ihl ihr =>
    rw [path] at h
    rcases List.mem_cons.mp h with rfl | h
    · exact List.mem_cons_self
    · split at h
      · cases h
      · split at h
        · exact List.mem_cons_of_mem _ (List.mem_append_right _ (ihr h))
        · exact List.mem_cons_of_mem _ (List.mem_append_left _ (ihl h))

theorem mem_of_mem_beyond [DecidableEq κ] {bound : κ} (h : e ∈ (beyond dig bound d t).entries) :
    e ∈ t.entries := by
  induction t generalizing d with
  | nil => exact h
  | node k v l r ihl ihr =>
    refine List.mem_cons_of_mem _ (List.mem_append.mpr ?_)
    rw [beyond] at h
    split at h
    · cases h
    · split at h
      · exact .inr (ihr h)
      · split at h
        · exact .inr h
        · exact .inl (ihl h)

variable [LinearOrder κ] {bound : κ}

variable (dig) in
/-- Of two keys that have their first digits in common, the one with the smaller digit behind them is
smaller. -/
def Ordered (ks : List κ) : Prop :=
  ∀ d, ∀ k ∈ ks, ∀ k' ∈ ks, (∀ i < d, dig k i = dig k' i) → dig k d = false → dig k' d = true → k < k'

theorem Ordered.subset {ks ks' : List κ} (h : Ordered dig ks) (hsub : ∀ k ∈ ks', k ∈ ks) :
    Ordered dig ks' :=
  fun d k hk k' hk' => h d k (hsub k hk) k' (hsub k' hk')

theorem Placed.lt_of_ordered (h : Placed dig d (node k v l r)) (ho : Ordered dig (node k v l r).keys)
    (hs : Shares dig key d (node k v l r)) : ∀ a ∈ l.keys, ∀ b ∈ r.keys, a < b := by
  intro a ha b hb
  have ha' : a ∈ (node k v l r).keys := by simp [ha]
  have hb' : b ∈ (node k v l r).keys := by simp [hb]
  exact ho d a ha' b hb' (hs.trans hb' a ha') (h.1 a ha).2 (h.2.1 b hb).2

/-- No key is smaller than all those on the way to the left. -/
theorem Placed.spine_le (h : Placed dig d t) (ho : Ordered dig t.keys) (hs : Shares dig key d t) :
    ∀ k ∈ t.keys, ∃ e ∈ t.spine, e.1 ≤ k := by
  induction t using spine.induct generalizing d key with
  | case1 => exact fun k hk => absurd hk List.not_mem_nil
  | case2 k v r ih =>
    intro a ha
    rw [keys_node, keys_nil, List.nil_append] at ha
    rcases List.mem_cons.mp ha with rfl | ha
    · exact ⟨(a, v), List.mem_cons_self, le_rfl⟩
    · have hs' := (hs.trans (by simp [ha])).right h (h.2.1 a ha).2
      obtain ⟨e, he, hle⟩ := ih h.2.2.2 (ho.subset fun b hb => by simp [hb]) hs' a ha
      exact ⟨e, List.mem_cons_of_mem _ he, hle⟩
  | case3 k v k' v' l' r' r ih =>
    generalize hl : node k' v' l' r' = l at h ho hs ih ⊢
    have hkl : k' ∈ l.keys := by rw [← hl]; simp
    have hspine : (node k v l r).spine = (k, v) :: l.spine := by rw [← hl]; rfl
    have hs' := (hs.trans (by simp [hkl])).left h (h.1 k' hkl).2
    have hleft := ih h.2.2.1 (ho.subset fun b hb => by simp [hb]) hs'
    intro a ha
    rw [hspine]
    rw [keys_node, List.mem_cons, List.mem_append] at ha
    rcases ha with rfl | ha | ha
    · exact ⟨(a, v), List.mem_cons_self, le_rfl⟩
    · obtain ⟨e, he, hle⟩ := hleft a ha
      exact ⟨e, List.mem_cons_of_mem _ he, hle⟩
    · obtain ⟨e, he, hle⟩ := hleft k' hkl
      exact ⟨e, List.mem_cons_of_mem _ he, hle.trans (h.lt_of_ordered ho hs k' hkl a ha).le⟩

/-- The subtree to the right of the way is placed, and its keys are above the bound. -/
theorem Placed.beyond (h : Placed dig d t) (ho : Ordered dig (bound :: t.keys))
    (hs : Shares dig bound d t) :
    (∃ d' key, Placed dig d' (beyond dig bound d t) ∧
      Shares dig key d' (Trie.beyond dig bound d t)) ∧
    ∀ k ∈ (Trie.beyond dig bound d t).keys, bound < k := by
  induction t generalizing d with
  | nil => exact ⟨⟨d, bound, h, hs⟩, fun _ hk => absurd hk List.not_mem_nil⟩
  | node k v l r ihl ihr =>
    rw [Trie.beyond]
    split
    · exact ⟨⟨d, bound, trivial, fun _ hk => absurd hk List.not_mem_nil⟩,
        fun _ hk => absurd hk List.not_mem_nil⟩
    · split
      · next hdig =>
        exact ihr h.2.2.2
          (ho.subset fun b hb => by rcases List.mem_cons.mp hb with rfl | hb <;> simp [*])
          (hs.right h hdig)
      · next hdig =>
        have hdig : dig bound d = false := by simpa using hdig
        have hleft := ihl h.2.2.1
          (ho.subset fun b hb => by rcases List.mem_cons.mp hb with rfl | hb <;> simp [*])
          (hs.left h hdig)
        split
        · -- The subtree of this node is the deepest one.
          refine ⟨?_, ?_⟩
          · cases hr : r.keys with
            | nil => exact ⟨d + 1, bound, h.2.2.2, fun a ha => absurd (hr ▸ ha) List.not_mem_nil⟩
            | cons a as =>
              have ha : a ∈ r.keys := hr ▸ List.mem_cons_self
              exact ⟨d + 1, a, h.2.2.2, (hs.trans (by simp [ha])).right h (h.2.1 a ha).2⟩
          · intro b hb
            have hb' : b ∈ (node k v l r).keys := by simp [hb]
            exact ho d bound List.mem_cons_self b (List.mem_cons_of_mem _ hb')
              (fun i hi => (hs b hb' i hi).symm) hdig (h.2.1 b hb).2
        · exact hleft

/-- A key that is not below the bound is not below one on the way to it that is not either, or not below
one of the subtree to the right. -/
theorem Placed.path_le (h : Placed dig d t) (ho : Ordered dig (bound :: t.keys))
    (hs : Shares dig bound d t) : ∀ k ∈ t.keys, bound ≤ k →
      (∃ e ∈ path dig bound d t, bound ≤ e.1 ∧ e.1 ≤ k) ∨
      ∃ k' ∈ (Trie.beyond dig bound d t).keys, k' ≤ k := by
  induction t generalizing d with
  | nil => exact fun k hk => absurd hk List.not_mem_nil
  | node k v l r ihl ihr =>
    intro a ha hle
    have hnear : ∀ b ∈ (node k v l r).keys, ∀ i < d, dig bound i = dig b i :=
      fun b hb i hi => (hs b hb i hi).symm
    rw [path, Trie.beyond]
    by_cases hk : k = bound
    · exact .inl ⟨(k, v), List.mem_cons_self, hk.ge, hk.le.trans hle⟩
    rw [if_neg hk, if_neg hk]
    rw [keys_node, List.mem_cons, List.mem_append] at ha
    by_cases hdig : dig bound d
    · rw [if_pos hdig, if_pos hdig]
      rcases ha with rfl | ha | ha
      · exact .inl ⟨(a, v), List.mem_cons_self, hle, le_rfl⟩
      · -- The keys to the left are below the bound.
        have ha' : a ∈ (node k v l r).keys := by simp [ha]
        have hlt := ho d a (List.mem_cons_of_mem _ ha') bound List.mem_cons_self
          (hs a ha') (h.1 a ha).2 hdig
        exact absurd hle hlt.not_ge
      · rcases ihr h.2.2.2
            (ho.subset fun b hb => by rcases List.mem_cons.mp hb with rfl | hb <;> simp [*])
            (hs.right h hdig) a ha hle with ⟨e, he, hbounds⟩ | hbeyond
        · exact .inl ⟨e, List.mem_cons_of_mem _ he, hbounds⟩
        · exact .inr hbeyond
    · have hdig' : dig bound d = false := by simpa using hdig
      rw [if_neg hdig, if_neg hdig]
      rcases ha with rfl | ha | ha
      · exact .inl ⟨(a, v), List.mem_cons_self, hle, le_rfl⟩
      · rcases ihl h.2.2.1
            (ho.subset fun b hb => by rcases List.mem_cons.mp hb with rfl | hb <;> simp [*])
            (hs.left h hdig') a ha hle with ⟨e, he, hbounds⟩ | ⟨k', hk', hle'⟩
        · exact .inl ⟨e, List.mem_cons_of_mem _ he, hbounds⟩
        · refine .inr ⟨k', ?_, hle'⟩
          split
          · next hnil =>
            rw [hnil] at hk'
            cases hk'
          · exact hk'
      · refine .inr ?_
        have hl := h.lt_of_ordered (ho.subset fun b hb => List.mem_cons_of_mem _ hb) hs
        split
        · exact ⟨a, ha, le_rfl⟩
        · next t hne =>
          cases ht : Trie.beyond dig bound (d + 1) l with
          | nil => exact absurd ht hne
          | node k' v' l' r' =>
            have hmem : (k', v') ∈ (Trie.beyond dig bound (d + 1) l).entries := by
              rw [ht]
              exact List.mem_cons_self
            have hk' : k' ∈ l.keys := mem_keys.mpr ⟨v', mem_of_mem_beyond hmem⟩
            exact ⟨k', by simp, (hl k' hk' a ha).le⟩

end Order

end Placed

end Trie

end Turf.Lib.DigitalTree
