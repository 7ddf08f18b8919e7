import Mathlib.Data.List.Basic

/-!
# Runs of a partial step function under a schedule

A system is a partial function `next` from a state and a label to the next state;
the label says which party moves and how its free choices fall. A schedule is a
list of labels, and a run exists when every label is enabled in turn. All results
about interleavings quantify over schedules, so they are stated about `run`.
-/
namespace Turf.Lib.Schedule

variable {σ ℓ : Type*} {next : σ → ℓ → Option σ}

/-- The state after a schedule, if every label of it is enabled in turn. -/
def run (next : σ → ℓ → Option σ) (s : σ) : List ℓ → Option σ
  | [] => some s
  | l :: ls => (next s l).bind fun t => run next t ls

@[simp] theorem run_nil (s : σ) : run next s [] = some s := rfl

theorem run_cons {s u : σ} {l : ℓ} {ls : List ℓ} :
    run next s (l :: ls) = some u ↔ ∃ t, next s l = some t ∧ run next t ls = some u := by
  simp [run, Option.bind_eq_some_iff]

theorem run_append {s u : σ} {ls ms : List ℓ} :
    run next s (ls ++ ms) = some u ↔ ∃ t, run next s ls = some t ∧ run next t ms = some u := by
  induction ls generalizing s with
  | nil => simp
  | cons l ls ih =>
    rw [List.cons_append, run_cons]
    constructor
    · rintro ⟨t, ht, hu⟩
      obtain ⟨v, hv, hw⟩ := ih.mp hu
      exact ⟨v, run_cons.mpr ⟨t, ht, hv⟩, hw⟩
    · rintro ⟨v, hv, hw⟩
      obtain ⟨t, ht, hu⟩ := run_cons.mp hv
      exact ⟨t, ht, ih.mpr ⟨v, hu, hw⟩⟩

/-- What the steps of some labels preserve, the runs over these labels preserve. -/
theorem run_preserves_labels {P : σ → Prop} {L : ℓ → Prop}
    (hstep : ∀ s l t, next s l = some t → L l → P s → P t) {s t : σ} {ls : List ℓ}
    (hr : run next s ls = some t) (hl : ∀ l ∈ ls, L l) (hs : P s) : P t := by
  induction ls generalizing s with
  | nil => cases hr; exact hs
  | cons l ls ih =>
    obtain ⟨u, hu, hr⟩ := run_cons.mp hr
    exact ih hr (fun m hm => hl m (List.mem_cons_of_mem l hm))
      (hstep s l u hu (hl l List.mem_cons_self) hs)

/-- What every step preserves, every run preserves. -/
theorem run_preserves {P : σ → Prop}
    (hstep : ∀ s l t, next s l = some t → P s → P t) {s t : σ} {ls : List ℓ}
    (hr : run next s ls = some t) (hs : P s) : P t :=
  run_preserves_labels (L := fun _ => True) (fun s l t h _ => hstep s l t h) hr
    (fun _ _ => trivial) hs

/-- Where a function of the state takes each step of one system to a step of another, it takes
runs to runs. -/
theorem run_map {τ : Type*} {next' : τ → ℓ → Option τ} (abs : σ → τ)
    (hstep : ∀ s l, (next s l).map abs = next' (abs s) l) (s : σ) (ls : List ℓ) :
    (run next s ls).map abs = run next' (abs s) ls := by
  induction ls generalizing s with
  | nil => rfl
  | cons l ls ih =>
    rw [run, run, ← hstep s l]
    cases next s l with
    | none => rfl
    | some t => exact ih t

/-- Runs of a step relation. -/
inductive Runs {τ κ : Type*} (step : τ → κ → τ → Prop) : τ → List κ → τ → Prop
  | nil (t : τ) : Runs step t [] t
  | cons {t u v : τ} {k : κ} {ks : List κ} (hk : step t k u) (hks : Runs step u ks v) : Runs step t (k :: ks) v

/-- Where each step of one system is matched by a step of another, each run is. -/
theorem run_simulates {τ κ : Type*} {step : τ → κ → τ → Prop} {R : σ → τ → Prop} (lab : ℓ → κ)
    (hstep : ∀ s l s' t, next s l = some s' → R s t → ∃ t', step t (lab l) t' ∧ R s' t') {s s' : σ} {ls : List ℓ}
    (hr : run next s ls = some s') {t : τ} (hR : R s t) : ∃ t', Runs step t (ls.map lab) t' ∧ R s' t' := by
  induction ls generalizing s t with
  | nil =>
    cases hr
    exact ⟨t, .nil t, hR⟩
  | cons l ls ih =>
    obtain ⟨u, hu, hrest⟩ := run_cons.mp hr
    obtain ⟨v, hv, hRv⟩ := hstep s l u t hu hR
    obtain ⟨w, hw, hRw⟩ := ih hrest hRv
    exact ⟨w, .cons hv hw, hRw⟩

/-- `P` holds at every state of the run, the last one included. -/
def Along (next : σ → ℓ → Option σ) (P : σ → Prop) (s : σ) (ls : List ℓ) : Prop :=
  ∀ ms t, ms <+: ls → run next s ms = some t → P t

theorem Along.head {P : σ → Prop} {s : σ} {ls : List ℓ} (h : Along next P s ls) : P s :=
  h [] s (List.nil_prefix) rfl

theorem Along.tail {P : σ → Prop} {s t : σ} {l : ℓ} {ls : List ℓ}
    (h : Along next P s (l :: ls)) (hs : next s l = some t) : Along next P t ls :=
  fun ms u hm hu => h (l :: ms) u (List.cons_prefix_cons.mpr ⟨rfl, hm⟩) (run_cons.mpr ⟨t, hs, hu⟩)

theorem Along.nil {P : σ → Prop} {s : σ} (hp : P s) : Along next P s [] := by
  intro ms t hm ht
  rw [List.prefix_nil.mp hm] at ht
  cases ht
  exact hp

theorem Along.cons {P : σ → Prop} {s t : σ} {l : ℓ} {ls : List ℓ} (hp : P s)
    (hs : next s l = some t) (h : Along next P t ls) : Along next P s (l :: ls) := by
  intro ms u hm hu
  cases ms with
  | nil =>
    cases hu
    exact hp
  | cons m ms =>
    obtain ⟨rfl, hms⟩ := List.cons_prefix_cons.mp hm
    obtain ⟨t', ht', hrest⟩ := run_cons.mp hu
    obtain rfl := Option.some.inj (hs.symm.trans ht')
    exact h ms u hms hrest

/-- A run that loses a property loses it at one of its steps for the first time. -/
theorem exists_first_loss {P : σ → Prop} {s u : σ} {ls : List ℓ} (hr : run next s ls = some u)
    (hp : P s) (h : ¬ Along next P s ls) :
    ∃ xs l ys t v, ls = xs ++ l :: ys ∧ run next s xs = some t ∧ Along next P s xs ∧
      next t l = some v ∧ ¬ P v := by
  induction ls generalizing s with
  | nil => exact absurd (Along.nil hp) h
  | cons l ls ih =>
    obtain ⟨t, ht, hrest⟩ := run_cons.mp hr
    by_cases hpt : P t
    · have htail : ¬ Along next P t ls := fun ha => h (ha.cons hp ht)
      obtain ⟨xs, m, ys, v, w, rfl, hv, ha, hw, hpw⟩ := ih hrest hpt htail
      exact ⟨l :: xs, m, ys, v, w, rfl, run_cons.mpr ⟨t, ht, hv⟩, ha.cons hp ht, hw, hpw⟩
    · exact ⟨[], l, ls, s, t, rfl, rfl, Along.nil hp, ht, hpt⟩

/-- Preservation that may use a property of both ends of each step, when that
property holds along the whole run. -/
theorem run_preserves_along {P Q : σ → Prop}
    (hstep : ∀ s l t, next s l = some t → Q s → Q t → P s → P t) {s t : σ} {ls : List ℓ}
    (hr : run next s ls = some t) (hq : Along next Q s ls) (hs : P s) : P t := by
  induction ls generalizing s with
  | nil => cases hr; exact hs
  | cons l ls ih =>
    obtain ⟨u, hu, hr⟩ := run_cons.mp hr
    have hqu := hq.tail hu
    exact ih hr hqu (hstep s l u hu hq.head hqu.head hs)

/-- Every step of the run meets a condition on the state before it and its label. -/
def Steps (next : σ → ℓ → Option σ) (C : σ → ℓ → Prop) (s : σ) : List ℓ → Prop
  | [] => True
  | l :: ls => C s l ∧ ∀ t, next s l = some t → Steps next C t ls

/-- A condition on the labels alone. -/
theorem steps_labels {C : ℓ → Prop} {s u : σ} {ls : List ℓ} (hr : run next s ls = some u) :
    Steps next (fun _ l => C l) s ls ↔ ∀ l ∈ ls, C l := by
  induction ls generalizing s with
  | nil => simp [Steps]
  | cons l ls ih =>
    obtain ⟨t, ht, hrest⟩ := run_cons.mp hr
    simp only [Steps, ht, Option.some.injEq, forall_eq', ih hrest, List.forall_mem_cons]

/-- Where a step keeps `Q` exactly when it meets the condition, a run keeps `Q` throughout
exactly when all its steps meet it. -/
theorem steps_iff_along {P Q : σ → Prop} {C : σ → ℓ → Prop}
    (hp : ∀ s l t, next s l = some t → P s → P t)
    (hq : ∀ s l t, next s l = some t → P s → Q s → (C s l ↔ Q t)) {s u : σ} {ls : List ℓ}
    (hr : run next s ls = some u) (hps : P s) (hqs : Q s) :
    Steps next C s ls ↔ Along next Q s ls := by
  induction ls generalizing s with
  | nil => exact iff_of_true trivial (Along.nil hqs)
  | cons l ls ih =>
    obtain ⟨t, ht, htail⟩ := run_cons.mp hr
    have hpt := hp s l t ht hps
    have hstep := hq s l t ht hps hqs
    constructor
    · intro hsteps
      exact ((ih htail hpt (hstep.mp hsteps.1)).mp (hsteps.2 t ht)).cons hqs ht
    · intro halong
      have hqt := (halong.tail ht).head
      refine ⟨hstep.mpr hqt, fun t' ht' => ?_⟩
      obtain rfl := Option.some.inj (ht.symm.trans ht')
      exact (ih htail hpt hqt).mpr (halong.tail ht)

end Turf.Lib.Schedule
