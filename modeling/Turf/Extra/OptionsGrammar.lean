import Turf.Extra.Options

/-!
# The grammar of the command line

`parse` accepts the arguments that split into items, each a positional argument or an option
in one of its spellings, with no option used twice. What it records depends on the items
alone. Two dashes always begin a long name, so that a short name may be any character but a
dash to be of use.
-/
namespace Turf.Extra.Options

variable {options table : List Opt} {d : Tables} {argv args head rest : List CString}
  {s t : State} {a fuel : Nat}

/-! ## Tables -/

/-- The names are as `parse` asserts, and no long name is empty. -/
structure Valid (options : List Opt) : Prop where
  nonempty : ∀ opt ∈ options, opt.longName.chars ≠ []
  long : options.Pairwise fun opt opt' => opt.longName ≠ opt'.longName
  help : ∀ opt ∈ options, opt.longName ≠ helpOption.longName
  short : options.Pairwise fun opt opt' => opt.shortName ≠ nul → opt.shortName ≠ opt'.shortName
  h : ∀ opt ∈ options, opt.shortName ≠ helpOption.shortName

structure Represents (d : Tables) (table : List Opt) : Prop where
  long : ∀ name opt, d.longDict name = some opt ↔ opt ∈ table ∧ opt.longName = name
  short : ∀ c opt, d.shortDict c = some opt ↔ opt ∈ table ∧ opt.shortName = c ∧ c ≠ nul

/-- Entering an item into an index under a key that is not taken. -/
theorem update_index {κ α : Type} [DecidableEq κ] {index : κ → Option α} {items : List α}
    {P : κ → Prop} (key : α → κ) (h : ∀ k x, index k = some x ↔ x ∈ items ∧ key x = k ∧ P k)
    {x : α} (hx : P (key x)) (hnew : ∀ y ∈ items, key y ≠ key x) (k : κ) (y : α) :
    Function.update index (key x) (some x) k = some y ↔ y ∈ items ++ [x] ∧ key y = k ∧ P k := by
  rw [Function.update_apply, List.mem_append, List.mem_singleton]
  by_cases hk : k = key x
  · rw [if_pos hk]
    constructor
    · intro heq
      rw [← Option.some.inj heq]
      exact ⟨.inr rfl, hk.symm, by rw [hk]; exact hx⟩
    · intro hy
      obtain ⟨hmem | rfl, heq, -⟩ := hy
      · exact absurd (heq.trans hk) (hnew y hmem)
      · rfl
  · rw [if_neg hk, h]
    constructor
    · intro hy
      exact ⟨.inl hy.1, hy.2⟩
    · intro hy
      obtain ⟨hmem | rfl, heq⟩ := hy
      · exact ⟨hmem, heq⟩
      · exact absurd heq.1.symm hk

namespace Represents

theorem long_update (h : Represents d table) {opt : Opt}
    (hnew : ∀ opt' ∈ table, opt'.longName ≠ opt.longName) (name : CString) (opt' : Opt) :
    Function.update d.longDict opt.longName (some opt) name = some opt' ↔
      opt' ∈ table ++ [opt] ∧ opt'.longName = name := by
  have hlong : ∀ name opt, d.longDict name = some opt ↔
      opt ∈ table ∧ opt.longName = name ∧ True := by simpa using h.long
  simpa using update_index Opt.longName hlong trivial hnew name opt'

theorem short_update (h : Represents d table) {opt : Opt} (hnul : opt.shortName ≠ nul)
    (hnew : ∀ opt' ∈ table, opt'.shortName ≠ opt.shortName) (c : Char) (opt' : Opt) :
    Function.update d.shortDict opt.shortName (some opt) c = some opt' ↔
      opt' ∈ table ++ [opt] ∧ opt'.shortName = c ∧ c ≠ nul :=
  update_index Opt.shortName (P := (· ≠ nul)) h.short hnul hnew c opt'

theorem add (h : Represents d table) {opt : Opt}
    (hlong : ∀ opt' ∈ table, opt'.longName ≠ opt.longName)
    (hshort : opt.shortName ≠ nul → ∀ opt' ∈ table, opt'.shortName ≠ opt.shortName) :
    ∃ d', d.add opt = some d' ∧ Represents d' (table ++ [opt]) := by
  have hfree : d.longDict opt.longName = none := by
    cases hfound : d.longDict opt.longName with
    | none => rfl
    | some opt' =>
      obtain ⟨hmem, heq⟩ := (h.long _ _).mp hfound
      exact absurd heq (hlong opt' hmem)
  unfold Tables.add
  rw [hfree]
  by_cases hnul : opt.shortName = nul
  · refine ⟨_, by simp [hnul]; rfl, h.long_update hlong, ?_⟩
    intro c opt'
    rw [List.mem_append, List.mem_singleton]
    show d.shortDict c = some opt' ↔ _
    rw [h.short]
    constructor
    · rintro ⟨hmem, heq⟩
      exact ⟨.inl hmem, heq⟩
    · rintro ⟨hmem | rfl, heq, hc⟩
      · exact ⟨hmem, heq, hc⟩
      · exact absurd (heq.symm.trans hnul) hc
  · have hfree' : d.shortDict opt.shortName = none := by
      cases hfound : d.shortDict opt.shortName with
      | none => rfl
      | some opt' =>
        obtain ⟨hmem, heq, -⟩ := (h.short _ _).mp hfound
        exact absurd heq (hshort hnul opt' hmem)
    exact ⟨_, by simp [hnul, hfree']; rfl, h.long_update hlong, h.short_update hnul (hshort hnul)⟩

end Represents

theorem represents_start : Represents .start [helpOption] := by
  have hempty : Represents ⟨fun _ => none, fun _ => none⟩ [] :=
    ⟨fun _ _ => by simp, fun _ _ => by simp⟩
  have hnone : ∀ opt' ∈ ([] : List Opt), opt'.shortName ≠ helpOption.shortName :=
    fun _ hmem => by cases hmem
  exact ⟨hempty.long_update fun _ hmem => (by cases hmem), hempty.short_update (by decide) hnone⟩

/-- No assertion fails on valid options, and both tables hold them and the help option. -/
theorem makeTables_represents (h : Valid options) :
    ∃ d, makeTables options = some d ∧ Represents d (helpOption :: options) := by
  have hfold : ∀ (options table : List Opt) (d : Tables), Represents d table →
      options.Pairwise (fun opt opt' => opt.longName ≠ opt'.longName) →
      options.Pairwise
        (fun opt opt' => opt.shortName ≠ nul → opt.shortName ≠ opt'.shortName) →
      (∀ opt ∈ options, ∀ opt' ∈ table, opt'.longName ≠ opt.longName) →
      (∀ opt ∈ options, ∀ opt' ∈ table, opt'.shortName ≠ nul → opt'.shortName ≠ opt.shortName) →
      ∃ d', options.foldlM Tables.add d = some d' ∧ Represents d' (table ++ options) := by
    intro options
    induction options with
    | nil =>
      intro table d hd _ _ _ _
      exact ⟨d, rfl, by rwa [List.append_nil]⟩
    | cons opt options ih =>
      intro table d hd hlong hshort hlong' hshort'
      obtain ⟨hlongHead, hlongTail⟩ := List.pairwise_cons.mp hlong
      obtain ⟨hshortHead, hshortTail⟩ := List.pairwise_cons.mp hshort
      obtain ⟨d₁, hadd, hd₁⟩ := hd.add (hlong' opt List.mem_cons_self) (by
        intro hnul opt' hmem heq
        exact hshort' opt List.mem_cons_self opt' hmem (heq ▸ hnul) heq)
      obtain ⟨d', hrest, hd'⟩ := ih (table ++ [opt]) d₁ hd₁ hlongTail hshortTail (by
        intro opt' hopt' opt'' hmem
        rcases List.mem_append.mp hmem with hmem | hmem
        · exact hlong' opt' (List.mem_cons_of_mem _ hopt') opt'' hmem
        · rw [List.mem_singleton.mp hmem]
          exact hlongHead opt' hopt') (by
        intro opt' hopt' opt'' hmem hnul
        rcases List.mem_append.mp hmem with hmem | hmem
        · exact hshort' opt' (List.mem_cons_of_mem _ hopt') opt'' hmem hnul
        · rw [List.mem_singleton.mp hmem] at hnul ⊢
          exact hshortHead opt' hopt' hnul)
      refine ⟨d', ?_, ?_⟩
      · rw [List.foldlM_cons, hadd]
        exact hrest
      · rw [List.append_assoc] at hd'
        exact hd'
  apply hfold options [helpOption] .start represents_start h.long h.short
  · intro opt hopt opt' hmem
    rw [List.mem_singleton.mp hmem]
    exact (h.help opt hopt).symm
  · intro opt hopt opt' hmem _
    rw [List.mem_singleton.mp hmem]
    exact (h.h opt hopt).symm

/-! ## Items -/

/-- An argument on its own, or an option and its parameter if it takes one. -/
inductive Item where
  | positional (arg : CString)
  | option (opt : Opt) (param : Option CString)

/-- The argument is the option's long name, or its short name if that may follow a dash. -/
def Names (dashed : Char → Prop) (opt : Opt) (arg : CString) : Prop :=
  arg.chars = '-' :: '-' :: opt.longName.chars ∨
    (opt.shortName ≠ nul ∧ dashed opt.shortName ∧ arg.chars = ['-', opt.shortName])

/-- The arguments that spell an item, given the characters that may follow a single dash. -/
inductive Spells (dashed : Char → Prop) (options : List Opt) : Item → List CString → Prop
  | positional (arg : CString) (h : arg.chars.head? ≠ some '-') :
    Spells dashed options (.positional arg) [arg]
  | plain (opt : Opt) (arg : CString) (hopt : opt ∈ helpOption :: options)
    (hparam : opt.takesParam = false) (hnames : Names dashed opt arg) :
    Spells dashed options (.option opt none) [arg]
  | separate (opt : Opt) (arg param : CString) (hopt : opt ∈ helpOption :: options)
    (hparam : opt.takesParam = true) (hnames : Names dashed opt arg) :
    Spells dashed options (.option opt (some param)) [arg, param]
  | attached (opt : Opt) (arg param : CString) (hopt : opt ∈ helpOption :: options)
    (hparam : opt.takesParam = true) (hnul : opt.shortName ≠ nul) (hdash : dashed opt.shortName)
    (hne : param.chars ≠ []) (harg : arg.chars = '-' :: opt.shortName :: param.chars) :
    Spells dashed options (.option opt (some param)) [arg]

/-- The arguments split into the items from left to right. -/
inductive Splits (dashed : Char → Prop) (options : List Opt) : List Item → List CString → Prop
  | nil : Splits dashed options [] []
  | cons {item : Item} {items : List Item} {head rest : List CString}
    (hhead : Spells dashed options item head) (hrest : Splits dashed options items rest) :
    Splits dashed options (item :: items) (head ++ rest)

def usedNames (items : List Item) : List CString :=
  items.filterMap fun
    | .positional _ => none
    | .option opt _ => some opt.longName

def positionals (items : List Item) : List CString :=
  items.filterMap fun
    | .positional arg => some arg
    | .option _ _ => none

/-- No option is used twice, or once more after an earlier `parse` of the same object. -/
def Unused (s : State) (items : List Item) : Prop :=
  (usedNames items).Nodup ∧ ∀ name ∈ usedNames items, s.keywordArgs name = none

def State.add (s : State) : Item → State
  | .positional arg => s.push arg
  | .option opt param => s.use opt param

def State.Admits (s : State) : Item → Prop
  | .positional _ => True
  | .option opt _ => s.keywordArgs opt.longName = none

theorem unused_cons (s : State) (item : Item) (items : List Item) :
    Unused s (item :: items) ↔ s.Admits item ∧ Unused (s.add item) items := by
  cases item with
  | positional arg => exact ⟨fun h => ⟨trivial, h⟩, And.right⟩
  | option opt param =>
    have hnames : usedNames (.option opt param :: items) = opt.longName :: usedNames items := rfl
    rw [Unused, Unused, hnames, List.nodup_cons, List.forall_mem_cons]
    show _ ↔ s.keywordArgs opt.longName = none ∧ _
    constructor
    · rintro ⟨⟨hnot, hnodup⟩, hfree, hothers⟩
      refine ⟨hfree, hnodup, fun name hmem => ?_⟩
      have hne : name ≠ opt.longName := fun heq => hnot (heq ▸ hmem)
      show Function.update s.keywordArgs opt.longName (some param) name = none
      rw [Function.update_of_ne hne]
      exact hothers name hmem
    · rintro ⟨hfree, hnodup, hothers⟩
      have hnot : opt.longName ∉ usedNames items := by
        intro hmem
        have hnone : Function.update s.keywordArgs opt.longName (some param) opt.longName = none :=
          hothers _ hmem
        rw [Function.update_self] at hnone
        cases hnone
      refine ⟨⟨hnot, hnodup⟩, hfree, fun name hmem => ?_⟩
      have hne : name ≠ opt.longName := fun heq => hnot (heq ▸ hmem)
      have hnone : Function.update s.keywordArgs opt.longName (some param) name = none :=
        hothers name hmem
      rwa [Function.update_of_ne hne] at hnone

theorem positionalArgs_foldl (s : State) (items : List Item) :
    (items.foldl State.add s).positionalArgs = s.positionalArgs ++ positionals items := by
  induction items generalizing s with
  | nil => exact (List.append_nil _).symm
  | cons item items ih =>
    rw [List.foldl_cons, ih]
    cases item with
    | positional arg => exact List.append_assoc s.positionalArgs [arg] (positionals items)
    | option opt param => rfl

theorem keywordArgs_foldl {items : List Item} (h : Unused s items) (name : CString)
    (param : Option CString) :
    (items.foldl State.add s).keywordArgs name = some param ↔
      s.keywordArgs name = some param ∨
        ∃ opt, Item.option opt param ∈ items ∧ opt.longName = name := by
  induction items generalizing s with
  | nil => simp
  | cons item items ih =>
    obtain ⟨hadmits, hrest⟩ := (unused_cons s item items).mp h
    rw [List.foldl_cons, ih hrest]
    cases item with
    | positional arg => simp [State.add, State.push]
    | option opt param' =>
      have hfree : s.keywordArgs opt.longName = none := hadmits
      by_cases hname : name = opt.longName
      · subst hname
        have hother : ∀ opt', Item.option opt' param ∈ items → opt'.longName ≠ opt.longName := by
          intro opt' hmem heq
          have hused : opt'.longName ∈ usedNames items := List.mem_filterMap.mpr ⟨_, hmem, rfl⟩
          have hnone := hrest.2 _ hused
          rw [heq, State.add, State.use] at hnone
          simp at hnone
        simp only [State.add, State.use, Function.update_self, hfree, List.mem_cons]
        constructor
        · rintro (heq | ⟨opt', hmem, heq⟩)
          · exact .inr ⟨opt, .inl (by rw [Option.some.inj heq]), rfl⟩
          · exact absurd heq (hother opt' hmem)
        · rintro (heq | ⟨opt', heq | hmem, heq'⟩)
          · cases heq
          · cases heq
            exact .inl rfl
          · exact absurd heq' (hother opt' hmem)
      · simp only [State.add, State.use, Function.update_of_ne hname, List.mem_cons]
        constructor
        · rintro (heq | ⟨opt', hmem, heq⟩)
          · exact .inl heq
          · exact .inr ⟨opt', .inr hmem, heq⟩
        · rintro (heq | ⟨opt', heq | hmem, heq'⟩)
          · exact .inl heq
          · cases heq
            exact absurd heq'.symm hname
          · exact .inr ⟨opt', hmem, heq'⟩

/-! ## One argument -/

/-- The character that may follow a single dash. -/
def NotDash (c : Char) : Prop := c ≠ '-'

theorem charAt_of_chars {arg : CString} {cs : List Char} (h : arg.chars = cs) (i : Nat) :
    arg.charAt i = cs.getD i nul := by rw [CString.charAt, h]

theorem drop_two {arg name : CString} {c c' : Char} (h : arg.chars = c :: c' :: name.chars) :
    arg.drop 2 = name := by
  apply CString.ext
  rw [CString.drop]
  simp only [h, List.drop_succ_cons, List.drop_zero]

theorem charAt_ne_nul {arg : CString} {i : Nat} (h : i < arg.chars.length) :
    arg.charAt i ≠ nul := by
  intro hnul
  have hget : arg.charAt i = arg.chars[i] := by
    rw [CString.charAt, List.getD_eq_getElem?_getD, List.getElem?_eq_getElem h, Option.getD_some]
  apply arg.terminated
  rw [← hnul, hget]
  exact List.getElem_mem h

theorem nextParam_ok {e : ParseError} {r : Nat × CString} :
    nextParam argv a e = .ok r ↔ r.1 = a + 1 ∧ argv[a + 1]? = some r.2 := by
  unfold nextParam
  by_cases ha : a + 1 ≥ argv.length
  · rw [if_pos ha, List.getElem?_eq_none ha]
    constructor
    · intro h
      cases h
    · rintro ⟨-, h⟩
      cases h
  · rw [if_neg ha, List.getElem?_eq_getElem (by omega)]
    obtain ⟨i, param⟩ := r
    simp only [Except.ok.injEq, Prod.mk.injEq, Option.some.injEq, eq_comm]

theorem nextParam_error {e : ParseError} {o : Outcome} (h : nextParam argv a e = .error o) :
    ∃ e, o = .error e := by
  unfold nextParam at h
  by_cases ha : a + 1 ≥ argv.length
  · rw [if_pos ha] at h
    cases h
    exact ⟨e, rfl⟩
  · rw [if_neg ha, List.getElem?_eq_getElem (by omega)] at h
    cases h

/-- An option by one of its names: its parameter, if it takes one, is the next argument. -/
theorem scanArg_names (hd : Represents d (helpOption :: options)) {opt : Opt} {arg : CString}
    (hopt : opt ∈ helpOption :: options) (hnames : Names NotDash opt arg)
    (ha : argv[a]? = some arg) (hfree : s.keywordArgs opt.longName = none) :
    ∃ e, scanArg d argv a s =
      if opt.takesParam then (nextParam argv a e).map fun r => (r.1, s.use opt (some r.2))
      else .ok (a, s.use opt none) := by
  have hused : ¬ s.hasKeywordArg opt.longName = true := by
    rw [State.hasKeywordArg, hfree]
    decide
  rcases hnames with hlong | ⟨hnul, hdash, hshort⟩
  · have hfound : d.longDict (arg.drop 2) = some opt :=
      (hd.long _ _).mpr ⟨hopt, (drop_two hlong).symm⟩
    refine ⟨.requiresParameter arg, ?_⟩
    rw [scanArg, ha]
    simp only [charAt_of_chars hlong, List.getD_cons_zero, List.getD_cons_succ, if_true, scanLong,
      hfound, if_neg hused]
  · have hfound : d.shortDict opt.shortName = some opt := (hd.short _ _).mpr ⟨hopt, rfl, hnul⟩
    have hend : [].getD 0 nul = nul := rfl
    refine ⟨.requiresParameterShort opt.shortName, ?_⟩
    rw [scanArg, ha]
    simp only [charAt_of_chars hshort, List.getD_cons_zero, List.getD_cons_succ, if_true,
      if_neg hdash, scanShort, hfound, if_neg hused, hend, ne_eq, not_true_eq_false, if_false]

/-- An item that is not used yet is recorded. -/
theorem scanArg_of_spells (hd : Represents d (helpOption :: options)) {item : Item}
    (h : Spells NotDash options item head) (hdrop : argv.drop a = head ++ rest)
    (hadmits : s.Admits item) :
    scanArg d argv a s = .ok (a + head.length - 1, s.add item) := by
  have hget : ∀ i, argv[a + i]? = (head ++ rest)[i]? := by
    intro i
    rw [← hdrop, List.getElem?_drop]
  cases h with
  | positional arg hne =>
    have hfirst : arg.charAt 0 ≠ '-' := by
      cases hchars : arg.chars with
      | nil =>
        rw [charAt_of_chars hchars]
        decide
      | cons c cs =>
        rw [charAt_of_chars hchars]
        rw [hchars] at hne
        exact fun heq => hne (congrArg some heq)
    rw [scanArg, show argv[a]? = some arg from hget 0]
    exact if_neg hfirst
  | plain opt arg hopt hparam hnames =>
    obtain ⟨e, he⟩ := scanArg_names hd hopt hnames (show argv[a]? = some arg from hget 0) hadmits
    rw [he, if_neg (by rw [hparam]; decide)]
    rfl
  | separate opt arg param hopt hparam hnames =>
    obtain ⟨e, he⟩ := scanArg_names hd hopt hnames (show argv[a]? = some arg from hget 0) hadmits
    have hnext : nextParam argv a e = .ok (a + 1, param) := nextParam_ok.mpr ⟨rfl, hget 1⟩
    rw [he, if_pos hparam, hnext]
    rfl
  | attached opt arg param hopt hparam hnul hdash hne harg =>
    have hused : ¬ s.hasKeywordArg opt.longName = true := by
      rw [State.hasKeywordArg, show s.keywordArgs opt.longName = none from hadmits]
      decide
    have hfound : d.shortDict opt.shortName = some opt := (hd.short _ _).mpr ⟨hopt, rfl, hnul⟩
    have hthird : arg.charAt 2 ≠ nul := by
      apply charAt_ne_nul
      rw [harg, List.length_cons, List.length_cons]
      have hpos := List.length_pos_of_ne_nil hne
      omega
    have hone : arg.charAt 1 = opt.shortName := charAt_of_chars harg 1
    have hzero : arg.charAt 0 = '-' := charAt_of_chars harg 0
    have hdash' : ¬ opt.shortName = '-' := hdash
    rw [scanArg, show argv[a]? = some arg from hget 0]
    simp only [hzero, if_true, hone, if_neg hdash', scanShort, hfound, if_neg hused, if_pos hthird,
      hparam, drop_two harg]
    rfl

theorem chars_of_charAt {arg : CString} {c : Char} (hc : c ≠ nul) (h : arg.charAt 0 = c) :
    arg.chars = c :: (arg.drop 1).chars := by
  cases hchars : arg.chars with
  | nil =>
    rw [charAt_of_chars hchars] at h
    exact absurd h.symm hc
  | cons c' cs =>
    rw [charAt_of_chars hchars, List.getD_cons_zero] at h
    rw [h, CString.drop]
    simp only [hchars, List.drop_succ_cons, List.drop_zero]

theorem chars_of_charAt_two {arg : CString} {c c' : Char} (hc : c ≠ nul) (hc' : c' ≠ nul)
    (h : arg.charAt 0 = c) (h' : arg.charAt 1 = c') :
    arg.chars = c :: c' :: (arg.drop 2).chars := by
  have hfirst := chars_of_charAt hc h
  have hsecond : (arg.drop 1).charAt 0 = c' := by
    rw [charAt_of_chars hfirst, List.getD_cons_succ] at h'
    exact h'
  rw [hfirst, chars_of_charAt hc' hsecond]
  congr 3
  simp only [CString.drop, List.drop_drop]

theorem map_error {r : Except Outcome (Nat × CString)} {f : Nat × CString → Nat × State}
    {o : Outcome} (h : r.map f = .error o) : r = .error o := by
  cases r with
  | error o' => exact congrArg Except.error (Except.error.inj h)
  | ok x => cases h

theorem map_ok {r : Except Outcome (Nat × CString)} {f : Nat × CString → Nat × State}
    {x : Nat × State} (h : r.map f = .ok x) : ∃ y, r = .ok y := by
  cases r with
  | error o => cases h
  | ok y => exact ⟨y, rfl⟩

/-- Whatever the tables hold, an argument below `argc` is recorded or an error is printed. -/
theorem scanArg_error {o : Outcome} (ha : a < argv.length) (h : scanArg d argv a s = .error o) :
    ∃ e, o = .error e := by
  rw [scanArg, List.getElem?_eq_getElem ha] at h
  simp only at h
  split at h
  · split at h
    · unfold scanLong at h
      split at h
      · exact ⟨_, (Except.error.inj h).symm⟩
      · split at h
        · exact ⟨_, (Except.error.inj h).symm⟩
        · split at h
          · exact nextParam_error (map_error h)
          · cases h
    · unfold scanShort at h
      split at h
      · exact ⟨_, (Except.error.inj h).symm⟩
      · split at h
        · exact ⟨_, (Except.error.inj h).symm⟩
        · split at h
          · split at h
            · cases h
            · exact ⟨_, (Except.error.inj h).symm⟩
          · split at h
            · exact nextParam_error (map_error h)
            · cases h
  · cases h

theorem free_of_hasKeywordArg {name : CString} (h : ¬ s.hasKeywordArg name = true) :
    s.keywordArgs name = none := by
  rw [State.hasKeywordArg] at h
  exact Option.not_isSome_iff_eq_none.mp h

/-- An option named without a parameter attached: with the argument after it, if it takes one. -/
theorem spells_of_names {opt : Opt} {arg : CString} {e : ParseError} {r : Nat × State}
    (hopt : opt ∈ helpOption :: options) (hnames : Names NotDash opt arg)
    (hdrop : argv.drop a = arg :: argv.drop (a + 1))
    (h : (if opt.takesParam then (nextParam argv a e).map fun r => (r.1, s.use opt (some r.2))
      else .ok (a, s.use opt none)) = .ok r) :
    ∃ param head rest, argv.drop a = head ++ rest ∧
      Spells NotDash options (.option opt param) head := by
  by_cases hparam : opt.takesParam = true
  · rw [if_pos hparam] at h
    obtain ⟨⟨i, param⟩, hnext⟩ := map_ok h
    obtain ⟨-, hget⟩ := nextParam_ok.mp hnext
    obtain ⟨hlt, heq⟩ := List.getElem?_eq_some_iff.mp hget
    refine ⟨some param, [arg, param], argv.drop (a + 2), ?_,
      .separate opt arg param hopt hparam hnames⟩
    rw [hdrop, List.drop_eq_getElem_cons hlt, heq]
    rfl
  · exact ⟨none, [arg], argv.drop (a + 1), hdrop,
      .plain opt arg hopt (Bool.eq_false_iff.mpr hparam) hnames⟩

/-- What is recorded is an item that the next arguments spell. -/
theorem scanArg_ok (hd : Represents d (helpOption :: options)) (ha : a < argv.length)
    {r : Nat × State} (h : scanArg d argv a s = .ok r) :
    ∃ item head rest, argv.drop a = head ++ rest ∧ Spells NotDash options item head ∧
      s.Admits item := by
  have hdrop := List.drop_eq_getElem_cons ha
  rw [scanArg, List.getElem?_eq_getElem ha] at h
  generalize argv[a] = arg at hdrop h
  simp only at h
  by_cases hzero : arg.charAt 0 = '-'
  · rw [if_pos hzero] at h
    by_cases hone : arg.charAt 1 = '-'
    · rw [if_pos hone, scanLong] at h
      cases hfound : d.longDict (arg.drop 2) with
      | none =>
        rw [hfound] at h
        cases h
      | some opt =>
        obtain ⟨hopt, hname⟩ := (hd.long _ _).mp hfound
        have hnames : Names NotDash opt arg := .inl (by
          rw [hname]
          exact chars_of_charAt_two (by decide) (by decide) hzero hone)
        simp only [hfound] at h
        by_cases hused : s.hasKeywordArg opt.longName = true
        · rw [if_pos hused] at h
          cases h
        · rw [if_neg hused] at h
          obtain ⟨param, head, rest, hsplit, hspells⟩ := spells_of_names hopt hnames hdrop h
          exact ⟨_, head, rest, hsplit, hspells, free_of_hasKeywordArg hused⟩
    · rw [if_neg hone, scanShort] at h
      cases hfound : d.shortDict (arg.charAt 1) with
      | none =>
        rw [hfound] at h
        cases h
      | some opt =>
        obtain ⟨hopt, hname, hnul⟩ := (hd.short _ _).mp hfound
        have hchars := chars_of_charAt_two (by decide) hnul hzero rfl
        rw [← hname] at hone hnul hchars
        simp only [hfound] at h
        by_cases hused : s.hasKeywordArg opt.longName = true
        · rw [if_pos hused] at h
          cases h
        · rw [if_neg hused] at h
          have hfree := free_of_hasKeywordArg hused
          by_cases hattached : arg.charAt 2 ≠ nul
          · rw [if_pos hattached] at h
            by_cases hparam : opt.takesParam = true
            · have hne : (arg.drop 2).chars ≠ [] := by
                intro hnil
                rw [charAt_of_chars hchars, hnil] at hattached
                exact hattached rfl
              exact ⟨_, [arg], argv.drop (a + 1), hdrop,
                .attached opt arg (arg.drop 2) hopt hparam hnul hone hne hchars, hfree⟩
            · rw [if_neg hparam] at h
              cases h
          · rw [if_neg hattached] at h
            have hnil : (arg.drop 2).chars = [] := by
              by_contra hne
              apply hattached
              apply charAt_ne_nul
              rw [hchars, List.length_cons, List.length_cons]
              have hpos := List.length_pos_of_ne_nil hne
              omega
            rw [hnil] at hchars
            obtain ⟨param, head, rest, hsplit, hspells⟩ :=
              spells_of_names hopt (.inr ⟨hnul, hone, hchars⟩) hdrop h
            exact ⟨_, head, rest, hsplit, hspells, hfree⟩
  · have hne : arg.chars.head? ≠ some '-' := by
      cases hchars : arg.chars with
      | nil =>
        intro heq
        cases heq
      | cons c cs =>
        rw [charAt_of_chars hchars] at hzero
        exact fun heq => hzero (Option.some.inj heq)
    exact ⟨.positional arg, [arg], argv.drop (a + 1), hdrop, .positional arg hne, trivial⟩

/-! ## All arguments -/

theorem Spells.length_pos {dashed : Char → Prop} {item : Item}
    (h : Spells dashed options item head) : 0 < head.length := by
  cases h <;> simp

theorem scan_done (h : argv.length ≤ a) (fuel : Nat) (s : State) : scan d argv fuel a s = .ok s := by
  cases fuel with
  | zero => rfl
  | succ fuel => rw [scan, if_neg (by omega)]

/-- The items are recorded one after another. -/
theorem scan_of_splits (hd : Represents d (helpOption :: options)) {items : List Item}
    (h : Splits NotDash options items args) (hdrop : argv.drop a = args) (hunused : Unused s items)
    (hfuel : argv.length ≤ a + fuel) :
    scan d argv fuel a s = .ok (items.foldl State.add s) := by
  induction h generalizing a s fuel with
  | nil => exact scan_done (List.drop_eq_nil_iff.mp hdrop) fuel s
  | @cons item items head rest hhead hrest ih =>
    obtain ⟨hadmits, htail⟩ := (unused_cons s item items).mp hunused
    have hpos := hhead.length_pos
    have ha : a < argv.length := by
      by_contra hnot
      rw [List.drop_eq_nil_of_le (by omega)] at hdrop
      have hlen := congrArg List.length hdrop
      rw [List.length_append, List.length_nil] at hlen
      omega
    obtain ⟨fuel, rfl⟩ : ∃ n, fuel = n + 1 := ⟨fuel - 1, by omega⟩
    have hrest' : argv.drop (a + head.length - 1 + 1) = rest := by
      rw [show a + head.length - 1 + 1 = a + head.length by omega, ← List.drop_drop, hdrop,
        List.drop_left]
    rw [scan, if_pos ha, scanArg_of_spells hd hhead hdrop hadmits]
    exact ih hrest' htail (by omega)

/-- A scan that ends without an error has found items. -/
theorem splits_of_scan (hd : Represents d (helpOption :: options))
    (hfuel : argv.length ≤ a + fuel) (h : scan d argv fuel a s = .ok t) :
    ∃ items, Splits NotDash options items (argv.drop a) ∧ Unused s items := by
  induction fuel generalizing a s with
  | zero =>
    rw [List.drop_eq_nil_of_le (by omega)]
    exact ⟨[], .nil, List.nodup_nil, fun name hmem => by cases hmem⟩
  | succ fuel ih =>
    by_cases ha : a < argv.length
    · rw [scan, if_pos ha] at h
      cases hstep : scanArg d argv a s with
      | error o =>
        rw [hstep] at h
        cases h
      | ok r =>
        obtain ⟨item, head, rest, hdrop, hspells, hadmits⟩ := scanArg_ok hd ha hstep
        have hpos := hspells.length_pos
        rw [scanArg_of_spells hd hspells hdrop hadmits] at h
        obtain ⟨items, hitems, hunused⟩ := ih (by omega) h
        rw [show a + head.length - 1 + 1 = a + head.length by omega, ← List.drop_drop, hdrop,
          List.drop_left] at hitems
        exact ⟨item :: items, hdrop ▸ .cons hspells hitems, (unused_cons s item items).mpr
          ⟨hadmits, hunused⟩⟩
    · rw [List.drop_eq_nil_of_le (by omega)]
      exact ⟨[], .nil, List.nodup_nil, fun name hmem => by cases hmem⟩

/-- The loop ends with a printed error if at all; `argv` is not read past its end. -/
theorem scan_error {o : Outcome} (h : scan d argv fuel a s = .error o) : ∃ e, o = .error e := by
  induction fuel generalizing a s with
  | zero => cases h
  | succ fuel ih =>
    by_cases ha : a < argv.length
    · rw [scan, if_pos ha] at h
      cases hstep : scanArg d argv a s with
      | error o' =>
        rw [hstep] at h
        rw [← Except.error.inj h]
        exact scanArg_error ha hstep
      | ok r =>
        rw [hstep] at h
        exact ih h
    · rw [scan, if_neg ha] at h
      cases h

theorem parse_ne_outOfBounds (s : State) (options : List Opt) (argv : List CString) :
    parse s options argv ≠ .outOfBounds := by
  cases argv with
  | nil => exact fun h => by cases h
  | cons path args =>
    rw [parse]
    cases makeTables options with
    | none => exact fun h => by cases h
    | some d =>
      simp only
      split
      next o hscan =>
        obtain ⟨e, rfl⟩ := scan_error hscan
        exact fun h => by cases h
      next t _ =>
        unfold finish
        split <;> exact fun h => by cases h

/-- The object after the program name has been set. -/
def State.named (s : State) (path : CString) : State := 
  { s with programName := Options.programName s path }

theorem parse_of_scan {path : CString} (htables : makeTables options = some d)
    (hscan : scan d (path :: args) (path :: args).length 1 (s.named path) = .ok t) :
    parse s options (path :: args) = finish t := by
  unfold State.named at hscan
  simp only [parse, htables, hscan]

theorem parse_of_scan_error {path : CString} {o : Outcome} (htables : makeTables options = some d)
    (hscan : scan d (path :: args) (path :: args).length 1 (s.named path) = .error o) :
    parse s options (path :: args) = o := by
  unfold State.named at hscan
  simp only [parse, htables, hscan]

theorem parse_of_splits (hv : Valid options) {items : List Item} (path : CString)
    (h : Splits NotDash options items args) (hunused : Unused s items) :
    parse s options (path :: args) = finish (items.foldl State.add (s.named path)) := by
  obtain ⟨d, htables, hd⟩ := makeTables_represents hv
  exact parse_of_scan htables (scan_of_splits hd h rfl hunused (by omega))

theorem splits_of_parse (hv : Valid options) {path : CString}
    (h : ∀ e, parse s options (path :: args) ≠ .error e) :
    ∃ items, Splits NotDash options items args ∧ Unused s items := by
  obtain ⟨d, htables, hd⟩ := makeTables_represents hv
  cases hscan : scan d (path :: args) (path :: args).length 1 (s.named path) with
  | ok t => exact splits_of_scan hd (by omega) hscan
  | error o =>
    obtain ⟨e, rfl⟩ := scan_error hscan
    exact absurd (parse_of_scan_error htables hscan) (h e)

theorem hasKeywordArg_foldl {items : List Item} (h : Unused s items) (name : CString) :
    (items.foldl State.add s).hasKeywordArg name = true ↔
      name ∈ usedNames items ∨ s.hasKeywordArg name = true := by
  rw [State.hasKeywordArg, State.hasKeywordArg, Option.isSome_iff_exists, Option.isSome_iff_exists]
  constructor
  · rintro ⟨param, hparam⟩
    rcases (keywordArgs_foldl h name param).mp hparam with hold | ⟨opt, hmem, hname⟩
    · exact .inr ⟨param, hold⟩
    · exact .inl (List.mem_filterMap.mpr ⟨_, hmem, congrArg some hname⟩)
  · rintro (hused | ⟨param, hold⟩)
    · obtain ⟨item, hmem, hname⟩ := List.mem_filterMap.mp hused
      cases item with
      | positional arg => cases hname
      | option opt param =>
        exact ⟨param, (keywordArgs_foldl h name param).mpr (.inr ⟨opt, hmem, Option.some.inj hname⟩)⟩
    · exact ⟨param, (keywordArgs_foldl h name param).mpr (.inl hold)⟩

/-- With valid options the arguments are accepted exactly if they split into items that use no
option twice, and the process exits with code 1 otherwise. The usage is printed if help is
among the options; else the parameters and the positional arguments are those of the items.
Other spellings of the items have the same outcome, no assertion fails, and `argv` is read
below `argc` only. -/
theorem parse_iff_splits (options : List Opt) (hv : Valid options) (s : State) (path : CString)
    (args : List CString) :
    (((∃ t, parse s options (path :: args) = .returned t) ∨
        parse s options (path :: args) = .usage) ↔
      ∃ items, Splits NotDash options items args ∧ Unused s items) ∧
    ((¬ ∃ items, Splits NotDash options items args ∧ Unused s items) →
      (parse s options (path :: args)).exitCode = some 1) ∧
    (∀ items, Splits NotDash options items args → Unused s items →
      (parse s options (path :: args) = .usage ↔
        helpOption.longName ∈ usedNames items ∨ s.hasKeywordArg helpOption.longName = true) ∧
      (∀ t, parse s options (path :: args) = .returned t →
        t.positionalArgs = s.positionalArgs ++ positionals items ∧
          ∀ name param, t.keywordArgs name = some param ↔
            s.keywordArgs name = some param ∨
              ∃ opt, Item.option opt param ∈ items ∧ opt.longName = name) ∧
      ∀ args', Splits NotDash options items args' →
        parse s options (path :: args') = parse s options (path :: args)) ∧
    parse s options (path :: args) ≠ .outOfBounds ∧
      parse s options (path :: args) ≠ .assertionFailed := by
  have haccepted : ∀ items, Splits NotDash options items args → Unused s items →
      parse s options (path :: args) = finish (items.foldl State.add (s.named path)) :=
    fun items h hunused => parse_of_splits hv path h hunused
  have hrejected : (¬ ∃ items, Splits NotDash options items args ∧ Unused s items) →
      ∃ e, parse s options (path :: args) = .error e := by
    intro hnone
    by_contra herror
    exact hnone (splits_of_parse hv fun e he => herror ⟨e, he⟩)
  have hfinish : ∀ t, finish t = .usage ∨ finish t = .returned t := by
    intro t
    unfold finish
    split
    · exact .inl rfl
    · exact .inr rfl
  refine ⟨⟨?_, ?_⟩, ?_, ?_, parse_ne_outOfBounds s options _, ?_⟩
  · intro hparse
    by_contra hnone
    obtain ⟨e, he⟩ := hrejected hnone
    rw [he] at hparse
    rcases hparse with ⟨t, ht⟩ | husage
    · cases ht
    · cases husage
  · rintro ⟨items, h, hunused⟩
    rw [haccepted items h hunused]
    rcases hfinish (items.foldl State.add (s.named path)) with husage | hreturned
    · exact .inr husage
    · exact .inl ⟨_, hreturned⟩
  · intro hnone
    obtain ⟨e, he⟩ := hrejected hnone
    rw [he]
    rfl
  · intro items h hunused
    have hhelp := hasKeywordArg_foldl (s := s.named path) hunused helpOption.longName
    rw [haccepted items h hunused]
    refine ⟨?_, ?_, fun args' h' => parse_of_splits hv path h' hunused⟩
    · refine Iff.trans ?_ hhelp
      unfold finish
      split
      next hset => exact iff_of_true rfl hset
      next hset => exact iff_of_false (fun heq => by cases heq) hset
    · intro t ht
      have heq : items.foldl State.add (s.named path) = t := by
        unfold finish at ht
        split at ht
        · cases ht
        · exact Outcome.returned.inj ht
      rw [← heq]
      exact ⟨positionalArgs_foldl _ items, fun name param =>
        keywordArgs_foldl (s := s.named path) hunused name param⟩
  · intro hfailed
    by_cases hitems : ∃ items, Splits NotDash options items args ∧ Unused s items
    · obtain ⟨items, h, hunused⟩ := hitems
      rw [haccepted items h hunused] at hfailed
      rcases hfinish (items.foldl State.add (s.named path)) with husage | hreturned
      · rw [husage] at hfailed
        cases hfailed
      · rw [hreturned] at hfailed
        cases hfailed
    · obtain ⟨e, he⟩ := hrejected hitems
      rw [he] at hfailed
      cases hfailed

/-- An option `-s`, `--size` with a parameter. -/
def sizeOption : Opt := ⟨lit "size", 's', true⟩

theorem valid_sizeOption : Valid [sizeOption] where
  nonempty := by decide
  long := by decide
  help := by decide
  short := by decide
  h := by decide

theorem parse_iff_splits_size :
    (∃ t, parse .fresh [sizeOption] [lit "prog", lit "-s3", lit "x"] = .returned t) ∨
      parse .fresh [sizeOption] [lit "prog", lit "-s3", lit "x"] = .usage :=
  (parse_iff_splits [sizeOption] valid_sizeOption .fresh (lit "prog") [lit "-s3", lit "x"]).1.mpr
    ⟨[.option sizeOption (some (lit "3")), .positional (lit "x")],
      .cons (.attached sizeOption (lit "-s3") (lit "3") (by decide) rfl (by decide)
        (show 's' ≠ '-' by decide) (by decide) rfl) (.cons (.positional (lit "x") (by decide)) .nil),
      by decide, fun _ _ => rfl⟩

/-- An option whose short name is a dash. -/
def dashOption : Opt := ⟨lit "all", '-', false⟩

/-- Two dashes would spell it if any short name could follow a dash; they are refused. -/
theorem dash_refused :
    Valid [dashOption] ∧
      (∃ items, Splits (fun _ => True) [dashOption] items [lit "--"] ∧ Unused .fresh items) ∧
      (parse .fresh [dashOption] [lit "prog", lit "--"]).exitCode = some 1 :=
  ⟨⟨by decide, by decide, by decide, by decide, by decide⟩,
    ⟨[.option dashOption none], .cons (.plain dashOption (lit "--") (by decide) rfl
      (.inr ⟨by decide, trivial, rfl⟩)) .nil, by decide, fun _ _ => rfl⟩, by decide⟩

end Turf.Extra.Options
