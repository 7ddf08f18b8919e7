import Mathlib.Data.List.TakeWhile
import Turf.Extra.OptionsGrammar
import Turf.Lib.FixedInt

/-!
# Options with an integer

`getInteger` of Options.cpp. It checks that `strtol` read the whole parameter, but not whether the
number fits: `strtol` saturates at the limits of `long`, and the result is converted to `sreg`.
-/
namespace Turf.Extra.Options

open Turf.Lib.FixedInt

/-- The widths of `long` and `sreg`. -/
structure IntegerWidths where
  long : Nat
  sreg : Nat
  long_pos : 0 < long
  sreg_pos : 0 < sreg

variable {W : IntegerWidths}

abbrev IntegerWidths.longT (W : IntegerWidths) : IntType := ⟨W.long, true⟩
abbrev IntegerWidths.sregT (W : IntegerWidths) : IntType := ⟨W.sreg, true⟩

/-! ## The code -/

def isSpace (c : Char) : Bool :=
  c = ' ' || c = '\t' || c = '\n' || c = Char.ofNat 11 || c = Char.ofNat 12 || c = '\r'

/-- Whether a text starts with a minus sign, and how long the sign at its start is. -/
def readSign : List Char → Bool × Nat
  | '-' :: _ => (true, 1)
  | '+' :: _ => (false, 1)
  | _ => (false, 0)

/-- `strtol` with base 10: the number and the index where the digits end, zero without digits. -/
def strtol (W : IntegerWidths) (s : CString) : Val W.longT × Nat :=
  let spaces := (s.chars.takeWhile isSpace).length
  let (negative, sign) := readSign (s.chars.drop spaces)
  let digits := (s.chars.drop (spaces + sign)).takeWhile Char.isDigit
  if digits.isEmpty then (0, 0)
  else
    let n : Int := Nat.ofDigitChars 10 digits 0
    (W.longT.cast (saturate W.long (if negative then -n else n)), spaces + sign + digits.length)

/-- How `getInteger` ends. The last is a call of `strtol` with NULL. -/
inductive IntegerOutcome (W : IntegerWidths) where
  | returned (result : Val W.sregT)
  | error (longName param : CString)
  | undefined

def getInteger (s : State) (longName : CString) (defaultValue : Val W.sregT) : IntegerOutcome W :=
  match s.keywordArgs longName with
  | none => .returned defaultValue
  | some none => .undefined
  | some (some param) =>
    let (result, endPtr) := strtol W param
    if endPtr = 0 ∨ param.charAt endPtr ≠ nul then .error longName param
    else .returned (W.sregT.cast result.int)

/-! ## Integers as texts -/

/-- The number that a sign and digits stand for. -/
def signed (sign digits : List Char) : Int :=
  if sign = ['-'] then -(Nat.ofDigitChars 10 digits 0 : Int) else Nat.ofDigitChars 10 digits 0

/-- The text is blanks, a sign if there is one, and digits, and this is their number. -/
def Denotes (s : CString) (v : Int) : Prop :=
  ∃ spaces sign digits : List Char, s.chars = spaces ++ (sign ++ digits) ∧
    (∀ c ∈ spaces, isSpace c) ∧ (sign = [] ∨ sign = ['+'] ∨ sign = ['-']) ∧
    digits ≠ [] ∧ (∀ c ∈ digits, c.isDigit) ∧ v = signed sign digits

/-- A run of characters that satisfy a test, with one behind it that does not or the end. -/
theorem takeWhile_run {p : Char → Bool} {run rest : List Char} (hrun : ∀ c ∈ run, p c)
    (hrest : ∀ c, rest.head? = some c → p c = false) : (run ++ rest).takeWhile p = run := by
  have hstop : rest.takeWhile p = [] := by
    cases rest with
    | nil => rfl
    | cons c cs => rw [List.takeWhile_cons_of_neg (by rw [hrest c rfl]; simp)]
  rw [List.takeWhile_append_of_pos hrun, hstop, List.append_nil]

theorem isDigit_bounds {c : Char} (h : c.isDigit) : 48 ≤ c.toNat ∧ c.toNat ≤ 57 := by
  obtain ⟨hlow, hhigh⟩ := Bool.and_eq_true_iff.mp h
  exact ⟨UInt32.le_iff_toNat_le.mp (of_decide_eq_true hlow),
    UInt32.le_iff_toNat_le.mp (of_decide_eq_true hhigh)⟩

theorem isDigit_ne {c d : Char} (h : c.isDigit) (hd : d.toNat < 48) : c ≠ d := by
  intro heq
  have hbounds := isDigit_bounds h
  rw [heq] at hbounds
  omega

theorem isDigit_not_space {c : Char} (h : c.isDigit) : isSpace c = false := by
  have hspace := @isDigit_ne c ' ' h (by decide)
  have htab := @isDigit_ne c '\t' h (by decide)
  have hline := @isDigit_ne c '\n' h (by decide)
  have hvertical := @isDigit_ne c (Char.ofNat 11) h (by decide)
  have hfeed := @isDigit_ne c (Char.ofNat 12) h (by decide)
  have hreturn := @isDigit_ne c '\r' h (by decide)
  simp [isSpace, hspace, htab, hline, hvertical, hfeed, hreturn]

/-- What `readSign` reads is a sign at the start of the text. -/
theorem readSign_spec (l : List Char) :
    ∃ sign, (sign = [] ∨ sign = ['+'] ∨ sign = ['-']) ∧ l = sign ++ l.drop sign.length ∧
      readSign l = (decide (sign = ['-']), sign.length) := by
  unfold readSign
  split
  · exact ⟨['-'], .inr (.inr rfl), rfl, rfl⟩
  · exact ⟨['+'], .inr (.inl rfl), rfl, rfl⟩
  · exact ⟨[], .inl rfl, rfl, rfl⟩

theorem readSign_append {sign digits : List Char} (hsign : sign = [] ∨ sign = ['+'] ∨ sign = ['-'])
    (hdigits : ∀ c ∈ digits, c.isDigit) :
    readSign (sign ++ digits) = (decide (sign = ['-']), sign.length) := by
  rcases hsign with rfl | rfl | rfl
  · cases digits with
    | nil => rfl
    | cons c cs =>
      have hc := hdigits c List.mem_cons_self
      show readSign (c :: cs) = _
      unfold readSign
      split
      · next heq => exact absurd (List.cons.inj heq).1 (isDigit_ne hc (by decide))
      · next heq => exact absurd (List.cons.inj heq).1 (isDigit_ne hc (by decide))
      · rfl
  · rfl
  · rfl

/-- A text cut where `strtol` goes on from the blanks to the sign and to the digits. -/
structure Parts (s : CString) (spaces sign digits rest : List Char) : Prop where
  chars : s.chars = spaces ++ (sign ++ (digits ++ rest))
  spaces_eq : s.chars.takeWhile isSpace = spaces
  sign_eq : readSign (sign ++ (digits ++ rest)) = (decide (sign = ['-']), sign.length)
  digits_eq : (digits ++ rest).takeWhile Char.isDigit = digits

theorem Parts.strtol {s : CString} {spaces sign digits rest : List Char}
    (h : Parts s spaces sign digits rest) :
    strtol W s = if digits.isEmpty then (0, 0)
      else (W.longT.cast (saturate W.long (signed sign digits)),
        spaces.length + sign.length + digits.length) := by
  have hafter : s.chars.drop spaces.length = sign ++ (digits ++ rest) := by
    rw [h.chars, List.drop_left]
  have htail : s.chars.drop (spaces.length + sign.length) = digits ++ rest := by
    rw [← List.drop_drop, hafter, List.drop_left]
  unfold Options.strtol signed
  simp only [h.spaces_eq, hafter, h.sign_eq, htail, h.digits_eq, decide_eq_true_eq]

theorem exists_parts (s : CString) :
    ∃ spaces sign digits rest, Parts s spaces sign digits rest ∧
      (sign = [] ∨ sign = ['+'] ∨ sign = ['-']) := by
  obtain ⟨sign, hsign, hsplit, hread⟩ := readSign_spec (s.chars.dropWhile isSpace)
  generalize htail : (s.chars.dropWhile isSpace).drop sign.length = tail at hsplit
  have hdigits := List.takeWhile_append_dropWhile (p := Char.isDigit) (l := tail)
  refine ⟨s.chars.takeWhile isSpace, sign, tail.takeWhile Char.isDigit, tail.dropWhile Char.isDigit,
    ⟨?_, rfl, ?_, ?_⟩, hsign⟩
  · rw [hdigits, ← hsplit, List.takeWhile_append_dropWhile]
  · rw [hdigits, ← hsplit, hread]
  · rw [hdigits]

theorem Denotes.parts {s : CString} {v : Int} (h : Denotes s v) :
    ∃ spaces sign digits, Parts s spaces sign digits [] ∧ digits ≠ [] ∧ v = signed sign digits := by
  obtain ⟨spaces, sign, digits, hchars, hspaces, hsign, hne, hdigits, hv⟩ := h
  refine ⟨spaces, sign, digits, ⟨?_, ?_, ?_, ?_⟩, hne, hv⟩
  · rw [List.append_nil, hchars]
  · rw [hchars]
    apply takeWhile_run hspaces
    intro c hc
    rcases hsign with rfl | rfl | rfl
    · exact isDigit_not_space (hdigits c (List.mem_of_mem_head? hc))
    · cases hc
      decide
    · cases hc
      decide
  · rw [List.append_nil]
    exact readSign_append hsign hdigits
  · exact takeWhile_run hdigits fun c hc => by cases hc

theorem denotes_unique {s : CString} {v v' : Int} (h : Denotes s v) (h' : Denotes s v') : v = v' := by
  obtain ⟨spaces, sign, digits, hp, -, hv⟩ := h.parts
  obtain ⟨spaces', sign', digits', hp', -, hv'⟩ := h'.parts
  have hspaces : spaces = spaces' := hp.spaces_eq.symm.trans hp'.spaces_eq
  have hchars : spaces ++ (sign ++ (digits ++ [])) = spaces ++ (sign' ++ (digits' ++ [])) := by
    rw [← hp.chars, hspaces, ← hp'.chars]
  have htail := List.append_cancel_left hchars
  have hread := hp.sign_eq
  rw [htail, hp'.sign_eq] at hread
  obtain ⟨hsign, hdigits⟩ := List.append_inj htail (Prod.mk.inj hread).2.symm
  rw [hv, hv', hsign, List.append_cancel_right hdigits]

/-- A text that denotes an integer is read to its end. -/
theorem strtol_of_denotes {s : CString} {v : Int} (h : Denotes s v) :
    strtol W s = (W.longT.cast (saturate W.long v), s.chars.length) ∧ 0 < s.chars.length := by
  obtain ⟨spaces, sign, digits, hp, hne, hv⟩ := h.parts
  have hpos := List.length_pos_iff.mpr hne
  have hlength : s.chars.length = spaces.length + sign.length + digits.length := by
    rw [hp.chars, List.append_nil, List.length_append, List.length_append]
    omega
  rw [hp.strtol, if_neg (by simpa using hne), hv, hlength]
  exact ⟨rfl, by omega⟩

/-- A text that is read to its end denotes an integer. -/
theorem denotes_of_strtol {s : CString} (hpos : (strtol W s).2 ≠ 0)
    (hend : s.charAt (strtol W s).2 = nul) : ∃ v, Denotes s v := by
  obtain ⟨spaces, sign, digits, rest, h, hsign⟩ := exists_parts s
  rw [h.strtol] at hpos hend
  split at hpos
  · exact absurd rfl hpos
  · next hne =>
    rw [if_neg hne] at hend
    have hlength : s.chars.length = spaces.length + sign.length + digits.length + rest.length := by
      rw [h.chars]
      simp only [List.length_append]
      omega
    have hrest : rest = [] := by
      by_contra hrest
      have hlong := List.length_pos_iff.mpr hrest
      exact charAt_ne_nul (by omega) hend
    refine ⟨signed sign digits, spaces, sign, digits, ?_, ?_, hsign, ?_, ?_, rfl⟩
    · rw [h.chars, hrest, List.append_nil]
    · intro c hc
      rw [← h.spaces_eq] at hc
      exact List.mem_takeWhile_imp hc
    · simpa using hne
    · intro c hc
      rw [← h.digits_eq] at hc
      exact List.mem_takeWhile_imp hc

/-! ## What is returned -/

variable {st : State} {longName param : CString} {defaultValue : Val W.sregT}

theorem charAt_length (s : CString) : s.charAt s.chars.length = nul := by
  rw [CString.charAt, List.getD_eq_getElem?_getD, List.getElem?_eq_none (Nat.le_refl _), Option.getD_none]

theorem getInteger_of_denotes (hparam : st.keywordArgs longName = some (some param)) {v : Int}
    (h : Denotes param v) :
    getInteger st longName defaultValue = .returned (W.sregT.cast (saturate W.long v)) := by
  obtain ⟨hread, hpos⟩ := strtol_of_denotes (W := W) h
  have hlong : (W.longT.cast (saturate W.long v)).int = saturate W.long v := saturate_range W.long_pos v
  unfold getInteger
  simp only [hparam, hread]
  rw [if_neg, hlong]
  rw [not_or, charAt_length]
  exact ⟨by omega, not_not_intro rfl⟩

theorem getInteger_of_not_denotes (hparam : st.keywordArgs longName = some (some param))
    (h : ¬ ∃ v, Denotes param v) :
    getInteger st longName defaultValue = .error longName param := by
  unfold getInteger
  simp only [hparam]
  rw [if_pos]
  by_contra hread
  rw [not_or, Decidable.not_not] at hread
  exact h (denotes_of_strtol hread.1 hread.2)

/-- What is returned is the integer that the parameter denotes, or the error is reported. -/
def Truthful (st : State) (longName param : CString) (defaultValue : Val W.sregT) : Prop :=
  getInteger st longName defaultValue = .error longName param ∨
    ∃ r, getInteger st longName defaultValue = .returned r ∧ Denotes param r.int

/-- `getInteger` is right exactly where the integer, if the parameter denotes one, fits both types. -/
theorem getInteger_truthful_iff (st : State) (longName param : CString) (defaultValue : Val W.sregT)
    (hparam : st.keywordArgs longName = some (some param)) :
    Truthful st longName param defaultValue ↔
      ∀ v, Denotes param v → W.longT.wrap v = v ∧ W.sregT.wrap v = v := by
  constructor
  · intro h v hv
    have hcode : getInteger st longName defaultValue = _ := getInteger_of_denotes hparam hv
    rcases h with herror | ⟨r, hr, hdenotes⟩
    · rw [hcode] at herror
      cases herror
    · rw [hcode] at hr
      cases hr
      have heq := denotes_unique hdenotes hv
      exact (wrap_saturate_iff W.long_pos W.sreg_pos v).mp heq
  · intro h
    by_cases hdenotes : ∃ v, Denotes param v
    · obtain ⟨v, hv⟩ := hdenotes
      have heq := (wrap_saturate_iff W.long_pos W.sreg_pos v).mpr (h v hv)
      refine .inr ⟨_, getInteger_of_denotes hparam hv, ?_⟩
      show Denotes param (IntType.wrap ⟨W.sreg, true⟩ (saturate W.long v))
      rw [heq]
      exact hv
    · exact .inl (getInteger_of_not_denotes hparam hdenotes)

def widths64 : IntegerWidths := ⟨64, 64, by decide, by decide⟩

/-- The option `--count` with a parameter. -/
def countOption (param : CString) : State :=
  { State.fresh with
    keywordArgs := Function.update State.fresh.keywordArgs (lit "count") (some (some param)) }

theorem countOption_param (param : CString) :
    (countOption param).keywordArgs (lit "count") = some (some param) := by simp [countOption]

theorem getInteger_small :
    Truthful (countOption (lit " -42")) (lit "count") (lit " -42") (0 : Val widths64.sregT) := by
  have hdenotes : Denotes (lit " -42") (-42) :=
    ⟨[' '], ['-'], ['4', '2'], by decide, List.all_eq_true.mp (by decide), by decide, by decide,
      List.all_eq_true.mp (by decide), by decide⟩
  apply (getInteger_truthful_iff _ _ _ _ (countOption_param _)).mpr
  intro v hv
  rw [denotes_unique hv hdenotes]
  decide

/-- The first integer above the range of a `long` is taken for the last one in it. -/
theorem getInteger_saturates :
    ¬ Truthful (countOption (lit "9223372036854775808")) (lit "count") (lit "9223372036854775808")
      (0 : Val widths64.sregT) := by
  have hdenotes : Denotes (lit "9223372036854775808") 9223372036854775808 :=
    ⟨[], [], "9223372036854775808".toList, by decide, List.all_eq_true.mp (by decide), by decide,
      by decide, List.all_eq_true.mp (by decide), by decide⟩
  have hcode : getInteger (W := widths64) _ _ 0 = _ :=
    getInteger_of_denotes (countOption_param _) hdenotes
  intro h
  rcases h with herror | ⟨r, hr, hresult⟩
  · rw [hcode] at herror
    cases herror
  · rw [hcode] at hr
    cases hr
    exact absurd (denotes_unique hresult hdenotes) (by decide)

end Turf.Extra.Options
