import Mathlib.Data.List.DropRight
import Turf.Affinity.Collected

/-!
# The processor blocks of the text

What the text of `/proc/cpuinfo` says, without a collector: each line with the label
`processor` and a number opens a block that runs to the next such line, and a block has a
core of its own or shares one. The table that the constructor builds is the group-by of the
blocks by their cores while they can be counted in 32 bits.
-/
namespace Turf.Affinity.Linux

open Turf.Lib.Grouping

/-! ## Lines -/

def isBlank (c : Char) : Bool := c = ' ' ∨ c = '\t'

/-- The text before the first colon, without the blanks at its end. -/
def labelText (line : List Char) : List Char := (line.takeWhile (· ≠ ':')).rdropWhile isBlank

/-- The text after the first colon. -/
def valueText (line : List Char) : List Char := (line.dropWhile (· ≠ ':')).tail

/-- The attribute of a line and its integer, if it has both. -/
def setting (overflow : Int → S32) (line : List Char) : Option (Attribute × S32) :=
  if ':' ∈ line then
    (scanInt overflow (valueText line)).bind fun value =>
      (attributeOf (labelText line)).map fun a => (a, value)
  else none

theorem isBlank_iff (c : Char) : isBlank c = true ↔ ¬ (c ≠ ' ' ∧ c ≠ '\t') := by
  simp only [isBlank, decide_eq_true_eq]
  tauto

/-- Going back over the blanks before a colon drops the blanks at the end of the text. -/
theorem label_succ (s : List Char) (pos : Nat) (h : pos < s.length) :
    label s (pos + 1) = (s.take (pos + 1)).rdropWhile isBlank := by
  induction pos with
  | zero =>
    cases s with
    | nil => cases h
    | cons c s =>
      rw [List.take_succ_cons, List.take_zero, List.rdropWhile_singleton]
      by_cases hc : isBlank c = true
      · simp [label, findLastNotBlank, hc, (isBlank_iff c).mp hc]
      · simp [label, findLastNotBlank, hc, not_not.mp (mt (isBlank_iff c).mpr hc)]
  | succ pos ih =>
    have hpos := ih (by omega)
    rw [List.take_succ_eq_append_getElem h]
    by_cases hc : isBlank s[pos + 1] = true
    · rw [List.rdropWhile_concat_pos _ _ _ hc, ← hpos]
      simp [label, findLastNotBlank, h, (isBlank_iff _).mp hc]
    · rw [List.rdropWhile_concat_neg _ _ _ hc, ← List.take_succ_eq_append_getElem h]
      simp [label, findLastNotBlank, h, not_not.mp (mt (isBlank_iff _).mpr hc)]

theorem findIdx_colon {line : List Char} {colon : Nat}
    (h : line.findIdx? (· = ':') = some colon) :
    line.findIdx (fun c => !decide (c ≠ ':')) = colon := by
  rw [← (List.findIdx?_eq_some_iff_findIdx_eq.mp h).2]
  simp

/-- A line that starts with its colon has no label, whatever the code takes for it. -/
theorem attributeOf_label (line : List Char) {colon : Nat}
    (hcolon : line.findIdx? (· = ':') = some colon) :
    attributeOf (label line colon) = attributeOf (labelText line) := by
  obtain ⟨hlt, hfound, -⟩ := List.findIdx?_eq_some_iff_getElem.mp hcolon
  have htext : line.takeWhile (· ≠ ':') = line.take colon := by
    rw [List.takeWhile_eq_take_findIdx_not, findIdx_colon hcolon]
  rw [labelText, htext]
  cases colon with
  | zero =>
    cases line with
    | nil => cases hlt
    | cons c line =>
      have hc : c = ':' := of_decide_eq_true hfound
      subst hc
      rfl
  | succ colon =>
    rw [label_succ line colon (by omega)]

theorem parseLine_eq (overflow : Int → S32) (line : List Char) :
    parseLine overflow line = setting overflow line := by
  rw [parseLine, setting]
  cases hcolon : line.findIdx? (· = ':') with
  | none =>
    have hnone : ':' ∉ line := by
      intro hmem
      exact absurd (List.findIdx?_eq_none_iff.mp hcolon ':' hmem) (by decide)
    rw [if_neg hnone, Option.bind_none]
  | some colon =>
    obtain ⟨hlt, hfound, -⟩ := List.findIdx?_eq_some_iff_getElem.mp hcolon
    have hmem : ':' ∈ line := of_decide_eq_true hfound ▸ List.getElem_mem hlt
    have htext : valueText line = line.drop (colon + 1) := by
      rw [valueText, List.dropWhile_eq_drop_findIdx_not, List.tail_drop, findIdx_colon hcolon]
    rw [if_pos hmem, Option.bind_some, attributeOf_label line hcolon, htext]

/-! ## Blocks -/

/-- The number of a processor and what the lines up to the next one set. -/
structure Block where
  logicalProcessor : S32
  opens : 0 ≤ logicalProcessor.toInt
  settings : List (Attribute × S32)

/-- The last integer for an attribute. -/
def last (kind : Attribute) (default : S32) (settings : List (Attribute × S32)) : S32 :=
  ((settings.filter fun s => s.1 = kind).getLast?.map Prod.snd).getD default

namespace Block

def effectiveID (b : Block) : CoreID :=
  coreIDOf b.logicalProcessor ⟨last .physicalId (-1) b.settings, last .coreId (-1) b.settings⟩

def entry (b : Block) : CoreID × U32 := (b.effectiveID, b.logicalProcessor)

end Block

/-- A line with a negative number ends a block and opens none. -/
def blocksOf : List (Attribute × S32) → List Block
  | [] => []
  | (.processor, value) :: rest =>
    if h : 0 ≤ value.toInt then
      ⟨value, h, rest.takeWhile fun s => s.1 ≠ .processor⟩ :: blocksOf rest
    else blocksOf rest
  | (.physicalId, _) :: rest => blocksOf rest
  | (.coreId, _) :: rest => blocksOf rest

def blocks (overflow : Int → S32) (text : List Char) : List Block :=
  blocksOf ((text.splitOn '\n').filterMap (setting overflow))

/-! ## The flushes of the blocks -/

theorem last_cons_self (kind : Attribute) (default value : S32)
    (settings : List (Attribute × S32)) :
    last kind default ((kind, value) :: settings) = last kind value settings := by
  unfold last
  rw [List.filter_cons_of_pos (by simp), List.getLast?_cons]
  cases (settings.filter fun s => s.1 = kind).getLast? <;> rfl

theorem last_cons_of_ne {kind other : Attribute} (h : other ≠ kind) (default value : S32)
    (settings : List (Attribute × S32)) :
    last kind default ((other, value) :: settings) = last kind default settings := by
  unfold last
  rw [List.filter_cons_of_neg (by simpa using h)]

/-- What a collector holds after some settings. -/
def settle (id : CoreID) (settings : List (Attribute × S32)) : CoreID :=
  ⟨last .physicalId id.physical settings, last .coreId id.core settings⟩

/-- A flush comes one block late: what is pending goes before the blocks that follow. -/
theorem listed_flushes (logicalProcessor : S32) (id : CoreID) (settings : List (Attribute × S32)) :
    listed (flushes (logicalProcessor, id) settings) =
      Affinity.entry logicalProcessor (settle id (settings.takeWhile fun s => s.1 ≠ .processor)) ++
        (blocksOf settings).map Block.entry := by
  induction settings generalizing logicalProcessor id with
  | nil => rw [flushes, listed, List.flatMap_singleton]; exact (List.append_nil _).symm
  | cons s rest ih =>
    obtain ⟨kind, value⟩ := s
    cases kind with
    | processor =>
      rw [flushes, listed, List.flatMap_cons, ← listed, ih, blocksOf]
      congr 1
      unfold Affinity.entry
      by_cases h : 0 ≤ value.toInt
      · rw [dif_pos h, if_pos h]
        rfl
      · rw [dif_neg h, if_neg h]
        rfl
    | physicalId =>
      rw [flushes, ih, blocksOf, List.takeWhile_cons_of_pos rfl]
      unfold settle
      rw [last_cons_self, last_cons_of_ne (by decide)]
    | coreId =>
      rw [flushes, ih, blocksOf, List.takeWhile_cons_of_pos rfl]
      unfold settle
      rw [last_cons_self, last_cons_of_ne (by decide)]

theorem listed_blocks (overflow : Int → S32) (text : List Char) :
    listed (flushes (-1, .none) (attributes overflow text)) =
      (blocks overflow text).map Block.entry := by
  have hlines : attributes overflow text = (text.splitOn '\n').filterMap (setting overflow) := by
    rw [attributes]
    congr 1
    funext line
    exact parseLine_eq overflow line
  rw [hlines, listed_flushes]
  rfl

/-! ## The table -/

/-- The cores in order of the first block of each. -/
def coresOf (bs : List Block) : List CoreID := (bs.map Block.effectiveID).eraseDups

/-- The place of a block's core. -/
def coreIndex (bs : List Block) (b : Block) : Nat := (coresOf bs).idxOf b.effectiveID

/-- The processors of the blocks of a core. -/
def processorsOf (bs : List Block) (id : CoreID) : List U32 :=
  (bs.filter fun b => b.effectiveID = id).map Block.logicalProcessor

/-- The object is the group-by of the blocks. -/
structure Tabulates (bs : List Block) (isAccurate : Bool) (a : Cores) : Prop where
  accurate : isAccurate = true ↔ bs ≠ []
  cores : bs ≠ [] → a.coreIndexToInfo = (coresOf bs).map (processorsOf bs)
  count : bs ≠ [] → a.numHWThreads.toNat = bs.length
  fallback : bs = [] → a = ⟨[[0]], 1⟩
  placed : ∀ b ∈ bs, a.coreIndexToInfo[coreIndex bs b]? = some (processorsOf bs b.effectiveID)
  shared : ∀ b ∈ bs, ∀ b' ∈ bs, coreIndex bs b = coreIndex bs b' ↔ b.effectiveID = b'.effectiveID

theorem keysOf_entries (bs : List Block) : keysOf (bs.map Block.entry) = coresOf bs := by
  rw [keysOf, List.map_map]
  rfl

theorem valuesOf_entries (bs : List Block) (id : CoreID) :
    valuesOf (bs.map Block.entry) id = processorsOf bs id := by
  rw [valuesOf, List.filter_map, List.map_map]
  rfl

theorem mem_coresOf {bs : List Block} {b : Block} (h : b ∈ bs) : b.effectiveID ∈ coresOf bs :=
  List.mem_eraseDups.mpr (List.mem_map_of_mem h)

/-- The groups of some blocks and their number are their table. -/
theorem tabulates_of_groups {bs : List Block} {a : Cores} (hne : bs ≠ [])
    (hgroups : a.coreIndexToInfo = (coresOf bs).map (processorsOf bs))
    (hcount : a.numHWThreads.toNat = bs.length) : Tabulates bs true a where
  accurate := iff_of_true rfl hne
  cores _ := hgroups
  count _ := hcount
  fallback hnil := absurd hnil hne
  placed b hb := by
    rw [hgroups, List.getElem?_map, coreIndex, List.getElem?_idxOf (mem_coresOf hb)]
    rfl
  shared b hb _ _ := List.idxOf_inj (mem_coresOf hb)

theorem tabulates_nil : Tabulates [] false ⟨[[0]], 1⟩ where
  accurate := by simp
  cores hne := absurd rfl hne
  count hne := absurd rfl hne
  fallback _ := rfl
  placed _ hb := nomatch hb
  shared _ hb := nomatch hb

theorem distinct_le_length (es : List (CoreID × U32)) : distinct es ≤ es.length := by
  rw [distinct, ← List.length_map Prod.fst]
  exact List.toFinset_card_le _

theorem Tabulates.length_lt {bs : List Block} {isAccurate : Bool} {a : Cores}
    (h : Tabulates bs isAccurate a) : bs.length < 2 ^ 32 := by
  by_cases hnil : bs = []
  · rw [hnil]
    decide
  · rw [← h.count hnil]
    exact a.numHWThreads.isLt

/-- The table is the group-by of the blocks exactly while a `u32` can count them. -/
theorem init_tabulates_iff (overflow : Int → S32) (text : List Char) :
    (∃ isAccurate a, init overflow (some text) = some (isAccurate, a) ∧
      Tabulates (blocks overflow text) isAccurate a) ↔
      (blocks overflow text).length < 2 ^ 32 := by
  constructor
  · intro h
    obtain ⟨isAccurate, a, -, htable⟩ := h
    exact htable.length_lt
  · intro hlt
    have hlisted := listed_blocks overflow text
    have hdistinct := distinct_le_length ((blocks overflow text).map Block.entry)
    rw [List.length_map] at hdistinct
    obtain ⟨index, a, hcollect, h⟩ := collect_some
      (flushes (-1, .none) (attributes overflow text)) (by rw [hlisted]; omega)
    rw [hlisted] at h
    have hcount := h.count
    rw [init_some, hcollect, Option.map_some]
    rw [List.length_map] at hcount
    by_cases hnil : blocks overflow text = []
    · have hgroups := h.grouped.groups
      rw [hnil] at hcount hgroups ⊢
      refine ⟨false, ⟨[[0]], 1⟩, ?_, tabulates_nil⟩
      obtain ⟨cores, numHWThreads⟩ := a
      rw [show cores = [] from hgroups, show numHWThreads = 0 from hcount]
      rfl
    · have htoNat : a.numHWThreads.toNat = (blocks overflow text).length := by
        rw [hcount, toNat_ofNat_of_lt hlt]
      refine ⟨true, a, ?_, tabulates_of_groups hnil ?_ htoNat⟩
      · rw [Cores.finish, if_pos]
        rw [gt_iff_lt, BitVec.lt_def, htoNat]
        exact List.length_pos_of_ne_nil hnil
      · rw [h.grouped.groups, keysOf_entries]
        exact List.map_congr_left fun id _ => valuesOf_entries _ id

/-! ## Too many blocks -/

/-- A text of the same line, over and over. -/
def repeated (n : Nat) : List Char :=
  ['\n'].intercalate (List.replicate n "processor:0".toList)

theorem settings_repeated (overflow : Int → S32) {n : Nat} (hn : n ≠ 0) :
    ((repeated n).splitOn '\n').filterMap (setting overflow) =
      List.replicate n (.processor, 0) := by
  have hlines : (repeated n).splitOn '\n' = List.replicate n "processor:0".toList := by
    apply List.splitOn_intercalate
    · intro line hline
      rw [List.eq_of_mem_replicate hline]
      decide
    · exact mt (List.replicate_eq_nil_iff _).mp hn
  have hsetting : setting overflow "processor:0".toList = some (.processor, 0) := by rfl
  rw [hlines, List.filterMap_replicate, hsetting]

theorem blocksOf_replicate (n : Nat) :
    (blocksOf (List.replicate n (.processor, 0))).map Block.entry =
      List.replicate n (⟨0, 0⟩, 0) := by
  induction n with
  | zero => rfl
  | succ n ih =>
    rw [List.replicate_succ, List.replicate_succ, blocksOf, dif_pos (by decide), List.map_cons, ih]
    congr 1
    cases n <;> rfl

/-- After `2 ^ 32` blocks the counter is zero again and the object is the one for no block. -/
theorem repeated_wraps :
    (blocks (fun _ => 0) (repeated (2 ^ 32))).length = 2 ^ 32 ∧
      (∃ a, init (fun _ => 0) (some (repeated (2 ^ 32))) = some (false, a) ∧
        a.numHWThreads = 1) ∧
      ¬ ∃ isAccurate a, init (fun _ => 0) (some (repeated (2 ^ 32))) = some (isAccurate, a) ∧
        Tabulates (blocks (fun _ => 0) (repeated (2 ^ 32))) isAccurate a := by
  have hentries : (blocks (fun _ => 0) (repeated (2 ^ 32))).map Block.entry =
      List.replicate (2 ^ 32) (⟨0, 0⟩, 0) := by
    rw [blocks, settings_repeated _ (by decide), blocksOf_replicate]
  have hlength : (blocks (fun _ => 0) (repeated (2 ^ 32))).length = 2 ^ 32 := by
    rw [← List.length_map Block.entry, hentries, List.length_replicate]
  refine ⟨hlength, ?_, ?_⟩
  · have hlisted := listed_blocks (fun _ => 0) (repeated (2 ^ 32))
    rw [hentries] at hlisted
    have hdistinct : distinct (List.replicate (2 ^ 32) ((⟨0, 0⟩ : CoreID), (0 : U32))) = 1 := by
      rw [distinct, List.map_replicate, List.toFinset_replicate_of_ne_zero (by decide),
        Finset.card_singleton]
    obtain ⟨index, a, hcollect, h⟩ := collect_some
      (flushes (-1, .none) (attributes (fun _ => 0) (repeated (2 ^ 32))))
      (by rw [hlisted, hdistinct]; decide)
    have hzero : a.numHWThreads = 0 := by
      rw [h.count, hlisted, List.length_replicate]
      decide
    refine ⟨⟨(a.resize 1).coreIndexToInfo.modify 0 (· ++ [0]), 1⟩, ?_, rfl⟩
    rw [init_some, hcollect, Option.map_some, Cores.finish, hzero]
    rfl
  · intro h
    obtain ⟨isAccurate, a, -, htable⟩ := h
    have hlt := htable.length_lt
    rw [hlength] at hlt
    exact absurd hlt (lt_irrefl _)

end Turf.Affinity.Linux
