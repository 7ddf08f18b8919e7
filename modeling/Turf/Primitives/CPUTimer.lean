import Turf.Lib.Serial

/-!
# Points in time

CPUTimer_POSIX.h, CPUTimer_GCC.h, CPUTimer_Mach.h and CPUTimer_Win32.h. The timers read different
clocks into the same 64-bit tick, and the operations of their `Point`s are the same text.
-/
namespace Turf.Primitives.CPUTimer

open Turf.Lib.Serial

inductive Timer where
  | POSIX | GCC | Mach | Win32

/-- `int64_t`, by its bits. -/
abbrev Duration := BitVec 64

structure Point (t : Timer) where
  tick : BitVec 64

namespace Point

variable {t : Timer}

/-- `operator+` -/
def add (a : Point t) (d : Duration) : Point t := ⟨a.tick + d⟩

/-- `operator-` -/
def sub (a b : Point t) : Duration := a.tick - b.tick

/-- `operator<` -/
def lt (a b : Point t) : Bool := (a.tick - b.tick).toInt < 0

/-- `operator>=` -/
def ge (a b : Point t) : Bool := (a.tick - b.tick).toInt ≥ 0

variable {a b : Point t}

theorem lt_iff : a.lt b ↔ Before a.tick b.tick := decide_eq_true_iff

theorem ge_iff : a.ge b ↔ ¬ Before a.tick b.tick := decide_eq_true_iff.trans Int.not_lt.symm

theorem ge_iff_not_lt : a.ge b ↔ ¬ a.lt b := by rw [ge_iff, lt_iff]

theorem add_sub (a : Point t) (d : Duration) : (a.add d).sub a = d := add_sub_cancel_left a.tick d

/-- The points of a window. -/
def Within (base : BitVec 64) (n : Nat) (a : Point t) : Prop := Window base n a.tick

/-- Points are ordered as their ticks are. -/
def tickEmbedding (t : Timer) (base : BitVec 64) (n : Nat) :
    (fun p q : {a : Point t // a.Within base n} => (p.1.lt q.1 : Prop)) ↪r
      (fun p q : {a : BitVec 64 // Window base n a} => Before p.1 q.1) where
  toFun p := ⟨p.1.tick, p.2⟩
  inj' p q h := by
    have htick := Subtype.mk.inj h
    obtain ⟨⟨a⟩, ha⟩ := p
    obtain ⟨⟨c⟩, hc⟩ := q
    cases htick
    rfl
  map_rel_iff' := lt_iff.symm

/-- The order of a window says whether time has passed. -/
theorem lt_iff_elapsed {base : BitVec 64} {n : Nat} (hn : n ≤ 2 ^ 63) (ha : a.Within base n)
    (hb : b.Within base n) : a.lt b ↔ 0 < (b.sub a).toInt := by
  rw [lt_iff, before_window_iff (by omega) ha hb, sub, toInt_sub_window (by omega) hb ha]
  omega

end Point

/-- What holds of the points of each timer: durations lead forward if they are positive, and in a
window of less than half of all ticks the comparison is the order of time. -/
theorem point_laws (t : Timer) :
    (∀ (a : Point t) (d : Duration), d ≠ BitVec.intMin 64 →
      (a.add d).sub a = d ∧ (a.lt (a.add d) ↔ 0 < d.toInt) ∧ (a.ge (a.add d) ↔ d.toInt ≤ 0)) ∧
    (∀ (b : BitVec 64) (x y : Nat), x < 2 ^ 63 → y < 2 ^ 63 →
      ((⟨b + BitVec.ofNat 64 x⟩ : Point t).lt ⟨b + BitVec.ofNat 64 y⟩ ↔ x < y)) ∧
    ∀ (b : BitVec 64) (n : Nat), n ≤ 2 ^ 63 →
      IsStrictTotalOrder {a : Point t // a.Within b n} (fun p q => p.1.lt q.1) ∧
      ∀ p q : Point t, p.Within b n → q.Within b n → (p.lt q ↔ 0 < (q.sub p).toInt) := by
  refine ⟨?_, ?_, ?_⟩
  · intro a d hd
    have hlt : a.lt (a.add d) ↔ 0 < d.toInt := Point.lt_iff.trans (before_add_iff hd)
    refine ⟨a.add_sub d, hlt, ?_⟩
    rw [Point.ge_iff_not_lt, hlt, Int.not_lt]
  · intro b x y hx hy
    have hox : offset b (b + BitVec.ofNat 64 x) = x := offset_add b (by omega)
    have hoy : offset b (b + BitVec.ofNat 64 y) = y := offset_add b (by omega)
    have hwx : Window b (2 ^ 63) (b + BitVec.ofNat 64 x) := by rw [Window, hox]; exact hx
    have hwy : Window b (2 ^ 63) (b + BitVec.ofNat 64 y) := by rw [Window, hoy]; exact hy
    rw [Point.lt_iff, before_window_iff (by decide) hwx hwy, hox, hoy]
  · intro b n hn
    have horder := window_strictTotalOrder b (n := n) (by omega : 2 * n ≤ 2 ^ 64)
    refine ⟨(Point.tickEmbedding t b n).isStrictTotalOrder, ?_⟩
    intro p q hp hq
    exact Point.lt_iff_elapsed hn hp hq

end Turf.Primitives.CPUTimer
