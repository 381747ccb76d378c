import HostBlocks.Numeral

/-!
# Random words

A source of randomness is an endless sequence of 64-bit words of which some have been used. Numbers
below a bound are drawn from 128-bit numbers by multiplication: the high half of the product is the
number, and where the low half leaves the choice in doubt a second number settles it.

Who draws numbers asks for no more than that they lie in the range, and words are one source of such
numbers.
-/
namespace HostBlocks

structure Words where
  word : Nat → UInt64
  used : Nat

namespace Words

def cycle (ws : List UInt64) : Words := ⟨fun i => ws.getD (i % ws.length) 0, 0⟩

def mix (z : UInt64) : UInt64 :=
  let z := (z ^^^ (z >>> 30)) * 0xBF58476D1CE4E5B9
  let z := (z ^^^ (z >>> 27)) * 0x94D049BB133111EB
  z ^^^ (z >>> 31)

def ofSeed (seed : UInt64) : Words :=
  ⟨fun i => mix (seed + UInt64.ofNat (i + 1) * 0x9E3779B97F4A7C15), 0⟩

/-- A 128-bit number of two words, the lower first. -/
def wide (w : Words) : Nat × Words :=
  ((w.word (w.used + 1)).toNat * 2 ^ 64 + (w.word w.used).toNat, ⟨w.word, w.used + 2⟩)

/-- A number below `n`, for `n` up to `2 ^ 127`. -/
def below (w : Words) (n : Nat) : Nat × Words :=
  let first := w.wide
  let p := first.1 * n
  if 2 ^ 128 < p % 2 ^ 128 + n then
    let second := first.2.wide
    ((p + second.1 * n / 2 ^ 128) / 2 ^ 128, second.2)
  else (p / 2 ^ 128, first.2)

def draw (w : Words) (lo hi : Nat) : Nat × Words :=
  let offset := w.below (hi - lo)
  (lo + offset.1, offset.2)

theorem two_digits_lt {b high low : Nat} (hh : high < b) (hl : low < b) :
    high * b + low < b * b := by
  have : (high + 1) * b ≤ b * b := Nat.mul_le_mul_right b hh
  rw [Nat.add_mul, Nat.one_mul] at this
  omega

theorem wide_lt (w : Words) : w.wide.1 < 2 ^ 128 := by
  have h := two_digits_lt (w.word (w.used + 1)).toNat_lt (w.word w.used).toNat_lt
  rwa [← Nat.pow_add] at h

theorem mul_div_lt {u n b : Nat} (hu : u < b) (hn : 0 < n) : u * n / b < n :=
  Nat.div_lt_of_lt_mul (Nat.mul_lt_mul_of_pos_right hu hn)

theorem mul_add_div_lt {u m n b : Nat} (hu : u < b) (hm : m < n) : (u * n + m) / b < n := by
  apply Nat.div_lt_of_lt_mul
  have : (u + 1) * n ≤ b * n := Nat.mul_le_mul_right n hu
  rw [Nat.add_mul, Nat.one_mul] at this
  omega

theorem below_lt (w : Words) {n : Nat} (hn : 0 < n) : (w.below n).1 < n := by
  rw [below]
  dsimp only
  split
  · exact mul_add_div_lt w.wide_lt (mul_div_lt w.wide.2.wide_lt hn)
  · exact mul_div_lt w.wide_lt hn

theorem le_draw (w : Words) (lo hi : Nat) : lo ≤ (w.draw lo hi).1 := Nat.le_add_right _ _

theorem draw_lt (w : Words) {lo hi : Nat} (h : lo < hi) : (w.draw lo hi).1 < hi := by
  have : (w.below (hi - lo)).1 < hi - lo := w.below_lt (by omega)
  show lo + (w.below (hi - lo)).1 < hi
  omega

end Words

/-- Where numbers in a range are drawn from, by the states that drawing leads through. -/
structure Source (σ : Type) where
  /-- A number from `lo` up to `hi`, the latter excluded. -/
  draw : σ → (lo hi : Nat) → Nat × σ
  le_draw : ∀ (r : σ) {lo hi : Nat}, lo < hi → lo ≤ (draw r lo hi).1
  draw_lt : ∀ (r : σ) {lo hi : Nat}, lo < hi → (draw r lo hi).1 < hi

def Words.source : Source Words where
  draw := draw
  le_draw w _ _ _ := w.le_draw _ _
  draw_lt w _ _ h := w.draw_lt h

end HostBlocks
