import HostBlocks.Network

/-!
# Layouts

A layout cuts a pool into blocks of one length. The pool may have host bits: the blocks are those of
its whole range. Once a layout is made, every index below its count is a block inside the pool.
-/
namespace HostBlocks

inductive SizeError where
  | invalidLength (family : Family) (length : Nat)
  | poolTooSmall (pool : Network) (length : Nat)
  | tooManyBlocks (pool : Network) (length : Nat)
deriving DecidableEq

def SizeError.message : SizeError → String
  | .invalidLength family length =>
    "block prefix length /" ++ toString length ++ " is not valid for " ++ family.label
  | .poolTooSmall pool length =>
    "pool " ++ pool.text ++ " is smaller than a /" ++ toString length ++ " block"
  | .tooManyBlocks pool length =>
    "pool " ++ pool.text ++ " holds too many /" ++ toString length ++ " blocks to enumerate"

/-- The count of blocks has at most 128 bits. -/
structure Layout where
  pool : Network
  length : Nat
  length_pos : 0 < length
  length_le : length ≤ pool.family.width
  pool_le : pool.length ≤ length
  split_lt : length - pool.length < 128

namespace Layout

def of (pool : Network) (length : Nat) : Except SizeError Layout :=
  if valid : 0 < length ∧ length ≤ pool.family.width then
    if fits : pool.length ≤ length then
      if countable : length - pool.length < 128 then
        .ok ⟨pool, length, valid.1, valid.2, fits, countable⟩
      else .error (.tooManyBlocks pool length)
    else .error (.poolTooSmall pool length)
  else .error (.invalidLength pool.family length)

variable (l : Layout)

def hostBits : Nat := l.pool.family.width - l.length

def count : Nat := 2 ^ (l.length - l.pool.length)

def blockAt (first : Nat) : Network := .ofBits l.pool.family first l.length l.length_le

def block (index : Nat) : Network := l.blockAt (l.pool.base + index <<< l.hostBits)

theorem count_pos : 0 < l.count := Nat.two_pow_pos _

theorem count_lt : l.count < 2 ^ 128 := Nat.pow_lt_pow_right (by decide) l.split_lt

theorem hostBits_lt : l.hostBits < 128 := by
  have := l.pool.family.width_le
  have := l.length_pos
  have := l.length_le
  simp only [hostBits]
  omega

/-- A layout keeps the pool and the length it is made of, and each layout is made so. -/
theorem of_eq_ok_iff {pool : Network} {length : Nat} :
    of pool length = .ok l ↔ l.pool = pool ∧ l.length = length := by
  constructor
  · intro h
    simp only [of] at h
    split at h
    · split at h
      · split at h
        · cases h
          exact ⟨rfl, rfl⟩
        · cases h
      · cases h
    · cases h
  · rintro ⟨rfl, rfl⟩
    simp [of, l.length_pos, l.length_le, l.pool_le, l.split_lt]

/-- A pool can be cut into blocks that are not longer than it and not too many to count. -/
theorem exists_of_eq_ok_iff {pool : Network} {length : Nat} :
    (∃ l, of pool length = .ok l) ↔
      1 ≤ length ∧ length ≤ pool.family.width ∧ pool.length ≤ length ∧ length - pool.length < 128 := by
  constructor
  · rintro ⟨l, hl⟩
    obtain ⟨rfl, rfl⟩ := l.of_eq_ok_iff.1 hl
    exact ⟨l.length_pos, l.length_le, l.pool_le, l.split_lt⟩
  · rintro ⟨hpos, hle, hpool, hsplit⟩
    exact ⟨⟨pool, length, hpos, hle, hpool, hsplit⟩, (of_eq_ok_iff _).2 ⟨rfl, rfl⟩⟩

end Layout

/-- Counts that need more than 64 bits are not known to a hint: it gives the largest such number as a
lower bound and nothing above. -/
def sizeHint (remaining : Nat) : Nat × Option Nat :=
  if remaining < 2 ^ 64 then (remaining, some remaining) else (2 ^ 64 - 1, none)

end HostBlocks
