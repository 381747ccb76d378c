import HostBlocks.Numeral

/-!
# Addresses

There are two families of internet addresses. A pool, its blocks and the records about them are all of
one family.

An address is a number of its family's width. Addresses of the fourth family come before all of the
sixth, and within a family they are ordered by their numbers.
-/
namespace HostBlocks

inductive Family where
  | v4
  | v6
deriving DecidableEq

namespace Family

def number : Family → Nat
  | .v4 => 4
  | .v6 => 6

def width : Family → Nat
  | .v4 => 32
  | .v6 => 128

def segment : Family → String
  | .v4 => "ipv4"
  | .v6 => "ipv6"

def label (f : Family) : String := "IPv" ++ toString f.number

def defaultBlockLength : Family → Nat
  | .v4 => 26
  | .v6 => 122

def require {α ε : Type} (f : Family) (of : α → Family) (refuse : α → ε) (a : α) : Except ε α :=
  if of a = f then .ok a else .error (refuse a)

theorem width_le (f : Family) : f.width ≤ 128 := by cases f <;> decide

end Family

@[ext]
structure Address where
  family : Family
  bits : Nat
  bits_lt : bits < 2 ^ family.width
deriving DecidableEq

namespace Address

/-- Bits above the family's width are dropped. -/
def ofBits (f : Family) (n : Nat) : Address :=
  ⟨f, n % 2 ^ f.width, Nat.mod_lt _ (Nat.two_pow_pos _)⟩

def rank (a : Address) : Nat :=
  match a.family with
  | .v4 => a.bits
  | .v6 => 2 ^ 32 + a.bits

theorem rank_inj {a b : Address} (h : a.rank = b.rank) : a = b := by
  have ha := a.bits_lt
  have hb := b.bits_lt
  cases hf : a.family <;> cases hg : b.family <;>
    simp only [rank, hf, hg, Family.width] at h ha hb
  · exact Address.ext (hf.trans hg.symm) h
  · omega
  · omega
  · exact Address.ext (hf.trans hg.symm) (by omega)

instance : Ord Address where
  compare a b := compare a.rank b.rank

instance : Std.TransOrd Address :=
  inferInstanceAs (Std.TransCmp (compareOn rank))

instance : Std.LawfulEqOrd Address where
  compare_self := by simp
  eq_of_compare h := rank_inj (Std.LawfulEqOrd.eq_of_compare h)

end Address

end HostBlocks
