import HostBlocks.Network
import Mathlib.Data.List.TFAE
import Mathlib.Order.Interval.Set.Basic
import Mathlib.Tactic.TFAE

/-!
# Networks nest or part

The ends of a range are the address of the network with its host bits cleared and with all of them set.
Whether a network includes another is a question about these ends, about all addresses, or about the
leading bits, and the answers agree. As the leading bits of the longer network tell those of the shorter,
two networks that share an address are nested.
-/
namespace HostBlocks.Network

def netmask (n : Network) : Nat := (2 ^ n.length - 1) <<< n.hostBits

def hostmask (n : Network) : Nat := 2 ^ n.hostBits - 1

theorem testBit_netmask (n : Network) (i : Nat) :
    n.netmask.testBit i = decide (n.hostBits ≤ i ∧ i < n.family.width) := by
  have hwidth := n.hostBits_add_length
  rw [netmask, Nat.testBit_shiftLeft, Nat.testBit_two_pow_sub_one, ← Bool.decide_and]
  apply decide_eq_decide.2
  omega

theorem testBit_base (n : Network) (i : Nat) :
    n.base.testBit i = (decide (n.hostBits ≤ i) && n.address.bits.testBit i) := by
  rw [base, Nat.testBit_mul_two_pow, Nat.testBit_div_two_pow]
  by_cases hi : n.hostBits ≤ i
  · rw [Nat.sub_add_cancel hi]
  · simp [hi]

/-- A range begins where the host bits are cleared. -/
theorem base_eq_land (n : Network) : n.base = n.address.bits &&& n.netmask := by
  apply Nat.eq_of_testBit_eq
  intro i
  rw [testBit_base, Nat.testBit_and, testBit_netmask]
  by_cases hi : i < n.family.width
  · simp [hi, Bool.and_comm]
  · have hpow : 2 ^ n.family.width ≤ 2 ^ i := Nat.pow_le_pow_right Nat.two_pos (Nat.not_lt.1 hi)
    have hlt : n.address.bits < 2 ^ i := Nat.lt_of_lt_of_le n.address.bits_lt hpow
    simp [Nat.testBit_lt_two_pow hlt]

/-- A range ends where the host bits are set. -/
theorem last_eq_lor (n : Network) : n.last = n.address.bits ||| n.hostmask := by
  have hlast : n.last = n.base ||| n.hostmask := by
    have hlt : n.hostmask < 2 ^ n.hostBits := Nat.sub_lt (Nat.two_pow_pos _) Nat.one_pos
    rw [last, base, Nat.mul_comm]
    exact Nat.two_pow_add_eq_or_of_lt hlt _
  rw [hlast]
  apply Nat.eq_of_testBit_eq
  intro i
  rw [Nat.testBit_or, Nat.testBit_or, testBit_base, hostmask, Nat.testBit_two_pow_sub_one]
  by_cases hi : i < n.hostBits
  · simp [hi]
  · simp [hi, Nat.not_lt.1 hi]

/-- A test on the ends of ranges, found by masks. -/
theorem includes_iff_masked (outer inner : Network) :
    outer.includes inner ↔ outer.family = inner.family ∧
      outer.address.bits &&& outer.netmask ≤ inner.address.bits &&& inner.netmask ∧
      inner.address.bits ||| inner.hostmask ≤ outer.address.bits ||| outer.hostmask := by
  rw [includes_iff, base_eq_land, base_eq_land, last_eq_lor, last_eq_lor]

theorem includes_iff_subset (outer inner : Network) :
    outer.includes inner ↔ outer.family = inner.family ∧
      Set.Icc inner.base inner.last ⊆ Set.Icc outer.base outer.last := by
  rw [includes_iff, Set.Icc_subset_Icc_iff inner.base_le_last]

/-- An address has the leading bits of a network also if only fewer of them are asked for. -/
theorem div_eq_of_contains {n : Network} {a : Address} {k : Nat} (ha : n.contains a)
    (hk : n.hostBits ≤ k) : a.bits / 2 ^ k = n.address.bits / 2 ^ k := by
  obtain ⟨d, rfl⟩ := Nat.exists_eq_add_of_le hk
  rw [Nat.pow_add, ← Nat.div_div_eq_div_mul, ← Nat.div_div_eq_div_mul,
    ((n.contains_iff_div a).1 ha).2]

/-- Of two networks that share an address the shorter one includes the other. -/
theorem includes_of_contains {outer inner : Network} {a : Address} (houter : outer.contains a)
    (hinner : inner.contains a) (hlength : outer.length ≤ inner.length) : outer.includes inner := by
  have hfamily : outer.family = inner.family :=
    ((outer.contains_iff a).1 houter).1.trans ((inner.contains_iff a).1 hinner).1.symm
  have hhost : inner.hostBits ≤ outer.hostBits := by
    rw [hostBits, hostBits, hfamily]
    exact Nat.sub_le_sub_left hlength _
  rw [includes_iff_contains]
  intro b hb
  rw [contains_iff_div]
  refine ⟨hfamily.trans ((inner.contains_iff b).1 hb).1, ?_⟩
  calc b.bits / 2 ^ outer.hostBits
      = inner.address.bits / 2 ^ outer.hostBits := div_eq_of_contains hb hhost
    _ = a.bits / 2 ^ outer.hostBits := (div_eq_of_contains hinner hhost).symm
    _ = outer.address.bits / 2 ^ outer.hostBits := ((outer.contains_iff_div a).1 houter).2

theorem nested_iff_exists_contains (m n : Network) :
    m.includes n ∨ n.includes m ↔ ∃ a, m.contains a ∧ n.contains a := by
  constructor
  · rintro (h | h)
    · exact ⟨n.address, (m.includes_iff_contains n).1 h _ n.contains_address, n.contains_address⟩
    · exact ⟨m.address, m.contains_address, (n.includes_iff_contains m).1 h _ m.contains_address⟩
  · rintro ⟨a, hm, hn⟩
    rcases Nat.le_total m.length n.length with hle | hle
    · exact Or.inl (includes_of_contains hm hn hle)
    · exact Or.inr (includes_of_contains hn hm hle)

/-- A network includes another exactly if they are of one family and the range of the other lies in its
range, which is to say that it contains each address of the other; on masks this is a comparison of the
ends. Two networks are nested exactly if some address lies in both. -/
theorem networks_nest (outer inner : Network) :
    List.TFAE [
      outer.includes inner = true,
      outer.family = inner.family ∧ Set.Icc inner.base inner.last ⊆ Set.Icc outer.base outer.last,
      ∀ a, inner.contains a → outer.contains a,
      outer.family = inner.family ∧
        outer.address.bits &&& outer.netmask ≤ inner.address.bits &&& inner.netmask ∧
        inner.address.bits ||| inner.hostmask ≤ outer.address.bits ||| outer.hostmask] ∧
    (outer.includes inner ∨ inner.includes outer ↔ ∃ a, outer.contains a ∧ inner.contains a) := by
  refine ⟨?_, outer.nested_iff_exists_contains inner⟩
  tfae_have 1 ↔ 2 := outer.includes_iff_subset inner
  tfae_have 1 ↔ 3 := outer.includes_iff_contains inner
  tfae_have 1 ↔ 4 := outer.includes_iff_masked inner
  tfae_finish

end HostBlocks.Network
