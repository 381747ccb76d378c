import HostBlocks.Address.Text

/-!
# Networks

A network is an address with a length, the number of leading bits that its addresses share. The
address may have bits set after those: such host bits are kept until `trunc` clears them, and no
question about the range of the network depends on them. An address lies in a network if it has the
leading bits of the network, so networks of one length have the same addresses or none in common.

A network is written as its address, a slash and its length. Reading follows the loose grammar of
addresses, and the length has at most as many digits as the width of its family.
-/
namespace HostBlocks

@[ext]
structure Network where
  address : Address
  length : Nat
  length_le : length ≤ address.family.width
deriving DecidableEq

namespace Network

def family (n : Network) : Family := n.address.family

def hostBits (n : Network) : Nat := n.family.width - n.length

def base (n : Network) : Nat := n.address.bits / 2 ^ n.hostBits * 2 ^ n.hostBits

def last (n : Network) : Nat := n.base + (2 ^ n.hostBits - 1)

theorem base_le_bits (n : Network) : n.base ≤ n.address.bits := Nat.div_mul_le_self _ _

def trunc (n : Network) : Network :=
  ⟨⟨n.family, n.base, Nat.lt_of_le_of_lt n.base_le_bits n.address.bits_lt⟩, n.length, n.length_le⟩

def contains (n : Network) (a : Address) : Bool :=
  n.family = a.family && n.base ≤ a.bits && a.bits ≤ n.last

def includes (outer inner : Network) : Bool :=
  outer.family = inner.family && outer.base ≤ inner.base && inner.last ≤ outer.last

/-- The network that begins at the given number. Nothing is masked but the bits above the width. -/
def ofBits (f : Family) (bits length : Nat) (h : length ≤ f.width) : Network :=
  ⟨.ofBits f bits, length, h⟩

def ofBits? (f : Family) (bits length : Nat) : Option Network :=
  if h : length ≤ f.width then some (ofBits f bits length h) else none

theorem hostBits_add_length (n : Network) : n.hostBits + n.length = n.family.width :=
  Nat.sub_add_cancel n.length_le

theorem base_le_last (n : Network) : n.base ≤ n.last := Nat.le_add_right _ _

theorem base_dvd (n : Network) : 2 ^ n.hostBits ∣ n.base := Nat.dvd_mul_left _ _

theorem bits_le_last (n : Network) : n.address.bits ≤ n.last := by
  have h := Nat.lt_div_mul_add (a := n.address.bits) (Nat.two_pow_pos n.hostBits)
  simp only [last, base]
  omega

/-- The range of a network ends within the width of its family. -/
theorem last_lt (n : Network) : n.last < 2 ^ n.family.width := by
  have hpos := Nat.two_pow_pos n.hostBits
  have hq : n.address.bits / 2 ^ n.hostBits < 2 ^ n.length := by
    apply Nat.div_lt_of_lt_mul
    rw [← Nat.pow_add, n.hostBits_add_length]
    exact n.address.bits_lt
  have h := Nat.mul_le_mul_right (2 ^ n.hostBits) (Nat.succ_le_of_lt hq)
  rw [← Nat.pow_add, Nat.add_comm n.length, n.hostBits_add_length, Nat.succ_mul] at h
  simp only [last, base]
  omega

theorem contains_iff (n : Network) (a : Address) :
    n.contains a ↔ n.family = a.family ∧ n.base ≤ a.bits ∧ a.bits ≤ n.last := by
  simp [contains, and_assoc]

theorem includes_iff (outer inner : Network) :
    outer.includes inner ↔
      outer.family = inner.family ∧ outer.base ≤ inner.base ∧ inner.last ≤ outer.last := by
  simp [includes, and_assoc]

/-- A network includes another exactly if it contains every address of it. -/
theorem includes_iff_contains (outer inner : Network) :
    outer.includes inner ↔ ∀ a, inner.contains a → outer.contains a := by
  simp only [includes_iff, contains_iff]
  constructor
  · rintro ⟨hfamily, hbase, hlast⟩ a ⟨ha, hle, hge⟩
    exact ⟨hfamily.trans ha, Nat.le_trans hbase hle, Nat.le_trans hge hlast⟩
  · intro h
    have hlow := h inner.trunc.address ⟨rfl, Nat.le_refl _, inner.base_le_last⟩
    have hhigh := h ⟨inner.family, inner.last, inner.last_lt⟩ ⟨rfl, inner.base_le_last, Nat.le_refl _⟩
    exact ⟨hlow.1, hlow.2.1, hhigh.2.2⟩

theorem contains_address (n : Network) : n.contains n.address :=
  (n.contains_iff _).2 ⟨rfl, n.base_le_bits, n.bits_le_last⟩

@[simp] theorem family_trunc (n : Network) : n.trunc.family = n.family := rfl

@[simp] theorem hostBits_trunc (n : Network) : n.trunc.hostBits = n.hostBits := rfl

@[simp] theorem base_trunc (n : Network) : n.trunc.base = n.base := by
  show n.base / 2 ^ n.hostBits * 2 ^ n.hostBits = n.base
  rw [base, Nat.mul_div_cancel _ (Nat.two_pow_pos _)]

@[simp] theorem last_trunc (n : Network) : n.trunc.last = n.last := by simp [last]

@[simp] theorem trunc_trunc (n : Network) : n.trunc.trunc = n.trunc := by
  apply Network.ext
  · exact Address.ext rfl n.base_trunc
  · rfl

/-- The addresses of a network are those that begin with its leading bits. -/
theorem contains_iff_div (n : Network) (a : Address) :
    n.contains a ↔ n.family = a.family ∧
      a.bits / 2 ^ n.hostBits = n.address.bits / 2 ^ n.hostBits := by
  have hpos := Nat.two_pow_pos n.hostBits
  rw [contains_iff, Nat.div_eq_iff hpos, last, base]
  apply and_congr_right
  intro _
  omega

/-- An address tells the network of a length that it lies in, up to host bits. -/
theorem trunc_eq_of_contains {m n : Network} {a : Address} (hm : m.contains a) (hn : n.contains a)
    (hlen : m.length = n.length) : m.trunc = n.trunc := by
  rw [contains_iff_div] at hm hn
  have hfamily : m.family = n.family := hm.1.trans hn.1.symm
  have hhost : m.hostBits = n.hostBits := by rw [hostBits, hostBits, hfamily, hlen]
  have hbase : m.base = n.base := by rw [base, base, ← hm.2, ← hn.2, hhost]
  exact Network.ext (Address.ext hfamily hbase) hlen

def chars (n : Network) : List Char :=
  n.address.chars ++ '/' :: Nat.toDigits 10 n.length

def text (n : Network) : String := String.ofList n.chars

def readFamily (f : Family) (s : List Char) : Option (Network × List Char) := do
  let (a, s) ← Grammar.loose.readFamily f s
  let s ← Grammar.readMark '/' s
  let (length, s) ← Numeral.read 10 (Nat.toDigits 10 f.width).length (f.width + 1) s
  if h : length ≤ a.family.width then some (⟨a, length, h⟩, s) else none

def parse? (s : List Char) : Option Network :=
  whole (readFamily .v4 s) <|> whole (readFamily .v6 s)

def ofText? (s : String) : Option Network := parse? s.toList

end Network

end HostBlocks
