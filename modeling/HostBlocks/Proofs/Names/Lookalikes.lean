import HostBlocks.Proofs.Names.Words

/-!
# Addresses with one name

The octets at the end of a mapped address are written in decimal. In the name nothing tells them from
groups, so the address whose last groups are written as those octets has the same name, unless all
octets are zero: then its zeros are the longest run and are left out. Apart from these pairs a name is
the name of one address of its family.
-/
namespace HostBlocks

namespace Address

open StorageName

/-- The number that is written in hexadecimal as an octet is in decimal. -/
def respell (octet : Nat) : Nat := Numeral.value 16 (Numeral.digits 10 3 octet)

def regrouped (n : Nat) : List Nat := [0, 0, 0, 0xffff] ++ (octets n).map respell

/-- The address that is not mapped and has the name of a mapped one. -/
def lookalike (a : Address) : Address := .ofBits .v6 (Numeral.value 65536 (regrouped a.bits))

theorem toDigits_respell : ∀ o < 256, Nat.toDigits 16 (respell o) = Nat.toDigits 10 o := by
  decide +kernel

theorem respell_lt : ∀ o < 256, respell o < 65536 := by decide +kernel

theorem respell_eq_zero : ∀ o < 256, respell o = 0 → o = 0 := by decide +kernel

theorem octets_lt {n o : Nat} (h : o ∈ octets n) : o < 256 := Numeral.lt_of_mem_digits (by decide) h

theorem map_toDigits_respell (n : Nat) :
    ((octets n).map respell).map (Nat.toDigits 16) = (octets n).map (Nat.toDigits 10) := by
  rw [List.map_map]
  exact List.map_congr_left fun o ho => toDigits_respell o (octets_lt ho)

theorem mod_eq_of_map_octets {m n : Nat}
    (h : (octets m).map (Nat.toDigits 10) = (octets n).map (Nat.toDigits 10)) :
    m % 2 ^ 32 = n % 2 ^ 32 := by
  have hvalue := congrArg (Numeral.value 256) ((Numeral.map_toDigits_inj (by decide) (by decide)).1 h)
  rw [octets, octets, Numeral.value_digits, Numeral.value_digits] at hvalue
  exact hvalue

theorem length_groups (n : Nat) : (groups n).length = 8 := Numeral.length_digits 65536 8 n

theorem value_groups {a : Address} (h : a.family = .v6) :
    Numeral.value 65536 (groups a.bits) = a.bits := by
  have hlt : a.bits < 65536 ^ 8 := by
    have := a.bits_lt
    rw [h] at this
    exact this
  rw [groups, Numeral.value_digits, Nat.mod_eq_of_lt hlt]

theorem value_octets {a : Address} (h : a.family = .v4) :
    Numeral.value 256 (octets a.bits) = a.bits := by
  have hlt : a.bits < 256 ^ 4 := by
    have := a.bits_lt
    rw [h] at this
    exact this
  rw [octets, Numeral.value_digits, Nat.mod_eq_of_lt hlt]

theorem length_regrouped (n : Nat) : (regrouped n).length = 8 := by
  simp [regrouped, octets, Numeral.length_digits]

theorem regrouped_lt {n g : Nat} (h : g ∈ regrouped n) : g < 65536 := by
  rw [regrouped, List.mem_append] at h
  rcases h with h | h
  · revert g
    decide
  · obtain ⟨o, ho, rfl⟩ := List.mem_map.1 h
    exact respell_lt o (octets_lt ho)

theorem bits_lookalike (a : Address) :
    a.lookalike.bits = Numeral.value 65536 (regrouped a.bits) := by
  have hlt := Numeral.value_lt fun g hg => regrouped_lt (n := a.bits) (g := g) hg
  rw [length_regrouped] at hlt
  exact Nat.mod_eq_of_lt hlt

theorem groups_lookalike (a : Address) : groups a.lookalike.bits = regrouped a.bits := by
  have h := Numeral.digits_value fun g hg => regrouped_lt (n := a.bits) (g := g) hg
  rw [length_regrouped] at h
  rw [bits_lookalike]
  exact h

theorem isMapped_iff (a : Address) :
    a.isMapped ↔ a.family = .v6 ∧ a.bits / 2 ^ 32 = 0xffff := by
  cases h : a.family <;> simp [isMapped, h]

/-- The groups in front of the octets stand eighty bits from the front, and no longer forty-eight. -/
theorem lookalike_bounds (a : Address) :
    0xffff * 2 ^ 64 ≤ a.lookalike.bits ∧ a.lookalike.bits < 2 ^ 80 := by
  have hlt : ∀ g ∈ (octets a.bits).map respell, g < 65536 := fun g hg =>
    regrouped_lt (List.mem_append_right _ hg)
  have hbits := a.bits_lookalike
  simp only [octets, Numeral.digits, List.nil_append, List.cons_append, List.map_cons, List.map_nil,
    List.forall_mem_cons] at hlt
  simp only [regrouped, octets, Numeral.digits, Numeral.value, List.nil_append, List.cons_append,
    List.map_cons, List.map_nil, List.foldl_cons, List.foldl_nil] at hbits
  omega

theorem not_isMapped_lookalike (a : Address) : ¬a.lookalike.isMapped := by
  have hbits := a.lookalike_bounds
  rw [isMapped_iff]
  rintro ⟨-, h⟩
  omega

/-- Octets that are not all zero leave the three groups in front as the longest run of zeros. -/
theorem longestGap_regrouped {n : Nat} (h : n % 2 ^ 32 ≠ 0) : longestGap (regrouped n) = (0, 3) := by
  have hoctets : octets n = [n / 256 / 256 / 256 % 256, n / 256 / 256 % 256, n / 256 % 256, n % 256] :=
    rfl
  have hzero : ∀ o < 256, respell o = 0 ↔ o = 0 := fun o ho =>
    ⟨respell_eq_zero o ho, by rintro rfl; rfl⟩
  rw [regrouped, hoctets]
  by_cases h4 : respell (n % 256) = 0 <;> by_cases h3 : respell (n / 256 % 256) = 0 <;>
    by_cases h2 : respell (n / 256 / 256 % 256) = 0 <;>
    by_cases h1 : respell (n / 256 / 256 / 256 % 256) = 0 <;>
    simp [longestGap, leadingZeros, h1, h2, h3, h4]
  rw [hzero _ (Nat.mod_lt _ (by decide))] at h1 h2 h3 h4
  omega

theorem chars_of_v4 {a : Address} (h : a.family = .v4) : a.chars = writeOctets (octets a.bits) := by
  simp only [chars, h]

theorem chars_of_mapped {a : Address} (h : a.isMapped) :
    a.chars = "::ffff:".toList ++ writeOctets (octets a.bits) := by
  simp only [chars, ((isMapped_iff a).1 h).1, if_pos h]

theorem chars_of_not_mapped {a : Address} (hf : a.family = .v6) (h : ¬a.isMapped) :
    a.chars = writeCompressed (groups a.bits) := by
  simp only [chars, hf, if_neg h]

theorem words_writeOctets (n : Nat) :
    words (writeOctets (octets n)) = (octets n).map (Nat.toDigits 10) := by
  apply words_numerals rfl (by decide)
  simp [octets, Numeral.digits]

theorem words_of_mapped {a : Address} (h : a.isMapped) :
    words a.chars =
      [] :: [] :: Nat.toDigits 16 0xffff :: (octets a.bits).map (Nat.toDigits 10) := by
  have hfront : "::ffff:".toList ++ writeOctets (octets a.bits) =
      [] ++ ':' :: ([] ++ ':' :: (Nat.toDigits 16 0xffff ++ ':' :: writeOctets (octets a.bits))) := rfl
  rw [chars_of_mapped h, hfront, words_mark rfl, words_mark rfl, words_mark rfl,
    words_of_isWord (isWord_toDigits (by decide) _), words_writeOctets]
  rfl

theorem words_lookalike {a : Address} (h : a.isMapped) (hbits : a.bits % 2 ^ 32 ≠ 0) :
    words a.lookalike.chars = words a.chars := by
  rw [chars_of_not_mapped rfl a.not_isMapped_lookalike, groups_lookalike,
    words_writeCompressed _ (longestGap_regrouped hbits) (by decide), words_of_mapped h,
    ← map_toDigits_respell]
  rfl

theorem words_lookalike_of_zero {a : Address} (h : a.isMapped) (hbits : a.bits % 2 ^ 32 = 0) :
    words a.lookalike.chars ≠ words a.chars := by
  have hmapped := ((isMapped_iff a).1 h).2
  have ha : a.bits = 0xffff00000000 := by omega
  rw [chars_of_not_mapped rfl a.not_isMapped_lookalike, groups_lookalike, words_of_mapped h, ha]
  decide +kernel

def spelled (a : Address) : List Nat := if a.isMapped then regrouped a.bits else groups a.bits

/-- The name of an address of the sixth family is that of a text of the groups it spells. -/
theorem exists_spelling {a : Address} (ha : a.family = .v6) :
    ∃ s, Spells a.spelled s ∧ dashed a.chars = dashed s := by
  by_cases hm : a.isMapped
  · have hspells : Spells a.spelled (writeGroups [] ++ ':' :: ':' ::
        writeGroups (0xffff :: (octets a.bits).map respell)) := by
      rw [spelled, if_pos hm]
      have hlen : (0xffff :: (octets a.bits).map respell).length = 5 := by
        rw [List.length_cons, List.length_map, octets, Numeral.length_digits]
      exact Spells.gap [] (0xffff :: (octets a.bits).map respell) (by decide : 2 ≤ 3)
        (by rw [hlen]; rfl)
    refine ⟨_, hspells, ?_⟩
    rw [dashed_inj, words_gap, words_of_mapped hm, List.map_cons, map_toDigits_respell]
    rfl
  · refine ⟨a.chars, ?_, rfl⟩
    rw [spelled, if_neg hm, chars_of_not_mapped ha hm]
    exact spells_writeCompressed (length_groups a.bits)

theorem filled_words {a : Address} (h : a.family = .v6) :
    filled (words a.chars) = a.spelled.map (Nat.toDigits 16) := by
  obtain ⟨s, hspells, hname⟩ := exists_spelling h
  rw [dashed_inj.1 hname, hspells.filled_words]

theorem eq_of_words_v4 {a b : Address} (ha : a.family = .v4) (hb : b.family = .v4)
    (h : words a.chars = words b.chars) : a = b := by
  rw [chars_of_v4 ha, chars_of_v4 hb, words_writeOctets, words_writeOctets] at h
  have hoctets := (Numeral.map_toDigits_inj (by decide) (by decide)).1 h
  apply Address.ext (ha.trans hb.symm)
  rw [← value_octets ha, hoctets, value_octets hb]

theorem eq_of_spelled {a b : Address} (ha : a.family = .v6) (hb : b.family = .v6)
    (h : a.spelled = b.spelled) (hmapped : a.isMapped ↔ b.isMapped) : a = b := by
  apply Address.ext (ha.trans hb.symm)
  by_cases hm : a.isMapped
  · have hm' := hmapped.1 hm
    have ha' := ((isMapped_iff a).1 hm).2
    have hb' := ((isMapped_iff b).1 hm').2
    rw [spelled, spelled, if_pos hm, if_pos hm', regrouped, regrouped] at h
    have hmap := congrArg (List.map (Nat.toDigits 16)) (List.append_cancel_left h)
    rw [map_toDigits_respell, map_toDigits_respell] at hmap
    have hmod := mod_eq_of_map_octets hmap
    omega
  · rw [spelled, spelled, if_neg hm, if_neg (mt hmapped.2 hm)] at h
    rw [← value_groups ha, h, value_groups hb]

/-- The address is not mapped, but has the name of the mapped address `a`. -/
def IsLookalikeOf (b a : Address) : Prop :=
  a.isMapped ∧ a.bits % 2 ^ 32 ≠ 0 ∧ b = a.lookalike

theorem IsLookalikeOf.family_eq {a b : Address} (h : b.IsLookalikeOf a) : a.family = b.family := by
  obtain ⟨hm, -, rfl⟩ := h
  exact ((isMapped_iff a).1 hm).1

theorem IsLookalikeOf.words_eq {a b : Address} (h : b.IsLookalikeOf a) :
    words a.chars = words b.chars := by
  obtain ⟨hm, hbits, rfl⟩ := h
  exact (words_lookalike hm hbits).symm

theorem isLookalikeOf_of_spelled {a b : Address} (ha : a.isMapped) (hb : b.family = .v6)
    (hnot : ¬b.isMapped) (h : words a.chars = words b.chars) (hspelled : a.spelled = b.spelled) :
    b.IsLookalikeOf a := by
  have heq : b = a.lookalike := by
    apply Address.ext hb
    rw [spelled, spelled, if_pos ha, if_neg hnot] at hspelled
    rw [bits_lookalike, hspelled, value_groups hb]
  refine ⟨ha, fun hzero => words_lookalike_of_zero ha hzero ?_, heq⟩
  rw [← heq, h]

/-- Addresses of one family with one name are equal, or one looks like the other. -/
theorem words_eq_iff {a b : Address} (hfamily : a.family = b.family) :
    words a.chars = words b.chars ↔ a = b ∨ b.IsLookalikeOf a ∨ a.IsLookalikeOf b := by
  constructor
  · intro h
    cases ha : a.family with
    | v4 =>
      exact Or.inl (eq_of_words_v4 ha (hfamily.symm.trans ha) h)
    | v6 =>
      have hb := hfamily.symm.trans ha
      have hspelled : a.spelled = b.spelled := by
        apply (Numeral.map_toDigits_inj (b := 16) (by decide) (by decide)).1
        rw [← filled_words ha, ← filled_words hb, h]
      by_cases hma : a.isMapped <;> by_cases hmb : b.isMapped
      · exact Or.inl (eq_of_spelled ha hb hspelled (iff_of_true hma hmb))
      · exact Or.inr (Or.inl (isLookalikeOf_of_spelled hma hb hmb h hspelled))
      · exact Or.inr (Or.inr (isLookalikeOf_of_spelled hmb ha hma h.symm hspelled.symm))
      · exact Or.inl (eq_of_spelled ha hb hspelled (iff_of_false hma hmb))
  · rintro (rfl | h | h)
    · rfl
    · exact h.words_eq
    · exact h.words_eq.symm

end Address

namespace Network

open StorageName

theorem words_chars (n : Network) :
    words n.chars = words n.address.chars ++ [Nat.toDigits 10 n.length] := by
  rw [chars, words_mark rfl, words_of_isWord (isWord_toDigits (by decide) _)]

/-- Networks of one family have one name exactly if they are equal, or of one length and the address of
one looks like that of the other. -/
theorem ofNetwork_eq_iff {a b : Network} (hfamily : a.family = b.family) :
    ofNetwork a = ofNetwork b ↔ a = b ∨ a.length = b.length ∧
      (b.address.IsLookalikeOf a.address ∨ a.address.IsLookalikeOf b.address) := by
  have hname : ofNetwork a = ofNetwork b ↔
      words a.address.chars = words b.address.chars ∧ a.length = b.length := by
    rw [ofNetwork, ofNetwork, String.ofList_inj, dashed_inj, words_chars, words_chars,
      List.append_singleton_inj, Numeral.toDigits_inj (by decide) (by decide)]
  rw [hname, Address.words_eq_iff hfamily, Network.ext_iff]
  tauto

/-- Clearing host bits never leads from an address to one that it looks like, so it keeps the name only
if there are none. -/
theorem ofNetwork_trunc_eq_iff {n : Network} : ofNetwork n.trunc = ofNetwork n ↔ n.trunc = n := by
  rw [ofNetwork_eq_iff n.family_trunc]
  constructor
  · rintro (h | ⟨-, ⟨hmapped, -, hlookalike⟩ | ⟨hmapped, -, hlookalike⟩⟩)
    · exact h
    · exfalso
      have hbase : n.base / 2 ^ 32 = 0xffff := ((Address.isMapped_iff _).1 hmapped).2
      have hbounds := n.trunc.address.lookalike_bounds
      rw [← hlookalike] at hbounds
      have hlast := n.bits_le_last
      rw [last] at hlast
      by_cases hhost : 48 ≤ n.hostBits
      · have hdvd : 2 ^ 48 ∣ n.base := Nat.dvd_trans (Nat.pow_dvd_pow 2 hhost) n.base_dvd
        omega
      · have hpow : 2 ^ n.hostBits ≤ 2 ^ 48 := Nat.pow_le_pow_right (by decide) (by omega)
        omega
    · exfalso
      have haddress := ((Address.isMapped_iff _).1 hmapped).2
      have hbounds := n.address.lookalike_bounds
      have hbits : n.base = n.address.lookalike.bits := congrArg Address.bits hlookalike
      have hle := n.base_le_bits
      omega
  · intro h
    exact Or.inl h

end Network

end HostBlocks
