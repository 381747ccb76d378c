import HostBlocks.Network
import HostBlocks.Proofs.Address.Reading
import HostBlocks.Proofs.Names.Lookalikes

/-!
# Reading names back

The count of dashes, and whether two of them meet, tell which mark the dashes of a name stand for, so a
text with one kind of mark is found again. Only the text of a mapped address has two kinds: its name is
read as the address that it looks like.
-/
namespace HostBlocks

namespace StorageName

def OnlyMark (m : Char) (s : List Char) : Prop := ∀ c ∈ s, c ≠ '-' ∧ (isMark c → c = m)

theorem onlyMark_numerals {m : Char} (hm : isMark m) {b : Nat} (h1 : 1 < b) (ns : List Nat) :
    OnlyMark m ([m].intercalate (ns.map (Nat.toDigits b))) := by
  intro c hc
  rcases Address.mem_intercalate_toDigits hc with rfl | ⟨n, hc⟩
  · refine ⟨?_, fun _ => rfl⟩
    rintro rfl
    cases hm
  · have hword := isWord_toDigits h1 n c hc
    exact ⟨hword.2, fun hmark => absurd (hword.1.symm.trans hmark) (by decide)⟩

theorem OnlyMark.append {m : Char} {s t : List Char} (hs : OnlyMark m s) (ht : OnlyMark m t) :
    OnlyMark m (s ++ t) := by
  intro c hc
  rcases List.mem_append.1 hc with hc | hc
  · exact hs c hc
  · exact ht c hc

theorem OnlyMark.mark {m : Char} (hm : isMark m) {s : List Char} (hs : OnlyMark m s) :
    OnlyMark m (m :: s) := by
  intro c hc
  rcases List.mem_cons.1 hc with rfl | hc
  · refine ⟨?_, fun _ => rfl⟩
    rintro rfl
    cases hm
  · exact hs c hc

theorem undashed_dashed {m : Char} {s : List Char} (h : OnlyMark m s) (hm : markOf (dashed s) = m) :
    undashed (dashed s) = s := by
  have hid : ∀ c ∈ s, (let d := if isMark c then '-' else c; if d = '-' then m else d) = id c := by
    intro c hc
    obtain ⟨hdash, hmark⟩ := h c hc
    by_cases hc : isMark c
    · simp only [if_pos hc, if_true]
      exact (hmark hc).symm
    · simp only [if_neg hc, if_neg hdash, id]
  rw [undashed, hm, dashed, List.map_map]
  exact (List.map_congr_left hid).trans (List.map_id s)

theorem hasDoubleDash_iff {s : List Char} : hasDoubleDash s ↔ ['-', '-'] <:+: s := by
  induction s with
  | nil => simp [hasDoubleDash]
  | cons c s ih =>
    rw [List.infix_cons_iff, ← ih]
    by_cases h : ['-', '-'] <+: c :: s
    · obtain ⟨t, ht⟩ := h
      rw [← ht]
      simp [hasDoubleDash]
    · rw [hasDoubleDash]
      · simp [h]
      · rintro t rfl rfl
        exact h ⟨t, rfl⟩

/-- Where two dashes meet there is an empty word. -/
theorem nil_mem_words {s : List Char} (h : ['-', '-'] <:+: dashed s) : [] ∈ words s := by
  obtain ⟨x, y, h⟩ := h
  have hsplit : dashed s = x ++ '-' :: ([] ++ '-' :: y) := by
    rw [← h]
    simp
  rw [words, hsplit, List.splitOn_append_cons_self, List.splitOn_append_cons_self]
  simp

theorem length_words (s : List Char) : (words s).length = (dashed s).count '-' + 1 := by
  rw [words]
  induction dashed s with
  | nil => rfl
  | cons c s ih =>
    rw [List.splitOn_cons_eq_if_modifyHead]
    by_cases h : c = '-'
    · simp [h, ih]
    · simp [h, ih]

theorem splitLastDash_of_not_mem {s : List Char} (h : '-' ∉ s) : splitLastDash s = none := by
  induction s with
  | nil => rfl
  | cons c s ih =>
    rw [List.mem_cons, not_or] at h
    rw [splitLastDash, ih h.2]
    exact if_neg (Ne.symm h.1)

theorem splitLastDash_append {s t : List Char} (h : '-' ∉ t) :
    splitLastDash (s ++ '-' :: t) = some (s, t) := by
  induction s with
  | nil =>
    rw [List.nil_append, splitLastDash, splitLastDash_of_not_mem h]
    rfl
  | cons c s ih => rw [List.cons_append, splitLastDash, ih]

end StorageName

namespace Address

open StorageName

theorem Spells.onlyMark {gs : List Nat} {s : List Char} (h : Spells gs s) : OnlyMark ':' s := by
  have hgroups : ∀ ns, OnlyMark ':' (writeGroups ns) := fun ns =>
    onlyMark_numerals rfl (by decide) ns
  cases h with
  | full => exact hgroups gs
  | @gap front back =>
    exact (hgroups front).append (((hgroups back).mark rfl).mark rfl)

/-- The dashes of a text of eight groups are taken for colons. -/
theorem Spells.markOf_dashed {gs : List Nat} {s : List Char} (h : Spells gs s) :
    markOf (dashed s) = ':' := by
  apply if_pos
  rw [Bool.or_eq_true]
  cases h with
  | full hlen =>
    have hcount := length_words (writeGroups gs)
    rw [words_full hlen, List.length_map, hlen] at hcount
    right
    rw [decide_eq_true_eq]
    omega
  | @gap front back =>
    left
    rw [hasDoubleDash_iff]
    refine ⟨dashed (writeGroups front), dashed (writeGroups back), ?_⟩
    simp [dashed, isMark]

theorem Spells.undashed {gs : List Nat} {s : List Char} (h : Spells gs s) :
    undashed (dashed s) = s := undashed_dashed h.onlyMark h.markOf_dashed

/-- The dashes of four octets are taken for dots. -/
theorem markOf_dashed_writeOctets (n : Nat) : markOf (dashed (writeOctets (octets n))) = '.' := by
  have hwords := words_writeOctets n
  have hsingle : ¬hasDoubleDash (dashed (writeOctets (octets n))) := by
    intro h
    have hnil := nil_mem_words (hasDoubleDash_iff.1 h)
    rw [hwords] at hnil
    exact ne_nil_of_mem_map_toDigits hnil rfl
  have hcount := length_words (writeOctets (octets n))
  rw [hwords, List.length_map, octets, Numeral.length_digits] at hcount
  rw [← octets] at hcount
  apply if_neg
  rw [Bool.or_eq_true, not_or, decide_eq_true_eq]
  exact ⟨hsingle, by omega⟩

theorem undashed_writeOctets (n : Nat) :
    undashed (dashed (writeOctets (octets n))) = writeOctets (octets n) :=
  undashed_dashed (onlyMark_numerals rfl (by decide) _) (markOf_dashed_writeOctets n)

/-- The address that the name of an address is read as. -/
def decoded (a : Address) : Address := if a.isMapped then a.lookalike else a

theorem ofBits_bits {f : Family} {a : Address} (h : a.family = f) : ofBits f a.bits = a := by
  subst h
  exact Address.ext rfl (Nat.mod_eq_of_lt a.bits_lt)

theorem decoded_of_mapped {a : Address} (h : a.isMapped) : a.decoded = a.lookalike := if_pos h

theorem decoded_of_not_mapped {a : Address} (h : ¬a.isMapped) : a.decoded = a := if_neg h

theorem family_decoded (a : Address) : a.decoded.family = a.family := by
  by_cases h : a.isMapped
  · rw [decoded_of_mapped h, ((isMapped_iff a).1 h).1]
    rfl
  · rw [decoded_of_not_mapped h]

theorem decoded_eq_self_iff (a : Address) : a.decoded = a ↔ ¬a.isMapped := by
  constructor
  · intro h hm
    rw [decoded_of_mapped hm] at h
    have hnot := a.not_isMapped_lookalike
    rw [h] at hnot
    exact hnot hm
  · exact decoded_of_not_mapped

theorem ofBits_value_spelled {a : Address} (ha : a.family = .v6) :
    ofBits .v6 (Numeral.value 65536 a.spelled) = a.decoded := by
  by_cases h : a.isMapped
  · rw [decoded_of_mapped h, spelled, if_pos h, lookalike]
  · rw [decoded_of_not_mapped h, spelled, if_neg h, value_groups ha, ofBits_bits ha]

theorem lt_of_mem_spelled {a : Address} {n : Nat} (h : n ∈ a.spelled) : n < 65536 := by
  rw [spelled] at h
  split at h
  · exact regrouped_lt h
  · exact Numeral.lt_of_mem_digits (by decide) h

/-- The octets of an address of the fourth family are read as that address. -/
theorem readFamily_v4_octets {a : Address} (ha : a.family = .v4) (g : Grammar) {rest : List Char}
    (hrest : Grammar.IsEnd rest) :
    g.readFamily .v4 (writeOctets (octets a.bits) ++ rest) = some (a, rest) := by
  have hread := g.readDotted_writeOctets (octets a.bits) (Numeral.length_digits 256 4 a.bits)
    (fun o ho => octets_lt ho) (hrest.noDigit 10)
  rw [Grammar.readFamily, hread, value_octets ha]
  simp only [Option.map_some, ofBits_bits ha]

/-- What the dashes of a name are taken for is read to the end of the address, in both grammars. -/
theorem readFamily_undashed {g : Grammar} (hg : g.leastGap ≤ 2) (a : Address) {rest : List Char}
    (hrest : Grammar.IsEnd rest) :
    g.readFamily a.family (undashed (dashed a.chars) ++ rest) = some (a.decoded, rest) := by
  cases ha : a.family with
  | v4 =>
    have hnot : ¬a.isMapped := by
      intro hm
      cases ha.symm.trans ((isMapped_iff a).1 hm).1
    rw [chars_of_v4 ha, undashed_writeOctets, readFamily_v4_octets ha g hrest,
      decoded_of_not_mapped hnot]
  | v6 =>
    obtain ⟨s, hspells, hname⟩ := exists_spelling ha
    have hread := g.readColons_spelling hg hspells (fun n hn => lt_of_mem_spelled hn) hrest
    rw [hname, hspells.undashed, Grammar.readFamily, hread]
    simp only [Option.map_some, ofBits_value_spelled ha]

/-- No address of the fourth family is read from the name of one of the sixth. -/
theorem readFamily_v4_undashed {a : Address} (ha : a.family = .v6) (g : Grammar) {rest : List Char}
    (hdot : '.' ∉ rest) : g.readFamily .v4 (undashed (dashed a.chars) ++ rest) = none := by
  obtain ⟨s, hspells, hname⟩ := exists_spelling ha
  have hs : '.' ∉ s := by
    intro h
    cases (hspells.onlyMark '.' h).2 rfl
  have hread := g.readDotted_of_no_dot (s := s ++ rest) (by simp [hs, hdot])
  rw [hname, hspells.undashed, Grammar.readFamily, hread, Option.map_none]

end Address

namespace Network

open StorageName

def decoded (n : Network) : Network :=
  ⟨n.address.decoded, n.length, n.address.family_decoded ▸ n.length_le⟩

theorem family_decoded (n : Network) : n.decoded.family = n.family := n.address.family_decoded

theorem hostBits_decoded (n : Network) : n.decoded.hostBits = n.hostBits := by
  rw [hostBits, family_decoded]
  rfl

/-- The numeral of a length has at most as many digits as that of the width. -/
theorem read_length (n : Network) :
    Numeral.read 10 (Nat.toDigits 10 n.family.width).length (n.family.width + 1)
      (Nat.toDigits 10 n.length) = some (n.length, []) := by
  have hwidth := (Nat.length_toDigits_le_iff (b := 10) (by decide) Nat.length_toDigits_pos).1
    (Nat.le_refl (Nat.toDigits 10 n.family.width).length)
  have hplaces := (Nat.length_toDigits_le_iff (by decide) Nat.length_toDigits_pos).2
    (Nat.lt_of_le_of_lt n.length_le hwidth)
  have hread := Numeral.read_toDigits (by decide) (by decide) hplaces
    (Nat.lt_succ_of_le n.length_le) (Numeral.noDigit_nil 10)
  rwa [List.append_nil] at hread

theorem isEnd_length (n : Network) : Grammar.IsEnd ('/' :: Nat.toDigits 10 n.length) where
  slash := by
    rintro c ⟨⟩
    rfl
  no_dot := by
    intro h
    rcases List.mem_cons.1 h with h | h
    · cases h
    · cases (isWord_toDigits (by decide) n.length '.' h).1

/-- A network is read where its address is read and its length stands behind it. -/
theorem readFamily_of_address {n : Network} {s : List Char}
    (h : Grammar.loose.readFamily n.family s = some (n.address, '/' :: Nat.toDigits 10 n.length)) :
    readFamily n.family s = some (n, []) := by
  rw [readFamily, h]
  simp only [Option.bind_eq_bind, Option.bind_some, Grammar.readMark_cons, n.read_length]
  exact dif_pos n.length_le

theorem readFamily_undashed (n : Network) :
    readFamily n.family (undashed (dashed n.address.chars) ++ '/' :: Nat.toDigits 10 n.length) =
      some (n.decoded, []) := by
  have haddress := n.address.readFamily_undashed (g := .loose) (by decide) n.isEnd_length
  rw [← n.family_decoded]
  apply readFamily_of_address
  rw [n.family_decoded]
  exact haddress

theorem readFamily_v4_undashed {n : Network} (h : n.family = .v6) :
    readFamily .v4 (undashed (dashed n.address.chars) ++ '/' :: Nat.toDigits 10 n.length) = none := by
  rw [readFamily, Address.readFamily_v4_undashed h .loose n.isEnd_length.no_dot]
  rfl

theorem trunc_decoded_eq_iff_base (n : Network) :
    n.decoded.trunc = n.trunc ↔ n.decoded.base = n.base := by
  constructor
  · intro h
    rw [← n.decoded.base_trunc, h, n.base_trunc]
  · intro h
    exact Network.ext (Address.ext n.family_decoded h) rfl

/-- A mapped address and the one it looks like have forty-eight leading bits in common. -/
theorem trunc_decoded_of_mapped {n : Network} (h : n.address.isMapped) :
    n.decoded.trunc = n.trunc ↔ n.length ≤ 48 := by
  obtain ⟨hfamily, hmapped⟩ := (Address.isMapped_iff n.address).1 h
  have hbits : n.decoded.address.bits = n.address.lookalike.bits :=
    congrArg Address.bits (Address.decoded_of_mapped h)
  have hbounds := n.address.lookalike_bounds
  have hwidth : n.hostBits + n.length = 128 := by
    rw [hostBits_add_length, family, hfamily]
    rfl
  rw [trunc_decoded_eq_iff_base]
  constructor
  · intro hbase
    by_contra hlen
    have hhost : 2 ^ n.hostBits ≤ 2 ^ 79 := Nat.pow_le_pow_right (by decide) (by omega)
    have hlast := n.decoded.bits_le_last
    have hle := n.base_le_bits
    rw [last, hostBits_decoded, hbits, hbase] at hlast
    omega
  · intro hlen
    have hhost : 2 ^ 80 ≤ 2 ^ n.hostBits := Nat.pow_le_pow_right (by decide) (by omega)
    rw [base, base, hostBits_decoded, hbits, Nat.div_eq_of_lt (by omega), Nat.div_eq_of_lt (by omega)]

theorem trunc_decoded_eq_iff (n : Network) :
    n.decoded.trunc = n.trunc ↔ ¬n.address.isMapped ∨ n.length ≤ 48 := by
  by_cases h : n.address.isMapped
  · rw [trunc_decoded_of_mapped h]
    tauto
  · have hdecoded : n.decoded = n := Network.ext (Address.decoded_of_not_mapped h) rfl
    simp [hdecoded, h]

end Network

namespace StorageName

theorem readAddress_dashed (a : Address) : readAddress (dashed a.chars) = some a.decoded := by
  have hread := a.readFamily_undashed (g := .strict) (by decide) Grammar.isEnd_nil
  rw [List.append_nil] at hread
  apply whole_families (fun f => Grammar.strict.readFamily f (undashed (dashed a.chars))) hread
  intro ha
  have hnone := Address.readFamily_v4_undashed ha .strict Grammar.isEnd_nil.no_dot
  rwa [List.append_nil] at hnone

theorem readNetwork_dashed (n : Network) : readNetwork (dashed n.chars) = some n.decoded := by
  have hname : dashed n.chars = dashed n.address.chars ++ '-' :: Nat.toDigits 10 n.length := by
    calc dashed n.chars
        = dashed n.address.chars ++ '-' :: dashed (Nat.toDigits 10 n.length) := List.map_append
      _ = dashed n.address.chars ++ '-' :: Nat.toDigits 10 n.length := by
        rw [dashed_of_isWord (isWord_toDigits (by decide) _)]
  have hdash : '-' ∉ Nat.toDigits 10 n.length := fun h =>
    (isWord_toDigits (by decide) n.length '-' h).2 rfl
  rw [readNetwork, hname, splitLastDash_append hdash]
  exact whole_families (fun f => Network.readFamily f _) n.readFamily_undashed
    Network.readFamily_v4_undashed

def mappedRange : Network := ⟨⟨.v6, 0xffff00000000, by decide⟩, 96, by decide⟩

theorem mem_mappedRange (a : Address) : mappedRange.contains a ↔ a.isMapped := by
  rw [Network.contains_iff_div, Address.isMapped_iff, eq_comm (a := mappedRange.family)]
  rfl

/-- The name of any address is read as an address of its family: as itself exactly if it is not mapped.
The name of any network is read as one of its family and length: as itself without host bits exactly if
its address is not mapped or the length is at most forty-eight. -/
theorem names_decode (a : Address) (n : Network) :
    (∃ b, toAddress (ofAddress a) = .ok b ∧ b.family = a.family ∧
      (b = a ↔ ¬mappedRange.contains a)) ∧
    ∃ m, toNetwork (ofNetwork n) = .ok m ∧ m.family = n.family ∧ m.length = n.length ∧
      (m = n.trunc ↔ ¬mappedRange.contains n.address ∨ n.length ≤ 48) := by
  rw [mem_mappedRange, mem_mappedRange]
  constructor
  · refine ⟨a.decoded, ?_, a.family_decoded, a.decoded_eq_self_iff⟩
    rw [toAddress, ofAddress, String.toList_ofList, readAddress_dashed]
  · refine ⟨n.decoded.trunc, ?_, n.family_decoded, rfl, n.trunc_decoded_eq_iff⟩
    rw [toNetwork, ofNetwork, String.toList_ofList, readNetwork_dashed]

end StorageName

end HostBlocks
