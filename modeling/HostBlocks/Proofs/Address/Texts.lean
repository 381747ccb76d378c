import HostBlocks.Proofs.Names.Decoding

/-!
# Texts are read as what they were written of

The text of every address is read as that address by both grammars, and what comes after it is left. The
dotted end of a mapped address is two of its groups. So the text of every network, host bits set or not,
is read as that network, although networks are read by the grammar that addresses are not.
-/
namespace HostBlocks

namespace Grammar

open Numeral Address

variable (g : Grammar)

/-- No dotted address begins with a character that is no decimal digit. -/
theorem readDotted_of_noDigit {s : List Char} (h : NoDigit 10 s) : g.readDotted s = none := by
  have hoctet : g.readOctet s = none := by
    rw [readOctet, read_of_noDigit h, ite_self]
  rw [readDotted, hoctet]
  rfl

theorem readGroups_colon (places : Nat) (s : List Char) :
    g.readGroups places true (':' :: s) = ⟨[], false, ':' :: s⟩ := by
  cases places with
  | zero => rfl
  | succ places =>
    have hdotted := g.readDotted_of_noDigit (noDigit_mark (m := ':') rfl s)
    have hgroup : Numeral.read 16 4 65536 (':' :: s) = none :=
      read_of_noDigit (noDigit_mark (m := ':') rfl s)
    rw [readGroups, skipColon, if_pos rfl, Option.bind_some, hdotted, ite_self, Option.bind_some, hgroup]

/-- Behind the two colons of a mapped address stand the group that marks it and the two groups of its
dotted end. -/
theorem readGroups_mapped (places n : Nat) {rest : List Char} (hrest : IsEnd rest) :
    g.readGroups (places + 3) true ("ffff:".toList ++ (writeOctets (octets n) ++ rest)) =
      ⟨[0xffff, n % 2 ^ 32 / 65536, n % 2 ^ 32 % 65536], true, rest⟩ := by
  have hmark : "ffff:".toList ++ (writeOctets (octets n) ++ rest) =
      Nat.toDigits 16 0xffff ++ ':' :: (writeOctets (octets n) ++ rest) := rfl
  have hfirst : g.readDotted (Nat.toDigits 16 0xffff ++ ':' :: (writeOctets (octets n) ++ rest)) = none :=
    g.readDotted_of_noDigit (noDigit_mark (m := 'f') rfl _)
  have hgroup : read 16 4 65536 (Nat.toDigits 16 0xffff ++ ':' :: (writeOctets (octets n) ++ rest)) =
      some (0xffff, ':' :: (writeOctets (octets n) ++ rest)) :=
    read_toDigits (by decide) (by decide) (by decide) (by decide) (noDigit_mark rfl _)
  have hdotted := g.readDotted_writeOctets (octets n) (length_digits 256 4 n)
    (fun o ho => octets_lt ho) (hrest.noDigit 10)
  have hvalue : value 256 (octets n) = n % 2 ^ 32 := value_digits 256 4 n
  have hmore : g.readGroups (places + 2) false (':' :: (writeOctets (octets n) ++ rest)) =
      ⟨[n % 2 ^ 32 / 65536, n % 2 ^ 32 % 65536], true, rest⟩ := by
    rw [readGroups, if_pos (by omega), skipColon, if_neg Bool.false_ne_true, readMark_cons,
      Option.bind_some, hdotted, hvalue]
  rw [hmark, readGroups, if_pos (by omega), skipColon, if_pos rfl, Option.bind_some, hfirst]
  simp only [Option.bind_some, hgroup, hmore]

theorem readColons_mapped (hg : g.leastGap ≤ 2) {a : Address} (h : a.isMapped) {rest : List Char}
    (hrest : IsEnd rest) : g.readColons (a.chars ++ rest) = some (a.bits, rest) := by
  have hchars : a.chars ++ rest =
      ':' :: ':' :: ("ffff:".toList ++ (writeOctets (octets a.bits) ++ rest)) := by
    rw [chars_of_mapped h, List.append_assoc]
    rfl
  obtain ⟨places, hplaces⟩ : ∃ places, 8 - 0 - g.leastGap = places + 3 := ⟨5 - g.leastGap, by omega⟩
  have hfront := g.readGroups_colon 8 (':' :: ("ffff:".toList ++ (writeOctets (octets a.bits) ++ rest)))
  have hback := g.readGroups_mapped places a.bits hrest
  have hvalue : value 65536 (fillGap [] [0xffff, a.bits % 2 ^ 32 / 65536, a.bits % 2 ^ 32 % 65536]) =
      a.bits := by
    have hbits := ((isMapped_iff a).1 h).2
    simp only [fillGap, value, List.length_nil, List.length_cons, List.replicate, List.nil_append,
      List.cons_append, List.foldl_cons, List.foldl_nil]
    omega
  simp only [hchars, readColons, hfront, List.length_nil, if_neg (show ¬0 = 8 by decide),
    Bool.false_eq_true, if_false, readMark_cons, Option.bind_eq_bind, Option.bind_some, hplaces, hback,
    hvalue]

end Grammar

namespace Address

/-- The text of an address is read to its end. -/
theorem readFamily_chars {g : Grammar} (hg : g.leastGap ≤ 2) (a : Address) {rest : List Char}
    (hrest : Grammar.IsEnd rest) : g.readFamily a.family (a.chars ++ rest) = some (a, rest) := by
  cases ha : a.family with
  | v4 => rw [chars_of_v4 ha, readFamily_v4_octets ha g hrest]
  | v6 =>
    have hread : g.readColons (a.chars ++ rest) = some (a.bits, rest) := by
      by_cases hm : a.isMapped
      · exact g.readColons_mapped hg hm hrest
      · have hspells := spells_writeCompressed (length_groups a.bits)
        rw [chars_of_not_mapped ha hm,
          g.readColons_spelling hg hspells (fun n hn => Numeral.lt_of_mem_digits (by decide) hn) hrest,
          value_groups ha]
    rw [Grammar.readFamily, hread]
    simp only [Option.map_some, ofBits_bits ha]

/-- No address of the fourth family is read from the text of one of the sixth. -/
theorem readFamily_v4_chars {a : Address} (ha : a.family = .v6) (g : Grammar) {rest : List Char}
    (hdot : '.' ∉ rest) : g.readFamily .v4 (a.chars ++ rest) = none := by
  have hread : g.readDotted (a.chars ++ rest) = none := by
    by_cases hm : a.isMapped
    · rw [chars_of_mapped hm]
      exact g.readDotted_of_noDigit (Grammar.noDigit_mark (m := ':') rfl _)
    · have hspells := spells_writeCompressed (length_groups a.bits)
      have hnot : '.' ∉ writeCompressed (groups a.bits) := by
        intro h
        cases (hspells.onlyMark '.' h).2 rfl
      rw [chars_of_not_mapped ha hm]
      exact g.readDotted_of_no_dot (by simp [hnot, hdot])
  rw [Grammar.readFamily, hread, Option.map_none]

theorem ofText?_text (a : Address) : ofText? a.text = some a := by
  have hread := a.readFamily_chars (g := .strict) (by decide) Grammar.isEnd_nil
  rw [List.append_nil] at hread
  rw [ofText?, text, String.toList_ofList]
  apply whole_families (fun f => Grammar.strict.readFamily f a.chars) hread
  intro ha
  have hnone := readFamily_v4_chars ha .strict Grammar.isEnd_nil.no_dot
  rwa [List.append_nil] at hnone

end Address

namespace Network

theorem readFamily_chars (n : Network) : readFamily n.family n.chars = some (n, []) :=
  readFamily_of_address (n.address.readFamily_chars (by decide) n.isEnd_length)

theorem readFamily_v4_chars {n : Network} (h : n.family = .v6) : readFamily .v4 n.chars = none := by
  rw [readFamily, chars, Address.readFamily_v4_chars h .loose n.isEnd_length.no_dot]
  rfl

theorem ofText?_text (n : Network) : ofText? n.text = some n := by
  rw [ofText?, text, String.toList_ofList]
  exact whole_families (fun f => readFamily f n.chars) n.readFamily_chars readFamily_v4_chars

end Network

end HostBlocks
