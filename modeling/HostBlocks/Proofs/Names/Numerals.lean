import HostBlocks.Numeral
import Mathlib.Data.List.Induction
import Mathlib.Tactic.IntervalCases

/-!
# Numbers from their digits

A number is known from what it is written with, in any base up to sixteen, and is read back with the
text after it left over. A list of digits is known from its value, as long as the digits are below the
base.
-/
namespace HostBlocks.Numeral

theorem digit?_digitChar {b d : Nat} (hd : d < b) (hb : b ≤ 16) : digit? b d.digitChar = some d := by
  have h16 : d < 16 := by omega
  interval_cases d <;> simp [digit?, Nat.digitChar, hd]

/-- A number is written with the digits that it is the value of. -/
theorem exists_digits {b : Nat} (h1 : 1 < b) (n : Nat) :
    ∃ ds, Nat.toDigits b n = ds.map Nat.digitChar ∧ (∀ d ∈ ds, d < b) ∧ value b ds = n := by
  induction n using Nat.strongRecOn with
  | ind n ih =>
    by_cases hn : n < b
    · exact ⟨[n], Nat.toDigits_of_lt_base hn, by simpa using hn, by simp [value]⟩
    · obtain ⟨ds, hds, hlt, hvalue⟩ := ih _ (Nat.div_lt_self (by omega) h1)
      refine ⟨ds ++ [n % b], ?_, ?_, ?_⟩
      · rw [Nat.toDigits_of_base_le h1 (by omega), hds, List.map_append, List.map_singleton]
      · intro d hd
        rw [List.mem_append, List.mem_singleton] at hd
        rcases hd with hd | rfl
        · exact hlt d hd
        · exact Nat.mod_lt n (by omega)
      · rw [value_append, hvalue, Nat.mul_comm]
        exact Nat.div_add_mod n b

theorem filterMap_digitChar {b : Nat} (hb : b ≤ 16) {ds : List Nat} (h : ∀ d ∈ ds, d < b) :
    (ds.map Nat.digitChar).filterMap (digit? b) = ds := by
  induction ds with
  | nil => rfl
  | cons d ds ih =>
    rw [List.map_cons, List.filterMap_cons_some (digit?_digitChar (h d List.mem_cons_self) hb),
      ih fun d hd => h d (List.mem_cons_of_mem _ hd)]

theorem toDigits_inj {b : Nat} (h1 : 1 < b) (hb : b ≤ 16) {m n : Nat} :
    Nat.toDigits b m = Nat.toDigits b n ↔ m = n := by
  constructor
  · intro h
    obtain ⟨ds, hds, hdslt, rfl⟩ := exists_digits h1 m
    obtain ⟨es, hes, heslt, rfl⟩ := exists_digits h1 n
    rw [← filterMap_digitChar hb hdslt, ← hds, h, hes, filterMap_digitChar hb heslt]
  · rintro rfl
    rfl

theorem map_toDigits_inj {b : Nat} (h1 : 1 < b) (hb : b ≤ 16) {ms ns : List Nat} :
    ms.map (Nat.toDigits b) = ns.map (Nat.toDigits b) ↔ ms = ns :=
  List.map_inj_right fun _ _ => (toDigits_inj h1 hb).1

theorem value_lt {b : Nat} {ds : List Nat} (h : ∀ d ∈ ds, d < b) : value b ds < b ^ ds.length := by
  induction ds using List.reverseRecOn with
  | nil => simp [value]
  | append_singleton ds d ih =>
    have hd := h d (List.mem_append_right _ List.mem_cons_self)
    have hds := ih fun d hd => h d (List.mem_append_left _ hd)
    have hmul : (value b ds + 1) * b ≤ b ^ ds.length * b := Nat.mul_le_mul_right b hds
    rw [Nat.add_mul, Nat.one_mul] at hmul
    rw [value_append, List.length_append, List.length_singleton, Nat.pow_succ]
    omega

/-- Digits below the base are those of their value. -/
theorem digits_value {b : Nat} {ds : List Nat} (h : ∀ d ∈ ds, d < b) :
    digits b ds.length (value b ds) = ds := by
  induction ds using List.reverseRecOn with
  | nil => rfl
  | append_singleton ds d ih =>
    have hd := h d (List.mem_append_right _ List.mem_cons_self)
    have hpos : 0 < b := by omega
    rw [List.length_append, List.length_singleton, digits, value_append]
    rw [Nat.mul_comm, Nat.mul_add_div hpos, Nat.mul_add_mod, Nat.div_eq_of_lt hd,
      Nat.mod_eq_of_lt hd, Nat.add_zero, ih fun d hd => h d (List.mem_append_left _ hd)]

theorem lt_of_mem_digits {b count n d : Nat} (hb : 0 < b) (h : d ∈ digits b count n) : d < b := by
  induction count generalizing n with
  | zero => cases h
  | succ count ih =>
    rw [digits, List.mem_append, List.mem_singleton] at h
    rcases h with h | rfl
    · exact ih h
    · exact Nat.mod_lt n hb

/-- No numeral goes on at the front of the text. -/
def NoDigit (b : Nat) (s : List Char) : Prop := ∀ c ∈ s.head?, digit? b c = none

theorem noDigit_nil (b : Nat) : NoDigit b [] := by
  intro c hc
  cases hc

theorem takeDigits_of_noDigit {b : Nat} {s : List Char} (h : NoDigit b s) :
    takeDigits b s = ([], s) := by
  cases s with
  | nil => rfl
  | cons c s => rw [takeDigits, h c rfl]

theorem takeDigits_digitChar {b : Nat} (hb : b ≤ 16) {ds : List Nat} (h : ∀ d ∈ ds, d < b)
    {rest : List Char} (hrest : NoDigit b rest) :
    takeDigits b (ds.map Nat.digitChar ++ rest) = (ds, rest) := by
  induction ds with
  | nil => exact takeDigits_of_noDigit hrest
  | cons d ds ih =>
    have hread := ih fun d hd => h d (List.mem_cons_of_mem _ hd)
    rw [List.map_cons, List.cons_append, takeDigits, digit?_digitChar (h d List.mem_cons_self) hb,
      hread]

theorem takeDigits_suffix (b : Nat) (s : List Char) : (takeDigits b s).2 <:+ s := by
  induction s with
  | nil => exact List.suffix_refl []
  | cons c s ih =>
    rw [takeDigits]
    split
    · exact ih.trans (List.suffix_cons c s)
    · exact List.suffix_refl _

/-- A numeral is read back, and the text after it is left. -/
theorem read_toDigits {b : Nat} (h1 : 1 < b) (hb : b ≤ 16) {n places limit : Nat}
    (hplaces : (Nat.toDigits b n).length ≤ places) (hlimit : n < limit) {rest : List Char}
    (hrest : NoDigit b rest) : read b places limit (Nat.toDigits b n ++ rest) = some (n, rest) := by
  obtain ⟨ds, hds, hlt, hvalue⟩ := exists_digits h1 n
  have hne : ds ≠ [] := by
    rintro rfl
    exact Nat.toDigits_ne_nil hds
  rw [hds, List.length_map] at hplaces
  rw [read, hds, takeDigits_digitChar hb hlt hrest]
  simp only [hvalue]
  rw [if_neg (by simp [hne]; omega)]

theorem read_of_noDigit {b places limit : Nat} {s : List Char} (h : NoDigit b s) :
    read b places limit s = none := by
  rw [read, takeDigits_of_noDigit h]
  exact if_pos (Or.inl rfl)

theorem suffix_of_read {b places limit n : Nat} {s rest : List Char}
    (h : read b places limit s = some (n, rest)) : rest <:+ s := by
  rw [read] at h
  split at h
  next ds t htake =>
    have hsuffix := takeDigits_suffix b s
    rw [htake] at hsuffix
    split at h
    · cases h
    · cases h
      exact hsuffix

end HostBlocks.Numeral
