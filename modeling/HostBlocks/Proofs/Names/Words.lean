import HostBlocks.Proofs.Names.Numerals
import HostBlocks.StorageName
import Mathlib.Data.List.TakeWhile

/-!
# The words of a name

Between the dashes of a name stand words: the numbers of the text it was made of, and an empty word
wherever two dashes meet. Two colons therefore leave an empty word, and the zero groups that they stand
for can be put back in its place. So the words of eight groups give all the groups, whichever run of
zeros was left out.
-/
namespace HostBlocks

namespace StorageName

/-- What stands between the dashes once the marks of a text are dashes. -/
def words (s : List Char) : List (List Char) := (dashed s).splitOn '-'

def IsWord (s : List Char) : Prop := ∀ c ∈ s, isMark c = false ∧ c ≠ '-'

theorem dashed_inj {s t : List Char} : dashed s = dashed t ↔ words s = words t := by
  constructor
  · intro h
    rw [words, words, h]
  · intro h
    have hjoined := congrArg (['-'].intercalate ·) h
    simpa only [words, List.intercalate_splitOn] using hjoined

theorem words_mark {m : Char} (hm : isMark m) (s t : List Char) :
    words (s ++ m :: t) = words s ++ words t := by
  rw [words, dashed, List.map_append, List.map_cons, if_pos hm, List.splitOn_append_cons_self]
  rfl

theorem dashed_of_isWord {s : List Char} (h : IsWord s) : dashed s = s := by
  have hid : ∀ c ∈ s, (if isMark c then '-' else c) = id c := by
    intro c hc
    simp [(h c hc).1]
  rw [dashed, List.map_congr_left hid, List.map_id]

theorem words_of_isWord {s : List Char} (h : IsWord s) : words s = [s] := by
  rw [words, dashed_of_isWord h]
  exact List.splitOn_eq_singleton fun hmem => (h _ hmem).2 rfl

/-- Words that are joined with a mark are the words of the text. -/
theorem words_intercalate {m : Char} (hm : isMark m) {ws : List (List Char)} (hne : ws ≠ [])
    (h : ∀ w ∈ ws, IsWord w) : words ([m].intercalate ws) = ws := by
  induction ws with
  | nil => exact absurd rfl hne
  | cons w ws ih =>
    have hw := words_of_isWord (h w List.mem_cons_self)
    cases ws with
    | nil => rw [List.intercalate_singleton, hw]
    | cons w' ws =>
      have hrest := ih (List.cons_ne_nil w' ws) fun w hw => h w (List.mem_cons_of_mem _ hw)
      rw [List.intercalate_cons_cons, List.append_assoc, List.singleton_append, words_mark hm, hw,
        hrest, List.singleton_append]

theorem isWord_toDigits {b : Nat} (h1 : 1 < b) (n : Nat) : IsWord (Nat.toDigits b n) := by
  intro c hc
  obtain ⟨ds, hds, -⟩ := Numeral.exists_digits h1 n
  rw [hds] at hc
  obtain ⟨d, -, rfl⟩ := List.mem_map.1 hc
  have hdot : d.digitChar ≠ '.' := Nat.digitChar_ne _ rfl
  have hcolon : d.digitChar ≠ ':' := Nat.digitChar_ne _ rfl
  have hslash : d.digitChar ≠ '/' := Nat.digitChar_ne _ rfl
  exact ⟨by simp [isMark, hdot, hcolon, hslash], Nat.digitChar_ne _ rfl⟩

theorem words_numerals {m : Char} (hm : isMark m) {b : Nat} (h1 : 1 < b) {ns : List Nat}
    (hne : ns ≠ []) :
    words ([m].intercalate (ns.map (Nat.toDigits b))) = ns.map (Nat.toDigits b) := by
  apply words_intercalate hm (by simpa using hne)
  intro w hw
  obtain ⟨n, -, rfl⟩ := List.mem_map.1 hw
  exact isWord_toDigits h1 n

/-- What stands on one side of two marks: without a word there it is an empty one. -/
def side (ws : List (List Char)) : List (List Char) := if ws = [] then [[]] else ws

/-- The words that are not empty, with zeros in place of the first empty one, eight in all. -/
def filled (ws : List (List Char)) : List (List Char) :=
  let full := ws.filter (· ≠ [])
  let front := ws.takeWhile (· ≠ [])
  front ++ List.replicate (8 - full.length) ['0'] ++ full.drop front.length

theorem filled_of_full {ws : List (List Char)} (h : ∀ w ∈ ws, w ≠ []) (hlen : ws.length = 8) :
    filled ws = ws := by
  have htake : ws.takeWhile (· ≠ []) = ws := List.takeWhile_eq_self_iff.2 (by simpa using h)
  have hfull : ws.filter (· ≠ []) = ws := List.filter_eq_self.2 (by simpa using h)
  simp only [filled, htake, hfull, List.drop_length, List.append_nil]
  simp [hlen]

theorem filter_side {ws : List (List Char)} (h : ∀ w ∈ ws, w ≠ []) :
    (side ws).filter (· ≠ []) = ws := by
  by_cases hws : ws = []
  · simp [side, hws]
  · rw [side, if_neg hws]
    exact List.filter_eq_self.2 (by simpa using h)

theorem takeWhile_side {ws : List (List Char)} (h : ∀ w ∈ ws, w ≠ []) (rest : List (List Char)) :
    (side ws ++ [] :: rest).takeWhile (· ≠ []) = ws := by
  by_cases hws : ws = []
  · simp [side, hws]
  · rw [side, if_neg hws, List.takeWhile_append_of_pos (by simpa using h)]
    simp

theorem filled_of_gap {front back : List (List Char)} (hfront : ∀ w ∈ front, w ≠ [])
    (hback : ∀ w ∈ back, w ≠ []) :
    filled (side front ++ [] :: side back) =
      front ++ List.replicate (8 - (front.length + back.length)) ['0'] ++ back := by
  have hfull : (side front ++ [] :: side back).filter (· ≠ []) = front ++ back := by
    rw [List.filter_append, List.filter_cons_of_neg (by simp), filter_side hfront,
      filter_side hback]
  simp only [filled, hfull, takeWhile_side hfront, List.length_append, List.drop_left]

end StorageName

namespace Address

open StorageName

theorem eq_zeros_append_drop (gs : List Nat) :
    gs = List.replicate (leadingZeros gs) 0 ++ gs.drop (leadingZeros gs) := by
  induction gs with
  | nil => rfl
  | cons g gs ih =>
    by_cases hg : g = 0
    · subst hg
      have hsucc : leadingZeros (0 :: gs) = leadingZeros gs + 1 := by simp [leadingZeros]
      rw [hsucc, List.replicate_succ, List.drop_succ_cons, List.cons_append, ← ih]
    · simp [leadingZeros, hg]

/-- The gap that is left out holds nothing but zeros. -/
theorem eq_of_longestGap {gs : List Nat} {start size : Nat} (h : longestGap gs = (start, size)) :
    gs = gs.take start ++ List.replicate size 0 ++ gs.drop (start + size) := by
  induction gs generalizing start size with
  | nil =>
    cases h
    rfl
  | cons g gs ih =>
    rcases hgap : longestGap gs with ⟨s, k⟩
    simp only [longestGap, hgap] at h
    split at h
    · cases h
      simpa using eq_zeros_append_drop (g :: gs)
    · cases h
      have hrest := ih hgap
      rw [List.take_succ_cons, Nat.add_right_comm, List.drop_succ_cons, List.cons_append,
        List.cons_append, ← hrest]

theorem ne_nil_of_mem_map_toDigits {b : Nat} {ns : List Nat} {w : List Char}
    (h : w ∈ ns.map (Nat.toDigits b)) : w ≠ [] := by
  obtain ⟨n, -, rfl⟩ := List.mem_map.1 h
  exact Nat.toDigits_ne_nil

theorem words_writeGroups (gs : List Nat) :
    words (writeGroups gs) = side (gs.map (Nat.toDigits 16)) := by
  cases gs with
  | nil => rfl
  | cons g gs =>
    rw [writeGroups, words_numerals rfl (by decide) (List.cons_ne_nil g gs), side]
    rfl

theorem words_gap (front back : List Nat) :
    words (writeGroups front ++ ':' :: ':' :: writeGroups back) =
      side (front.map (Nat.toDigits 16)) ++ [] :: side (back.map (Nat.toDigits 16)) := by
  rw [words_mark rfl, ← List.nil_append (':' :: _), words_mark rfl, words_writeGroups,
    words_writeGroups]
  rfl

theorem words_writeCompressed (gs : List Nat) {start size : Nat}
    (hgap : longestGap gs = (start, size)) (h : 2 ≤ size) :
    words (writeCompressed gs) = side ((gs.take start).map (Nat.toDigits 16)) ++
      [] :: side ((gs.drop (start + size)).map (Nat.toDigits 16)) := by
  simp only [writeCompressed, hgap, if_pos h, List.append_assoc, List.cons_append, List.nil_append]
  exact words_gap _ _

theorem words_full {gs : List Nat} (hlen : gs.length = 8) :
    words (writeGroups gs) = gs.map (Nat.toDigits 16) := by
  have hne : gs.map (Nat.toDigits 16) ≠ [] := by
    intro h
    rw [List.map_eq_nil_iff.1 h] at hlen
    cases hlen
  rw [words_writeGroups, side, if_neg hne]

/-- Texts that stand for eight groups: all of them, or two colons in place of a run of zeros. -/
inductive Spells : List Nat → List Char → Prop where
  | full {gs : List Nat} (hlen : gs.length = 8) : Spells gs (writeGroups gs)
  | gap (front back : List Nat) {size : Nat} (hsize : 2 ≤ size)
      (hlen : front.length + size + back.length = 8) :
      Spells (front ++ List.replicate size 0 ++ back)
        (writeGroups front ++ ':' :: ':' :: writeGroups back)

theorem spells_writeCompressed {gs : List Nat} (hlen : gs.length = 8) :
    Spells gs (writeCompressed gs) := by
  rcases hgap : longestGap gs with ⟨start, size⟩
  by_cases hsize : 2 ≤ size
  · have hgs := eq_of_longestGap hgap
    have hcount := congrArg List.length hgs
    rw [List.length_append, List.length_append, List.length_replicate, hlen] at hcount
    have hspells := Spells.gap (gs.take start) (gs.drop (start + size)) hsize hcount.symm
    rw [← hgs] at hspells
    simpa only [writeCompressed, hgap, if_pos hsize, List.append_assoc, List.cons_append,
      List.nil_append] using hspells
  · simp only [writeCompressed, hgap, if_neg hsize]
    exact Spells.full hlen

/-- The words of a text of eight groups give all the groups. -/
theorem Spells.filled_words {gs : List Nat} {s : List Char} (h : Spells gs s) :
    filled (words s) = gs.map (Nat.toDigits 16) := by
  cases h with
  | full hlen =>
    rw [words_full hlen]
    exact filled_of_full (fun w => ne_nil_of_mem_map_toDigits) (by simpa using hlen)
  | @gap front back size hsize hlen =>
    have hcount : 8 - (front.length + back.length) = size := by omega
    rw [words_gap, filled_of_gap (fun w => ne_nil_of_mem_map_toDigits)
      (fun w => ne_nil_of_mem_map_toDigits)]
    simp only [List.length_map, hcount, List.map_append, List.map_replicate]
    rfl

end Address

end HostBlocks
