import HostBlocks.Proofs.Enumeration.Selections
import Mathlib.Data.List.Perm.Subperm

/-!
# The array behind a shuffle

A shuffle stands for an array that holds every index at first at its own position, and whose positions
are swapped in turn with the ones drawn. It keeps no array. What it remembers are positions still to
come, at most one for each draw, and every position it does not remember holds its own index.
-/
namespace HostBlocks

namespace Shuffle

/-- The array after its positions from `i` on were swapped in turn with the listed ones. -/
def swaps (i : Nat) (array : Array Nat) : List Nat → Array Nat
  | [] => array
  | j :: js => swaps (i + 1) (array.swapIfInBounds i j) js

def dense (n : Nat) (js : List Nat) : Array Nat := swaps 0 (Array.range n) js

def takes (s : Shuffle) : List Nat → Shuffle
  | [] => s
  | j :: js => (s.take j).2.takes js

theorem getElem?_swapped {array : Array Nat} {i j : Nat} (hi : i < array.size) (hj : j < array.size)
    (k : Nat) : (array.swapIfInBounds i j)[k]? =
      if k = j then array[i]? else if k = i then array[j]? else array[k]? := by
  rw [Array.swapIfInBounds_def, dif_pos hi, dif_pos hj, Array.getElem?_swap hi hj,
    Array.getElem?_eq_getElem hi, Array.getElem?_eq_getElem hj]
  simp only [eq_comm (a := k)]

theorem size_swaps (i : Nat) (array : Array Nat) (js : List Nat) :
    (swaps i array js).size = array.size := by
  induction js generalizing i array with
  | nil => rfl
  | cons j js ih => rw [swaps, ih, Array.size_swapIfInBounds]

/-- Swaps do not come back to positions before those they begin with. -/
theorem getElem?_swaps_of_lt {i k : Nat} (hk : k < i) {array : Array Nat} {js : List Nat}
    (hjs : Source.Ranged array.size i js) : (swaps i array js)[k]? = array[k]? := by
  induction js generalizing i array with
  | nil => rfl
  | cons j js ih =>
    obtain ⟨hj, hjs⟩ := Source.ranged_cons_iff.1 hjs
    have hlater : (swaps (i + 1) (array.swapIfInBounds i j) js)[k]? = (array.swapIfInBounds i j)[k]? :=
      ih (Nat.lt_succ_of_lt hk) (by rwa [Array.size_swapIfInBounds])
    rw [swaps, hlater, getElem?_swapped (by omega) (by omega), if_neg (by omega), if_neg (by omega)]

structure Mirrors (s : Shuffle) (array : Array Nat) : Prop where
  held : ∀ k, s.drawn ≤ k → k < array.size → array[k]? = some (s.held k)
  ahead : ∀ k ∈ s.displaced, s.drawn ≤ k ∧ k < array.size
  size_le : s.displaced.size ≤ s.drawn

theorem mirrors_start (l : Layout) (n : Nat) : Mirrors (start l) (Array.range n) where
  held k _ hk := by
    rw [Array.size_range] at hk
    rw [Array.getElem?_range, if_pos hk]
    rfl
  ahead k hk := absurd hk Std.ExtTreeMap.not_mem_empty
  size_le := Nat.le_of_eq Std.ExtTreeMap.size_empty

variable {s : Shuffle} {array : Array Nat} {j : Nat} {js : List Nat}

/-- What is remembered after a draw: what was before, but for the position drawn from first, and the
position it was swapped with. -/
theorem of_mem_displaced_take {k : Nat} (h : k ∈ (s.take j).2.displaced) :
    k ≠ s.drawn ∧ (k ∈ s.displaced ∨ k = j) := by
  have herase : k ∈ s.displaced.erase s.drawn → k ≠ s.drawn ∧ k ∈ s.displaced := by
    intro hk
    rw [Std.ExtTreeMap.mem_erase, ne_eq, Std.LawfulEqCmp.compare_eq_iff_eq] at hk
    exact ⟨fun he => hk.1 he.symm, hk.2⟩
  rw [take] at h
  split at h
  · exact (herase h).imp_right Or.inl
  · next hj =>
    rw [Std.ExtTreeMap.mem_insert, Std.LawfulEqCmp.compare_eq_iff_eq] at h
    rcases h with rfl | h
    · exact ⟨hj, Or.inr rfl⟩
    · exact (herase h).imp_right Or.inl

theorem size_displaced_take_le (s : Shuffle) (j : Nat) :
    (s.take j).2.displaced.size ≤ s.displaced.size + 1 := by
  have herase : (s.displaced.erase s.drawn).size ≤ s.displaced.size := Std.ExtTreeMap.size_erase_le
  rw [take]
  split
  · exact Nat.le_succ_of_le herase
  · exact Nat.le_trans Std.ExtTreeMap.size_insert_le (Nat.succ_le_succ herase)

namespace Mirrors

/-- A draw is a swap, and the index drawn is the one that the swap leaves behind. -/
theorem take (h : Mirrors s array) (hj : s.drawn ≤ j) (hlt : j < array.size) :
    Mirrors (s.take j).2 (array.swapIfInBounds s.drawn j) ∧
      (array.swapIfInBounds s.drawn j)[s.drawn]? = some (s.take j).1 := by
  have hdrawn : s.drawn < array.size := Nat.lt_of_le_of_lt hj hlt
  have hj' := h.held j hj hlt
  have hfirst := h.held s.drawn (Nat.le_refl _) hdrawn
  refine ⟨⟨fun k hk hsize => ?_, fun k hk => ?_, ?_⟩, ?_⟩
  · rw [drawn_take] at hk
    rw [Array.size_swapIfInBounds] at hsize
    rw [getElem?_swapped hdrawn hlt, held_take hk, if_neg (c := k = s.drawn) (by omega), hfirst,
      h.held k (by omega) hsize]
    split <;> rfl
  · obtain ⟨hne, hk⟩ := of_mem_displaced_take hk
    rw [drawn_take, Array.size_swapIfInBounds]
    rcases hk with hk | rfl
    · have := h.ahead k hk
      omega
    · omega
  · rw [drawn_take]
    exact Nat.le_trans (size_displaced_take_le s j) (Nat.succ_le_succ h.size_le)
  · rw [getElem?_swapped hdrawn hlt, index_take, if_pos rfl, hfirst, hj']
    split
    · next he => rw [he]
    · rfl

/-- After all draws the shuffle stands for the array after all swaps, and the indexes drawn are those
that it has left behind, in order. -/
theorem takes (h : Mirrors s array) (hjs : Source.Ranged array.size s.drawn js) :
    Mirrors (s.takes js) (swaps s.drawn array js) ∧
      ∀ m < js.length, (swaps s.drawn array js)[s.drawn + m]? = (s.indexes js)[m]? := by
  induction js generalizing s array with
  | nil => exact ⟨h, nofun⟩
  | cons j js ih =>
    obtain ⟨⟨hj, hlt⟩, hjs⟩ := Source.ranged_cons_iff.1 hjs
    obtain ⟨hnext, hindex⟩ := h.take hj hlt
    have hjs' : Source.Ranged (array.swapIfInBounds s.drawn j).size (s.drawn + 1) js := by
      rwa [Array.size_swapIfInBounds]
    obtain ⟨hrest, hindexes⟩ := ih hnext (by rwa [drawn_take])
    rw [drawn_take] at hrest hindexes
    refine ⟨hrest, fun m hm => ?_⟩
    rw [swaps, indexes]
    cases m with
    | zero =>
      rw [Nat.add_zero s.drawn, getElem?_swaps_of_lt (Nat.lt_add_one _) hjs', hindex,
        List.getElem?_cons_zero]
    | succ m =>
      have hm' := hindexes m (Nat.lt_of_succ_lt_succ hm)
      rw [List.getElem?_cons_succ, ← hm']
      congr 1
      omega

/-- The positions remembered are all still to come. -/
theorem size_le_ahead (h : Mirrors s array) : s.displaced.size ≤ array.size - s.drawn := by
  have hsub : s.displaced.keys ⊆ List.range' s.drawn (array.size - s.drawn) := by
    intro k hk
    have := h.ahead k (Std.ExtTreeMap.mem_keys.1 hk)
    rw [List.mem_range'_1]
    omega
  have hle := (List.subperm_of_subset Std.ExtTreeMap.nodup_keys hsub).length_le
  rwa [Std.ExtTreeMap.length_keys, List.length_range'] at hle

end Mirrors

theorem size_dense (n : Nat) (js : List Nat) : (dense n js).size = n := by
  rw [dense, size_swaps, Array.size_range]

theorem drawn_takes (s : Shuffle) (js : List Nat) : (s.takes js).drawn = s.drawn + js.length := by
  induction js generalizing s with
  | nil => rfl
  | cons j js ih =>
    rw [takes, ih, drawn_take, List.length_cons]
    omega

theorem drawn_takes_start (l : Layout) (js : List Nat) : ((start l).takes js).drawn = js.length := by
  rw [drawn_takes]
  exact Nat.zero_add _

theorem mirrors_dense (l : Layout) {n : Nat} (hjs : Source.Ranged n 0 js) :
    Mirrors ((start l).takes js) (dense n js) :=
  ((mirrors_start l n).takes (by rwa [Array.size_range])).1

theorem indexes_start (l : Layout) {n : Nat} (hjs : Source.Ranged n 0 js) :
    (start l).indexes js = (dense n js).toList.take js.length := by
  have hrange : Source.Ranged (Array.range n).size (start l).drawn js := by rwa [Array.size_range]
  obtain ⟨-, hdrawn⟩ := (mirrors_start l n).takes hrange
  apply List.ext_getElem?
  intro m
  rw [List.getElem?_take]
  split
  · next hm =>
    rw [← hdrawn m hm, Array.getElem?_toList, dense]
    congr 1
    exact Nat.zero_add m
  · next hm => rw [List.getElem?_eq_none (by rw [length_indexes]; omega)]

theorem after_eq_takes {σ : Type} (source : Source σ) {k : Nat} (r : σ)
    (h : s.drawn + k ≤ s.layout.count) :
    (Enumerator.after (fun p : Shuffle × σ => p.1.nextFrom source p.2) k (s, r)).1 =
      s.takes (source.draws s.layout.count s.drawn k r) := by
  induction k generalizing s r with
  | zero => rfl
  | succ k ih =>
    let position := source.draw r s.drawn s.layout.count
    have hnext := s.nextFrom_of_lt source r (by omega)
    have hlater := ih (s := (s.take position.1).2) position.2 (by rw [drawn_take, layout_take]; omega)
    rw [drawn_take, layout_take] at hlater
    rw [Enumerator.after, hnext]
    exact hlater

/-- Whatever the count of indexes and the positions drawn in range, a shuffle holds at the positions to
come what the array holds that was swapped as often, and the indexes it has drawn are those that stand
in front of them. It remembers only positions to come, no more than there are and no more than it has
drawn, so none at the end. The calls of a shuffle make such draws, whatever their source. -/
theorem draws_swap_array (l : Layout) :
    (∀ (n : Nat) (js : List Nat), (∀ m (h : m < js.length), m ≤ js[m] ∧ js[m] < n) →
      let i := js.length
      let s := (start l).takes js
      (∀ k, i ≤ k → k < n → (dense n js)[k]? = some (s.displaced[k]?.getD k)) ∧
      (start l).indexes js = (dense n js).toList.take i ∧
      (∀ k ∈ s.displaced, i ≤ k ∧ k < n) ∧
      s.displaced.size ≤ min i (n - i) ∧
      (i = n → s.displaced = ∅)) ∧
    ∀ {σ : Type} (source : Source σ) (r : σ) (i : Nat), i ≤ l.count →
      let js := source.draws l.count 0 i r
      (js.length = i ∧ ∀ m (h : m < js.length), m ≤ js[m] ∧ js[m] < l.count) ∧
      (Enumerator.after (fun p : Shuffle × σ => p.1.nextFrom source p.2) i (start l, r)).1 =
        (start l).takes js ∧
      (start l).firstBlocks source i r = ((dense l.count js).toList.take i).map l.block := by
  constructor
  · intro n js hjs i s
    have hranged : Source.Ranged n 0 js := by simpa only [Source.Ranged, Nat.zero_add] using hjs
    have hmirrors : Mirrors s (dense n js) := mirrors_dense l hranged
    have hdrawn : s.drawn = i := drawn_takes_start l js
    have hsize := size_dense n js
    have hle := hmirrors.size_le
    have hle' := hmirrors.size_le_ahead
    rw [hdrawn] at hle hle'
    rw [hsize] at hle'
    refine ⟨fun k hk hlt => hmirrors.held k (by omega) (by omega), indexes_start l hranged,
      fun k hk => ?_, Nat.le_min.2 ⟨hle, hle'⟩, fun hi => ?_⟩
    · have := hmirrors.ahead k hk
      omega
    · rw [Std.ExtTreeMap.eq_empty_iff_size_eq_zero]
      omega
  · intro σ source r i hi js
    have hlen : js.length = i := source.length_draws l.count 0 i r
    have hin : (start l).drawn + i ≤ (start l).layout.count := by
      rw [show (start l).drawn = 0 from rfl, Nat.zero_add]
      exact hi
    have hranged : Source.Ranged l.count 0 js := source.ranged_draws r hin
    refine ⟨⟨hlen, by simpa only [Source.Ranged, Nat.zero_add] using hranged⟩,
      after_eq_takes source r hin, ?_⟩
    rw [firstBlocks_start source r hi, indexes_start l hranged, hlen]

/-- Three draws of six indexes leave one position displaced, and three of three leave none. Those of a
source of words swap the array of a pool with host bits. -/
theorem draws_swap_array_of_six :
    let pool : Network := ⟨⟨.v4, 0x0A00004D, by decide⟩, 24, by decide⟩
    let l : Layout := ⟨pool, 26, by decide, by decide, by decide, by decide⟩
    let s := (start l).takes [4, 4, 2]
    let words : Words := .ofSeed 7
    (∀ m (h : m < [4, 4, 2].length), m ≤ [4, 4, 2][m] ∧ [4, 4, 2][m] < 6) ∧
    dense 6 [4, 4, 2] = #[4, 0, 2, 3, 1, 5] ∧
    s.displaced[4]?.getD 4 = 1 ∧ s.displaced[3]?.getD 3 = 3 ∧
    (start l).indexes [4, 4, 2] = [4, 0, 2] ∧ s.displaced.size ≤ 3 ∧
    ((start l).takes [2, 2, 2]).displaced = ∅ ∧
    (start l).firstBlocks Words.source 2 words =
      ((dense 4 (Words.source.draws 4 0 2 words)).toList.take 2).map l.block := by
  intro pool l s words
  obtain ⟨hswaps, hsource⟩ := draws_swap_array l
  have hranged : ∀ m (h : m < [4, 4, 2].length), m ≤ [4, 4, 2][m] ∧ [4, 4, 2][m] < 6 := by decide
  have hdense : dense 6 [4, 4, 2] = #[4, 0, 2, 3, 1, 5] := by decide +kernel
  obtain ⟨hheld, hindexes, -, hsize, -⟩ := hswaps 6 [4, 4, 2] hranged
  rw [hdense] at hheld hindexes
  obtain ⟨-, -, -, -, hempty⟩ := hswaps 3 [2, 2, 2] (by decide)
  obtain ⟨-, -, hblocks⟩ := hsource Words.source words 2 (by decide)
  exact ⟨hranged, hdense, (Option.some.inj (hheld 4 (by decide) (by decide))).symm,
    (Option.some.inj (hheld 3 (by decide) (by decide))).symm, hindexes, hsize, hempty rfl,
    hblocks⟩

end Shuffle

end HostBlocks
